import TorrentApp.Downloader.Step
import TorrentApp.Foundation.Bytes

set_option autoImplicit false

/-!
# Detail pages over one download directory

The files of every torrent lie under `NSTemporaryDirectory()`, by the name the
torrent gives them, and outlive the app.  A page that finds a stored torrent sets
`file.progress` by an existence check, a page that just downloaded its torrent
starts at 0, and from then on the worker's loop writes it.  Of libtorrent: a file
appears when its first block is written, and `file_progress` counts no byte that
is neither in a written block of the session nor in a piece it verified on disk.
-/

namespace TorrentApp.Detail.Files

open TorrentApp.Foundation
open TorrentApp.Downloader (TorrentInfo BTFile PC initWithTorrent)

/-! ## State -/

/-- A torrent with the bytes its files are made of. -/
structure Torrent where
  info : TorrentInfo
  content : List (List UInt8)
  sized : content.map List.length = info.files.map BTFile.size
  deriving DecidableEq, Repr

/-- Byte `k` of file `i`. -/
def Torrent.byte (torrent : Torrent) (i k : Nat) : Option UInt8 :=
  torrent.content[i]?.bind (·[k]?)

/-- The files of the directory by name. -/
abbrev Disk := String → Option (List UInt8)

def byteAt (disk : Disk) (name : String) (k : Nat) : Option UInt8 :=
  (disk name).bind (·[k]?)

/-- A `DetailList` page that has its downloader. -/
structure Page where
  torrent : Torrent
  /-- the file the loop of existence checks has come to -/
  checking : Option Nat
  dl : Downloader.State
  onScreen : Bool
  /-- the bytes of each file that each worker's session counts as downloaded -/
  counted : Nat → Nat → Nat → Bool

structure State where
  disk : Disk
  /-- the torrents that were stored -/
  stored : List Torrent
  pages : Nat → Option Page
  nextPage : Nat

def State.init : State where
  disk := fun _ => none
  stored := []
  pages := fun _ => none
  nextPage := 0

inductive Label where
  /-- `parseTorrent:` of a torrent that was just downloaded -/
  | parseTorrent (p : Nat) (torrent : Torrent)
  /-- the detail arrives on a page with a stored torrent -/
  | loadStored (p : Nat) (torrent : Torrent)
  /-- `file.progress = [… fileExistsAtPath:storedFilePath] ? 1 : 0` for file `i` -/
  | checkFile (p i : Nat)
  /-- `tableView:didSelectRowAtIndexPath:` -/
  | didSelectRow (p i : Nat)
  /-- any other step of the page's downloader -/
  | dl (p : Nat) (l : Downloader.Label)
  /-- the session of worker `w` writes bytes `start`, …, `start + length - 1` of file `i` -/
  | writeBlock (p w i start length : Nat)
  /-- the session of worker `w` finds a piece on disk and its hash right -/
  | checkPiece (p w piece : Nat)
  /-- the page is popped; its workers go on -/
  | close (p : Nat)
  /-- the app is killed, the system purges files, and the app is launched again -/
  | relaunch (purged : List String)
  deriving DecidableEq, Repr

/-! ## Steps of one page -/

/-- The loop over the files, entered at `i`. -/
def nextCheck (info : TorrentInfo) (i : Nat) : Option Nat :=
  if i < info.count then some i else none

/-- A page as its downloader is created. -/
def Page.new (torrent : Torrent) (checking : Option Nat) : Page where
  torrent := torrent
  checking := checking
  dl := initWithTorrent torrent.info
  onScreen := true
  counted := fun _ _ _ => false

/-- One turn of the loop in `viewDidLoad`. -/
def Page.checkFile (page : Page) (disk : Disk) (i : Nat) : Option Page :=
  match page.torrent.info.files[i]? with
  | some file =>
      if page.checking = some i then
        some { page with
          checking := nextCheck page.torrent.info (i + 1)
          dl := { page.dl with
            progress := Function.update page.dl.progress i
              (some (if (disk file.name).isSome then 1 else 0)) } }
      else none
  | none => none

/-- A tap on row `i`: with `file.progress == 1.0` the file is opened, otherwise it
is downloaded. -/
def Page.didSelectRow (page : Page) (i : Nat) : Option Page :=
  if page.onScreen = true ∧ page.checking = none ∧ i < page.torrent.info.count then
    if page.dl.progress i = some 1 then some page
    else
      (Downloader.step page.torrent.info page.dl (.downloadFileAtIndexes [i])).map
        fun dl => { page with dl := dl }
  else none

/-- How many of the first `size` bytes of file `i` the session of worker `w` counts. -/
def Page.countedBytes (page : Page) (w i size : Nat) : Nat :=
  (List.range size).countP (page.counted w i)

/-- Of each file the number of bytes the session of worker `w` counts. -/
def Page.fileProgress (page : Page) (w : Nat) : List Nat :=
  page.torrent.info.files.mapIdx fun i file => page.countedBytes w i file.size

/-- The downloader's steps left to it: taps are separate, nothing else calls
`startDownload`, and `file_progress` reports no more than what is counted. -/
def Page.admits (page : Page) : Downloader.Label → Bool
  | .startDownload _ => false
  | .downloadFileAtIndexes _ => false
  | .work w (.fileProgress progress) =>
      decide (List.Forall₂ (· ≤ ·) progress (page.fileProgress w))
  | _ => true

/-- What the sessions count after a step of the downloader: a session takes its
counts with it. -/
def Page.countedAfter (page : Page) : Downloader.Label → Nat → Nat → Nat → Bool
  | .work w .leave => Function.update page.counted w fun _ _ => false
  | _ => page.counted

def Page.downloader (page : Page) (l : Downloader.Label) : Option Page :=
  if page.checking = none ∧ page.admits l = true then
    (Downloader.step page.torrent.info page.dl l).map
      fun dl => { page with dl := dl, counted := page.countedAfter l }
  else none

/-- On disk, byte `k` of file `i` is the torrent's. -/
def Page.OnDisk (page : Page) (disk : Disk) (i k : Nat) : Prop :=
  ∀ file ∈ page.torrent.info.files[i]?, byteAt disk file.name k = page.torrent.byte i k

instance (page : Page) (disk : Disk) (i k : Nat) : Decidable (page.OnDisk disk i k) :=
  inferInstanceAs (Decidable (∀ file ∈ page.torrent.info.files[i]?, _))

/-- Byte `k` of file `i` lies in a piece. -/
def Torrent.inPiece (torrent : Torrent) (piece i k : Nat) : Bool :=
  torrent.info.files[i]?.any fun file => (file.offset + k) / torrent.info.pieceSize == piece

/-- All bytes of a piece are on disk. -/
def Page.PieceOnDisk (page : Page) (disk : Disk) (piece : Nat) : Prop :=
  ∀ i < page.torrent.info.count, ∀ file ∈ page.torrent.info.files[i]?, ∀ k < file.size,
    page.torrent.inPiece piece i k = true → page.OnDisk disk i k

instance (page : Page) (disk : Disk) (piece : Nat) : Decidable (page.PieceOnDisk disk piece) :=
  inferInstanceAs (Decidable (∀ i < page.torrent.info.count,
    ∀ file ∈ page.torrent.info.files[i]?, ∀ k < file.size,
      page.torrent.inPiece piece i k = true → page.OnDisk disk i k))

/-- The session of worker `w` counts these bytes, too. -/
def Page.count (page : Page) (w : Nat) (bytes : Nat → Nat → Bool) : Page :=
  { page with
    counted := Function.update page.counted w fun i k => page.counted w i k || bytes i k }

/-- The session has a handle and the piece's hash is right. -/
def Page.checkPiece (page : Page) (disk : Disk) (w piece : Nat) : Option Page :=
  if (page.dl.workers w).any PC.hasHandle = true ∧ page.PieceOnDisk disk piece then
    some (page.count w (page.torrent.inPiece piece))
  else none

/-! ## Steps of the app -/

/-- The bytes of a block. -/
def Torrent.block (torrent : Torrent) (i start length : Nat) : List UInt8 :=
  ((torrent.content[i]?.getD []).drop start).take length

/-- The directory after a block is written to the file `name`; a file that is not
there is created. -/
def Disk.write (disk : Disk) (name : String) (start : Nat) (block : List UInt8) : Disk :=
  Function.update disk name (some (writeAt 0 ((disk name).getD []) start block))

/-- Bytes `start`, …, `start + length - 1` of file `i`. -/
def blockBytes (i start length : Nat) (j k : Nat) : Bool :=
  j == i && decide (start ≤ k) && decide (k < start + length)

/-- One more page, as its downloader is created. -/
def State.addPage (s : State) (torrent : Torrent) (checking : Option Nat) : State :=
  { s with
    pages := Function.update s.pages s.nextPage (some (Page.new torrent checking))
    nextPage := s.nextPage + 1 }

/-- A step of page `p` that leaves the directory alone. -/
def State.onPage (s : State) (p : Nat) (f : Page → Option Page) : Option State :=
  ((s.pages p).bind f).map fun page => { s with pages := Function.update s.pages p (some page) }

def State.writeBlock (s : State) (p w i start length : Nat) : Option State :=
  match s.pages p with
  | some page =>
      match page.torrent.info.files[i]? with
      | some file =>
          if (page.dl.workers w).any PC.hasHandle = true ∧ 0 < length ∧
              start + length ≤ file.size then
            some { s with
              disk := s.disk.write file.name start (page.torrent.block i start length)
              pages := Function.update s.pages p
                (some (page.count w (blockBytes i start length))) }
          else none
      | none => none
  | none => none

/-- One step. -/
def step (s : State) : Label → Option State
  | .parseTorrent p torrent =>
      if p = s.nextPage then
        some { s.addPage torrent none with stored := torrent :: s.stored }
      else none
  | .loadStored p torrent =>
      if p = s.nextPage ∧ torrent ∈ s.stored then
        some (s.addPage torrent (nextCheck torrent.info 0))
      else none
  | .checkFile p i => s.onPage p fun page => page.checkFile s.disk i
  | .didSelectRow p i => s.onPage p fun page => page.didSelectRow i
  | .dl p l => s.onPage p fun page => page.downloader l
  | .writeBlock p w i start length => s.writeBlock p w i start length
  | .checkPiece p w piece => s.onPage p fun page => page.checkPiece s.disk w piece
  | .close p => s.onPage p fun page => some { page with onScreen := false }
  | .relaunch purged =>
      some { s with
        disk := fun name => if name ∈ purged then none else s.disk name
        pages := fun _ => none
        nextPage := 0 }

/-! ## The law -/

end TorrentApp.Detail.Files
