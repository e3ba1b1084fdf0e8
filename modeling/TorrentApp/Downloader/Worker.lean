import Mathlib.Logic.Function.Basic
import TorrentApp.Foundation.Rounding

set_option autoImplicit false

/-!
# The worker block of `-[TorrentDownloader startDownload]`

The block that `startDownload` puts on the global queue is a sequence of atomic
steps: each one reads shared state of the downloader once, asks libtorrent one
question, writes one `BTFile`, or queues one block on the main queue.  `PC` is
the position in the block and `workNext` one step of it; what libtorrent answers
is part of the step's label.
-/

namespace TorrentApp.Downloader

open TorrentApp.Foundation

/-! ## The torrent -/

/-- The properties of a `BTFile` that the downloader and the detail page read. -/
structure BTFile where
  name : String
  offset : Nat
  size : Nat
  isPadFile : Bool
  hidden : Bool
  deriving DecidableEq, Repr

/-- The properties of a `TorrentInfo` that the downloader reads or relies on. -/
structure TorrentInfo where
  piecesCount : Nat
  pieceSize : Nat
  files : List BTFile
  deriving DecidableEq, Repr

/-- `self.torrentInfo.files.count`. -/
def TorrentInfo.count (T : TorrentInfo) : Nat := T.files.length

/-- One visible file of one byte. -/
def oneFile : TorrentInfo := ⟨1, 1, [⟨"cover.png", 0, 1, false, false⟩]⟩

/-- A `float` property: `none` stands for a quotient that is not a number. -/
abbrev Single := Option ℚ

/-- `(double)progress[i] / (double)file.size`, stored into the `float` property
`progress`; an empty file divides by zero. -/
def progressOf (bytes size : Nat) : Single :=
  if size = 0 then none else some (singleQuotient bytes size)

/-- The fields of `lt::torrent_status` the loop reads. -/
structure TorrentStatus where
  state : Fin 8
  progress : ℚ
  downloadRate : Int
  uploadRate : Int
  numPeers : Int
  deriving DecidableEq, Repr

/-- What a progress callback carries to the delegate. -/
structure BTDownloadInfo where
  state : Nat
  progress : ℚ
  downloadSpeed : Int
  uploadSpeed : Int
  peer : Int
  deriving DecidableEq, Repr

/-- `-[BTDownloadInfo initWithStatus:]`; the state is cast, not translated. -/
def BTDownloadInfo.initWithStatus (status : TorrentStatus) : BTDownloadInfo where
  state := status.state
  progress := status.progress
  downloadSpeed := status.downloadRate
  uploadSpeed := status.uploadRate
  peer := status.numPeers

/-! ## Positions and steps -/

/-- How a worker block came to its end. -/
inductive Exit where
  /-- `torrent_info(path, ec, 0)` set `ec`: early `return` -/
  | loadFailed
  /-- `s.add_torrent(p, ec)` set `ec`: early `return` -/
  | addFailed
  /-- `h.is_seed()` was true at the loop head -/
  | seed
  /-- `status.progress >= 1`: `break` -/
  | finished
  deriving DecidableEq, Repr

/-- Where a worker block stands. -/
inductive PC where
  /-- dispatched to the global queue, not started -/
  | queued
  /-- `lt::session s` is alive from here on -/
  | loadTorrent
  | addTorrent
  | filePriority (i : Nat)
  | loopHead
  | status
  | fileProgress (status : TorrentStatus)
  | pollFile (status : TorrentStatus) (progress : List Nat) (i : Nat)
  | print (status : TorrentStatus)
  | printFile (status : TorrentStatus) (i : Nat)
  | notifyProgress (status : TorrentStatus)
  | checkProgress (status : TorrentStatus)
  | notifyFinish
  | sleep
  /-- past the loop or returned early; `s` is still to be destroyed -/
  | leaving (exit : Exit)
  | done (exit : Exit)
  deriving DecidableEq, Repr

/-- The worker may still read the flags, write progress or queue blocks. -/
def PC.active : PC → Bool
  | .leaving _ => false
  | .done _ => false
  | _ => true

/-- The worker's `lt::session` is constructed and not yet destroyed. -/
def PC.sessionAlive : PC → Bool
  | .queued => false
  | .done _ => false
  | _ => true

/-- The worker has added its torrent to a session that is still there. -/
def PC.hasHandle : PC → Bool
  | .queued | .loadTorrent | .addTorrent => false
  | .leaving .loadFailed | .leaving .addFailed => false
  | .done _ => false
  | _ => true

/-- What `file_progress` reported to a worker that is writing it to the files. -/
def PC.polling : PC → Option (List Nat)
  | .pollFile _ progress _ => some progress
  | _ => none

/-- The atomic steps of the block, each with what it read or was answered. -/
inductive Work where
  /-- the block starts and constructs its session -/
  | begin
  | loadTorrent (ok : Bool)
  | addTorrent (ok : Bool)
  /-- `h.file_priority(i, priority)` -/
  | filePriority (i priority : Nat)
  | isSeed (answer : Bool)
  | status (status : TorrentStatus)
  | fileProgress (progress : List Nat)
  /-- reads `files[i].selected`; `wrote` is the progress stored, if it was set -/
  | pollFile (i : Nat) (wrote : Option Single)
  | print (enabled : Bool)
  /-- reads `files[i].selected`; `printed` tells whether a line was logged -/
  | printFile (i : Nat) (printed : Bool)
  | notifyProgress (queued : Bool)
  | checkProgress (finished : Bool)
  | notifyFinish (queued : Bool)
  | wake
  /-- the scope ends: the session is destroyed and the block returns -/
  | leave
  deriving DecidableEq, Repr

/-- A delegate object, by the optional methods it implements. -/
structure Delegate where
  progressDidUpdate : Bool
  didFinish : Bool
  deriving DecidableEq, Repr

/-- `[self.delegate respondsToSelector:@selector(btDownloader:progressDidUpdate:)]`;
a message to nil answers NO. -/
def respondsToProgress (delegate : Option Delegate) : Bool :=
  delegate.any (·.progressDidUpdate)

/-- `[self.delegate respondsToSelector:@selector(btDownloaderDidFinishDownload:)]`. -/
def respondsToFinish (delegate : Option Delegate) : Bool :=
  delegate.any (·.didFinish)

/-- A block on the main queue, by the worker that queued it. -/
inductive Block where
  | progressDidUpdate (w : Nat) (info : BTDownloadInfo)
  | didFinish (w : Nat)
  deriving DecidableEq, Repr

/-- What a worker step does to the downloader, beyond moving on. -/
inductive Effect where
  | none
  | enqueue (block : Block)
  | setProgress (i : Nat) (value : Single)

/-- The downloader's properties as a worker sees them. -/
structure Shared where
  delegate : Option Delegate
  progressPrint : Bool
  selected : Nat → Bool

section

variable (T : TorrentInfo)

/-- `for` loop over the priorities, entered at `i`. -/
def nextPriority (i : Nat) : PC :=
  if i < T.count then .filePriority i else .loopHead

/-- `for` loop writing `file.progress`, entered at `i`. -/
def nextPoll (status : TorrentStatus) (progress : List Nat) (i : Nat) : PC :=
  if i < T.count then .pollFile status progress i else .print status

/-- `for` loop printing the selected files, entered at `i`. -/
def nextPrint (status : TorrentStatus) (i : Nat) : PC :=
  if i < T.count then .printFile status i else .notifyProgress status

/-- The progress stored for file `i`: nothing when the file is not selected.
Reading `progress[i]` outside the vector is undefined, hence not a step. -/
def polled (sh : Shared) (progress : List Nat) (i : Nat) : Option (Option Single) :=
  if sh.selected i then
    match progress[i]?, T.files[i]? with
    | some bytes, some file => some (some (progressOf bytes file.size))
    | _, _ => none
  else some none

/-- One step of worker `w` from position `pc`. -/
def workNext (sh : Shared) (w : Nat) : PC → Work → Option (PC × Effect)
  | .queued, .begin => some (.loadTorrent, .none)
  | .loadTorrent, .loadTorrent ok =>
      some (if ok then .addTorrent else .leaving .loadFailed, .none)
  | .addTorrent, .addTorrent ok =>
      some (if ok then nextPriority T 0 else .leaving .addFailed, .none)
  | .filePriority i, .filePriority j priority =>
      if j = i ∧ priority = (if sh.selected i then 7 else 0) then
        some (nextPriority T (i + 1), .none)
      else none
  | .loopHead, .isSeed answer => some (if answer then .leaving .seed else .status, .none)
  | .status, .status st => some (.fileProgress st, .none)
  | .fileProgress st, .fileProgress progress => some (nextPoll T st progress 0, .none)
  | .pollFile st progress i, .pollFile j wrote =>
      if j = i ∧ polled T sh progress i = some wrote then
        some (nextPoll T st progress (i + 1),
          match wrote with
          | some value => .setProgress i value
          | none => .none)
      else none
  | .print st, .print enabled =>
      if enabled = sh.progressPrint then
        some (if enabled then nextPrint T st 0 else .notifyProgress st, .none)
      else none
  | .printFile st i, .printFile j printed =>
      if j = i ∧ printed = sh.selected i then some (nextPrint T st (i + 1), .none) else none
  | .notifyProgress st, .notifyProgress queued =>
      if queued = respondsToProgress sh.delegate then
        some (.checkProgress st,
          if queued then .enqueue (.progressDidUpdate w (.initWithStatus st)) else .none)
      else none
  | .checkProgress st, .checkProgress finished =>
      if finished = decide (1 ≤ st.progress) then
        some (if finished then .notifyFinish else .sleep, .none)
      else none
  | .notifyFinish, .notifyFinish queued =>
      if queued = respondsToFinish sh.delegate then
        some (.leaving .finished, if queued then .enqueue (.didFinish w) else .none)
      else none
  | .sleep, .wake => some (.loopHead, .none)
  | .leaving exit, .leave => some (.done exit, .none)
  | _, _ => none

/-! ## What a step can do -/

/-- Every step of worker `w`, with what it read and was answered. -/
inductive WorkStep (sh : Shared) (w : Nat) : PC → Work → PC → Effect → Prop where
  | begin : WorkStep sh w .queued .begin .loadTorrent .none
  | loaded : WorkStep sh w .loadTorrent (.loadTorrent true) .addTorrent .none
  | loadFailed :
      WorkStep sh w .loadTorrent (.loadTorrent false) (.leaving .loadFailed) .none
  | added : WorkStep sh w .addTorrent (.addTorrent true) (nextPriority T 0) .none
  | addFailed : WorkStep sh w .addTorrent (.addTorrent false) (.leaving .addFailed) .none
  | filePriority (i : Nat) :
      WorkStep sh w (.filePriority i) (.filePriority i (if sh.selected i then 7 else 0))
        (nextPriority T (i + 1)) .none
  | seed : WorkStep sh w .loopHead (.isSeed true) (.leaving .seed) .none
  | notSeed : WorkStep sh w .loopHead (.isSeed false) .status .none
  | status (st : TorrentStatus) : WorkStep sh w .status (.status st) (.fileProgress st) .none
  | fileProgress (st : TorrentStatus) (progress : List Nat) :
      WorkStep sh w (.fileProgress st) (.fileProgress progress) (nextPoll T st progress 0) .none
  | writeFile (st : TorrentStatus) (progress : List Nat) (i : Nat) (value : Single)
      (read : polled T sh progress i = some (some value)) :
      WorkStep sh w (.pollFile st progress i) (.pollFile i (some value))
        (nextPoll T st progress (i + 1)) (.setProgress i value)
  | passFile (st : TorrentStatus) (progress : List Nat) (i : Nat)
      (read : polled T sh progress i = some none) :
      WorkStep sh w (.pollFile st progress i) (.pollFile i none)
        (nextPoll T st progress (i + 1)) .none
  | print (st : TorrentStatus) (enabled : sh.progressPrint = true) :
      WorkStep sh w (.print st) (.print true) (nextPrint T st 0) .none
  | noPrint (st : TorrentStatus) (disabled : sh.progressPrint = false) :
      WorkStep sh w (.print st) (.print false) (.notifyProgress st) .none
  | printFile (st : TorrentStatus) (i : Nat) :
      WorkStep sh w (.printFile st i) (.printFile i (sh.selected i)) (nextPrint T st (i + 1)) .none
  | report (st : TorrentStatus) (hears : respondsToProgress sh.delegate = true) :
      WorkStep sh w (.notifyProgress st) (.notifyProgress true) (.checkProgress st)
        (.enqueue (.progressDidUpdate w (.initWithStatus st)))
  | noReport (st : TorrentStatus) (deaf : respondsToProgress sh.delegate = false) :
      WorkStep sh w (.notifyProgress st) (.notifyProgress false) (.checkProgress st) .none
  | complete (st : TorrentStatus) (full : 1 ≤ st.progress) :
      WorkStep sh w (.checkProgress st) (.checkProgress true) .notifyFinish .none
  | incomplete (st : TorrentStatus) (partly : ¬ 1 ≤ st.progress) :
      WorkStep sh w (.checkProgress st) (.checkProgress false) .sleep .none
  | finish (hears : respondsToFinish sh.delegate = true) :
      WorkStep sh w .notifyFinish (.notifyFinish true) (.leaving .finished)
        (.enqueue (.didFinish w))
  | noFinish (deaf : respondsToFinish sh.delegate = false) :
      WorkStep sh w .notifyFinish (.notifyFinish false) (.leaving .finished) .none
  | wake : WorkStep sh w .sleep .wake .loopHead .none
  | leave (exit : Exit) : WorkStep sh w (.leaving exit) .leave (.done exit) .none

variable {T} {sh : Shared} {w : Nat} {pc pc' : PC} {a : Work} {effect : Effect}

/-- The one place where `workNext` is taken apart. -/
theorem workStep_of_workNext (h : workNext T sh w pc a = some (pc', effect)) :
    WorkStep T sh w pc a pc' effect := by
  cases pc <;> cases a <;>
    simp only [workNext, reduceCtorEq, Option.ite_none_right_eq_some, Option.some.injEq,
      Prod.mk.injEq] at h
  case queued.begin => obtain ⟨rfl, rfl⟩ := h; exact .begin
  case loadTorrent.loadTorrent ok =>
    obtain ⟨rfl, rfl⟩ := h
    cases ok
    · exact .loadFailed
    · exact .loaded
  case addTorrent.addTorrent ok =>
    obtain ⟨rfl, rfl⟩ := h
    cases ok
    · exact .addFailed
    · exact .added
  case filePriority.filePriority i j priority =>
    obtain ⟨⟨rfl, rfl⟩, rfl, rfl⟩ := h
    exact .filePriority j
  case loopHead.isSeed answer =>
    obtain ⟨rfl, rfl⟩ := h
    cases answer
    · exact .notSeed
    · exact .seed
  case status.status st => obtain ⟨rfl, rfl⟩ := h; exact .status st
  case fileProgress.fileProgress st progress =>
    obtain ⟨rfl, rfl⟩ := h
    exact .fileProgress st progress
  case pollFile.pollFile st progress i j wrote =>
    obtain ⟨⟨rfl, hread⟩, rfl, rfl⟩ := h
    cases wrote with
    | none => exact .passFile st progress j hread
    | some value => exact .writeFile st progress j value hread
  case print.print st enabled =>
    obtain ⟨henabled, rfl, rfl⟩ := h
    cases enabled
    · exact .noPrint st henabled.symm
    · exact .print st henabled.symm
  case printFile.printFile st i j printed =>
    obtain ⟨⟨rfl, rfl⟩, rfl, rfl⟩ := h
    exact .printFile st j
  case notifyProgress.notifyProgress st queued =>
    obtain ⟨hqueued, rfl, rfl⟩ := h
    cases queued
    · exact .noReport st hqueued.symm
    · exact .report st hqueued.symm
  case checkProgress.checkProgress st finished =>
    obtain ⟨hfinished, rfl, rfl⟩ := h
    cases finished
    · exact .incomplete st (of_decide_eq_false hfinished.symm)
    · exact .complete st (of_decide_eq_true hfinished.symm)
  case notifyFinish.notifyFinish queued =>
    obtain ⟨hqueued, rfl, rfl⟩ := h
    cases queued
    · exact .noFinish hqueued.symm
    · exact .finish hqueued.symm
  case sleep.wake => obtain ⟨rfl, rfl⟩ := h; exact .wake
  case leaving.leave exit => obtain ⟨rfl, rfl⟩ := h; exact .leave exit

end

end TorrentApp.Downloader
