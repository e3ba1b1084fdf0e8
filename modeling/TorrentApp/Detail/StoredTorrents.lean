import TorrentApp.Detail.Cache
import TorrentApp.Foundation.Directory

set_option autoImplicit false

/-!
# Stored torrents in one directory

All torrent files lie in the temporary directory.  One producer moves its file
there under a fresh UUID; the other opens a file by the torrent's own name for
truncation and writes it through a stream of its own, from offset 0 and to the
inode it opened, whatever other streams do to the same file meanwhile.
`storeTorrent:` runs on the main thread, in an instance obtained right before, so
here the cache is one entry per url; its move goes from a file of the directory
to the file of the same name.
-/

namespace TorrentApp.Detail.Stored

open TorrentApp.Foundation

abbrev Bytes := List UInt8

/-! ## The model -/

/-- A download between its producer and `storeTorrent:`. -/
structure Download where
  url : String
  /-- the last component of the path it is written to -/
  filename : String
  /-- what the producer writes to the file -/
  bytes : Bytes
  /-- the file it writes to -/
  inode : Nat
  /-- the position of its stream, the number of `bytes` written -/
  offset : Nat
  /-- the stream is closed and the path passed to the completion -/
  written : Bool
  deriving DecidableEq, Repr

/-- The directory, the cache entries and the downloads under way. -/
structure State where
  /-- `NSTemporaryDirectory()` -/
  directory : Directory String UInt8
  /-- the entry `k_torrent` of each url -/
  stored : String → Option String
  /-- the bytes downloaded for each url's most recent stored torrent -/
  latest : String → Option Bytes
  /-- the names given to files so far -/
  names : List String
  downloads : Nat → Option Download
  nextDownload : Nat

def State.init : State where
  directory := Directory.empty
  stored := fun _ => none
  latest := fun _ => none
  names := []
  downloads := fun _ => none
  nextDownload := 0

inductive Label where
  /-- `[Cosxcos downloadTorrent:… asName:nil complete:…]` has moved its download to a
  file named by a fresh UUID -/
  | downloadTorrent (d : Nat) (url uuid : String) (bytes : Bytes)
  /-- `downloadTorrentFromMagnet:` opens its file, truncating it -/
  | openMagnet (d : Nat) (url name : String) (metadata : Bytes)
  /-- its stream writes the next `n` bytes of the bencoded metadata and the newline -/
  | writeMagnet (d n : Nat)
  /-- `fout.close()`; whether all bytes were written is not checked -/
  | closeMagnet (d : Nat)
  /-- `parseTorrent:` stores the path; `moved` is the outcome of a move that the
  destination does not prevent -/
  | storeTorrent (d : Nat) (moved : Bool)
  /-- the app is killed and launched again -/
  | relaunch
  /-- the system removes a file of the temporary directory -/
  | purge (filename : String)
  deriving DecidableEq, Repr

/-- `"%@%@.torrent"` without the directory. -/
def torrentFilename (name : String) : String := name ++ ".torrent"

/-- `moveItemAtURL:toURL:` inside the directory: it fails when the destination
exists, and may fail otherwise. -/
def moveItem (directory : Directory String UInt8) (source destination : String) (moved : Bool) :
    Directory String UInt8 :=
  if (directory.entry destination).isNone && moved then directory.rename source destination
  else directory

/-- The state with one more download under way, its file in `directory`. -/
def State.addDownload (s : State) (directory : Directory String UInt8) (download : Download) :
    State :=
  { s with
    directory := directory
    names := download.filename :: s.names
    downloads := Function.update s.downloads s.nextDownload (some download)
    nextDownload := s.nextDownload + 1 }

/-- What a download's file holds after its stream has written `n` more bytes at its
own position. -/
def State.overwritten (s : State) (download : Download) (n : Nat) : Bytes :=
  writeAt 0 (s.directory.inode download.inode) download.offset
    ((download.bytes.drop download.offset).take n)

/-- A magnet's stream writes `n` bytes. -/
def State.writeMagnet (s : State) (d : Nat) (download : Download) (n : Nat) : State :=
  { s with
    directory := s.directory.setInode download.inode (s.overwritten download n)
    downloads :=
      Function.update s.downloads d (some { download with offset := download.offset + n }) }

/-- A magnet's stream is closed. -/
def State.closeMagnet (s : State) (d : Nat) (download : Download) : State :=
  { s with downloads := Function.update s.downloads d (some { download with written := true }) }

/-- `-[DetailListCache storeTorrent:]` of a finished download. -/
def State.storeTorrent (s : State) (d : Nat) (download : Download) (moved : Bool) : State :=
  { s with
    directory := moveItem s.directory download.filename download.filename moved
    stored := Function.update s.stored download.url (some download.filename)
    latest := Function.update s.latest download.url (some download.bytes)
    downloads := Function.update s.downloads d none }

/-- One step. -/
def step (s : State) : Label → Option State
  | .downloadTorrent d url uuid bytes =>
      if d = s.nextDownload ∧ torrentFilename uuid ∉ s.names then
        some (s.addDownload (s.directory.create (torrentFilename uuid) bytes)
          ⟨url, torrentFilename uuid, bytes, s.directory.next, bytes.length, true⟩)
      else none
  | .openMagnet d url name metadata =>
      if d = s.nextDownload then
        let opened := s.directory.openTrunc (torrentFilename name)
        some (s.addDownload opened.1
          ⟨url, torrentFilename name, metadata ++ [10], opened.2, 0, false⟩)
      else none
  | .writeMagnet d n =>
      match s.downloads d with
      | some download =>
          if download.written = false ∧ 0 < n ∧ download.offset + n ≤ download.bytes.length then
            some (s.writeMagnet d download n)
          else none
      | none => none
  | .closeMagnet d =>
      match s.downloads d with
      | some download => if download.written then none else some (s.closeMagnet d download)
      | none => none
  | .storeTorrent d moved =>
      match s.downloads d with
      | some download => if download.written then some (s.storeTorrent d download moved) else none
      | none => none
  | .relaunch => some { s with downloads := fun _ => none }
  | .purge filename => some { s with directory := s.directory.unlink filename }

/-- The bytes of a file of the directory. -/
def State.content (s : State) (filename : String) : Option Bytes := s.directory.content filename

/-- Two magnets of one name at work together: the second open truncates what the
first has written, and the longer file stays below what the shorter one wrote. -/
def overlapping : List Label :=
  [.openMagnet 0 "post1" "a" [1, 2, 3], .openMagnet 1 "post2" "a" [4], .writeMagnet 0 4,
    .writeMagnet 1 2, .closeMagnet 0, .closeMagnet 1]

example : (run step State.init overlapping).bind (·.content "a.torrent") = some [4, 10, 3, 10] :=
  rfl

/-! ## The law -/

theorem writeMagnet_cases {s s' : State} {d n : Nat} (h : step s (.writeMagnet d n) = some s') :
    ∃ download, s.downloads d = some download ∧ s' = s.writeMagnet d download n := by
  simp only [step] at h
  split at h
  · next download hd =>
      simp only [Option.ite_none_right_eq_some, Option.some.injEq] at h
      exact ⟨download, hd, h.2.symm⟩
  · cases h

theorem closeMagnet_cases {s s' : State} {d : Nat} (h : step s (.closeMagnet d) = some s') :
    ∃ download, s.downloads d = some download ∧ s' = s.closeMagnet d download := by
  simp only [step] at h
  split at h
  · next download hd =>
      simp only [Option.ite_none_left_eq_some, Option.some.injEq] at h
      exact ⟨download, hd, h.2.symm⟩
  · cases h

theorem storeTorrent_cases {s s' : State} {d : Nat} {moved : Bool}
    (h : step s (.storeTorrent d moved) = some s') :
    ∃ download, s.downloads d = some download ∧ s' = s.storeTorrent d download moved := by
  simp only [step] at h
  split at h
  · next download hd =>
      simp only [Option.ite_none_right_eq_some, Option.some.injEq] at h
      exact ⟨download, hd, h.2.symm⟩
  · cases h

/-! ## Names and open files -/

/-- A download's name has been given, and no other name leads to its file. -/
structure State.Opened (s : State) (download : Download) : Prop where
  filename_mem : download.filename ∈ s.names
  handle : s.directory.Handle download.inode download.filename

/-- Everything a url has stored was given its name before, and so was every download
under way. -/
structure State.Tracked (s : State) : Prop where
  stored_mem : ∀ url filename, s.stored url = some filename → filename ∈ s.names
  opened : ∀ d download, s.downloads d = some download → s.Opened download

/-- A new download is tracked when the others are and its file leads to it. -/
theorem State.Tracked.addDownload {s : State} {directory : Directory String UInt8}
    {download : Download} (h : s.Tracked)
    (hnew : directory.Handle download.inode download.filename)
    (hold : ∀ i x, s.directory.Handle i x → directory.Handle i x) :
    (s.addDownload directory download).Tracked := by
  refine ⟨fun url filename hurl => List.mem_cons_of_mem _ (h.stored_mem url filename hurl), ?_⟩
  intro d download' hd
  by_cases hlast : d = s.nextDownload
  · obtain rfl : download = download' := by simpa [State.addDownload, hlast] using hd
    exact ⟨List.mem_cons_self, hnew⟩
  · have hopened := h.opened d download' (by simpa [State.addDownload, hlast] using hd)
    exact ⟨List.mem_cons_of_mem _ hopened.filename_mem, hold _ _ hopened.handle⟩

/-- Replacing a download under way by one of the same file keeps all tracked. -/
theorem State.Tracked.setDownload {s s' : State} {d : Nat} {download download' : Download}
    (h : s.Tracked) (hd : s.downloads d = some download)
    (hnames : s'.names = s.names) (hstored : s'.stored = s.stored)
    (hdownloads : s'.downloads = Function.update s.downloads d (some download'))
    (hfilename : download'.filename = download.filename) (hinode : download'.inode = download.inode)
    (hold : ∀ i x, s.directory.Handle i x → s'.directory.Handle i x) : s'.Tracked := by
  refine ⟨fun url filename hurl => ?_, fun e other he => ?_⟩
  · rw [hnames]
    exact h.stored_mem url filename (hstored ▸ hurl)
  · rw [hdownloads] at he
    by_cases hed : e = d
    · subst hed
      rw [Function.update_self, Option.some.injEq] at he
      subst he
      have hopened := h.opened e download hd
      refine ⟨?_, hold _ _ ?_⟩
      · rw [hnames, hfilename]
        exact hopened.filename_mem
      · rw [hfilename, hinode]
        exact hopened.handle
    · rw [Function.update_of_ne hed] at he
      have hopened := h.opened e other he
      exact ⟨hnames ▸ hopened.filename_mem, hold _ _ hopened.handle⟩

theorem State.Tracked.storeTorrent {s : State} {d : Nat} {download : Download} {moved : Bool}
    (h : s.Tracked) (hd : s.downloads d = some download) :
    (s.storeTorrent d download moved).Tracked := by
  constructor
  · intro url filename hurl
    by_cases hu : url = download.url
    · obtain rfl : download.filename = filename := by
        simpa [State.storeTorrent, hu] using hurl
      exact (h.opened d download hd).filename_mem
    · exact h.stored_mem url filename (by simpa [State.storeTorrent, hu] using hurl)
  · intro e other he
    have hed : e ≠ d := by
      rintro rfl
      simp [State.storeTorrent] at he
    have hopened := h.opened e other (by simpa [State.storeTorrent, hed] using he)
    refine ⟨hopened.filename_mem, ?_⟩
    show (moveItem s.directory _ _ moved).Handle _ _
    unfold moveItem
    split
    · exact hopened.handle.rename_self
    · exact hopened.handle

theorem State.Tracked.step {s s' : State} {l : Label} (h : s.Tracked)
    (hstep : step s l = some s') : s'.Tracked := by
  cases l with
  | downloadTorrent d url uuid bytes =>
      simp only [Stored.step, Option.ite_none_right_eq_some, Option.some.injEq] at hstep
      obtain ⟨-, rfl⟩ := hstep
      exact h.addDownload (s.directory.handle_create _ _) fun _ _ hold => hold.create
  | openMagnet d url name metadata =>
      simp only [Stored.step, Option.ite_none_right_eq_some, Option.some.injEq] at hstep
      obtain ⟨-, rfl⟩ := hstep
      exact h.addDownload (s.directory.handle_openTrunc _) fun _ _ hold => hold.openTrunc
  | writeMagnet d n =>
      obtain ⟨download, hd, rfl⟩ := writeMagnet_cases hstep
      exact h.setDownload hd rfl rfl rfl rfl rfl fun _ _ hold => hold.setInode
  | closeMagnet d =>
      obtain ⟨download, hd, rfl⟩ := closeMagnet_cases hstep
      exact h.setDownload hd rfl rfl rfl rfl rfl fun _ _ hold => hold
  | storeTorrent d moved =>
      obtain ⟨download, hd, rfl⟩ := storeTorrent_cases hstep
      exact h.storeTorrent hd
  | relaunch =>
      cases hstep
      exact ⟨h.stored_mem, fun _ _ hd => by cases hd⟩
  | purge filename =>
      cases hstep
      exact ⟨h.stored_mem, fun d download hd =>
        ⟨(h.opened d download hd).filename_mem, (h.opened d download hd).handle.unlink⟩⟩

end TorrentApp.Detail.Stored
