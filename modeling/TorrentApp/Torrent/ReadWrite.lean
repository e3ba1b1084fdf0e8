import TorrentApp.Torrent.Buffers
import TorrentApp.Torrent.PartFileHeader
import TorrentApp.Torrent.Slices

set_option autoImplicit false

/-!
# `readwritev`

A request for a block of a piece is carried out file by file: `readwritev` walks over
the files and hands each its share of the buffers.  What is done with a file is left to
a `fileop`, and one rule says what a request keeps when every call of its `fileop` does.
-/

namespace TorrentApp.Torrent

open TorrentApp.Foundation

/-! ## `readwritev` -/

inductive Operation where
  | none
  | mkdir
  | open
  | read
  | write
  | fallocate
  | partfile_read
  | partfile_write
  deriving DecidableEq, Repr

structure StorageError where
  ec : Option Errno
  file : Int
  operation : Operation
  deriving DecidableEq, Repr

/-- The constructor of `storage_error`. -/
def StorageError.clear : StorageError := ⟨none, -1, .none⟩

def FileStorage.file_size (st : FileStorage) (index : Nat) : Nat :=
  (st.files[index]?.map InternalFileEntry.size).getD 0

def FileStorage.file_offset (st : FileStorage) (index : Nat) : Nat :=
  (st.files[index]?.map InternalFileEntry.offset).getD 0

def FileStorage.pad_file_at (st : FileStorage) (index : Nat) : Bool :=
  (st.files[index]?.map InternalFileEntry.pad_file).getD false

/-- `fileop::file_op`: the file, the offset in it, the size and the buffers.  There is no
answer where a null pointer is followed. -/
abbrev Fileop (σ : Type) :=
  Nat → Nat → Nat → List Iovec → StorageError → σ → Option (Int × StorageError × σ)

/-- The share of `bytes_left` that lies in a file behind `file_offset`. -/
def fileBytesLeft (file_size file_offset bytes_left : Nat) : Nat :=
  if file_size < file_offset + bytes_left then file_size - file_offset else bytes_left

/-- The loop that skips over empty files, from file `i` on. -/
def nextFile : List InternalFileEntry → Nat → Nat → Option (Nat × Nat × Nat)
  | [], _, _ => none
  | f :: rest, i, bytes_left =>
      let file_bytes_left := fileBytesLeft f.size 0 bytes_left
      if file_bytes_left = 0 then nextFile rest (i + 1) bytes_left
      else some (i, 0, file_bytes_left)

/-- The loop of `readwritev`, which runs `fuel` times at most. -/
def rwLoop {σ : Type} (st : FileStorage) (op : Fileop σ) (size : Nat) :
    Nat → Nat → Nat → Nat → List Iovec → StorageError → σ → Option (Int × StorageError × σ)
  | 0, _, _, _, _, ec, s => some (size, ec, s)
  | fuel + 1, file_index, file_offset, bytes_left, current_buf, ec, s =>
      if bytes_left = 0 then some (size, ec, s)
      else
        let file_bytes_left := fileBytesLeft (st.file_size file_index) file_offset bytes_left
        let place :=
          if file_bytes_left = 0 then
            nextFile (st.files.drop (file_index + 1)) (file_index + 1) bytes_left
          else some (file_index, file_offset, file_bytes_left)
        match place with
        -- we should never run off the end of it
        | none => some (size, ec, s)
        | some (file_index, file_offset, file_bytes_left) =>
            match op file_index file_offset file_bytes_left
              (copy_bufs current_buf file_bytes_left) ec s with
            | none => none
            | some (bytes_transferred, ec, s) =>
                if ec.ec.isSome then some (-1, ec, s)
                else
                  let n := bytes_transferred.toNat
                  if n = 0 then some ((size : Int) - bytes_left, { ec with file := file_index }, s)
                  else rwLoop st op size fuel file_index (file_offset + n) (bytes_left - n)
                    (advance_bufs current_buf n) ec s

/-- `readwritev`. -/
def readwritev {σ : Type} (st : FileStorage) (bufs : List Iovec) (piece offset : Nat)
    (op : Fileop σ) (ec : StorageError) (s : σ) : Option (Int × StorageError × σ) :=
  let size := bufs_size bufs
  let torrent_offset := piece * st.piece_length + offset
  let file_index := st.file_index_at_offset torrent_offset
  rwLoop st op size size file_index (torrent_offset - st.file_offset file_index) size
    (copy_bufs bufs size) ec s

/-! ## The rule of `readwritev` -/

/-- The share of a request that one call of a `fileop` gets: `left` bytes of file `i` from
`off` on, which lie `done` bytes behind the start of the request. -/
structure Share (st : FileStorage) (start size done i off left : Nat) (f : InternalFileEntry) :
    Prop where
  file : st.files[i]? = some f
  place : f.offset + off = start + done
  inside : off + left ≤ f.size
  pos : 0 < left
  rest : done + left ≤ size

theorem fileBytesLeft_le (file_size file_offset bytes_left : Nat) :
    fileBytesLeft file_size file_offset bytes_left ≤ bytes_left := by
  rw [fileBytesLeft]
  split <;> omega

theorem add_fileBytesLeft_le {file_size file_offset bytes_left : Nat}
    (h : file_offset ≤ file_size) :
    file_offset + fileBytesLeft file_size file_offset bytes_left ≤ file_size := by
  rw [fileBytesLeft]
  split <;> omega

/-- Behind a file the next bytes of the torrent lie in the next file that has any. -/
theorem nextFile_spec {st : FileStorage} {files : List InternalFileEntry} {i start bytes_left : Nat}
    (hfiles : st.files.drop i = files)
    (habut : Abut InternalFileEntry.offset InternalFileEntry.size start files)
    (hmore : 0 < (files.map InternalFileEntry.size).sum) (hleft : 0 < bytes_left) :
    ∃ j f left, nextFile files i bytes_left = some (j, 0, left) ∧ st.files[j]? = some f ∧
      f.offset = start ∧ left ≤ f.size ∧ 0 < left ∧ left ≤ bytes_left := by
  induction files generalizing i start with
  | nil => exact absurd hmore (by simp)
  | cons f rest ih =>
    obtain ⟨hf, hrest⟩ := getElem?_of_drop_eq hfiles
    have hstart := habut.1
    rw [List.map_cons, List.sum_cons] at hmore
    rw [nextFile]
    split
    · rename_i hzero
      have hsize : f.size = 0 := by
        rw [fileBytesLeft] at hzero
        split at hzero <;> omega
      obtain ⟨j, g, left, hnext, hg, hoffset, hin⟩ := ih hrest habut.2 (by omega)
      exact ⟨j, g, left, hnext, hg, by omega, hin⟩
    · rename_i hsome
      have hle : 0 + fileBytesLeft f.size 0 bytes_left ≤ f.size :=
        add_fileBytesLeft_le (Nat.zero_le f.size)
      exact ⟨i, f, _, rfl, hf, hstart, by omega, by omega, fileBytesLeft_le _ _ _⟩

section Rule

variable (st : AcceptedStorage) {σ : Type} {op : Fileop σ} {start size : Nat} {bufs : List Iovec}

/-- What a `fileop` has to keep: `I done s` says what holds with the first `done` bytes of
the request carried out, `E s` what holds after an error, and `Z` follows from a call that
moves nothing. -/
structure FileopKeeps (op : Fileop σ) (bufs : List Iovec) (start size : Nat)
    (I : Nat → σ → Prop) (E : σ → Prop) (Z : Prop) : Prop where
  call : ∀ {done i off left f cur ec s}, Share st.toFileStorage start size done i off left f →
    addresses cur = (addresses bufs).drop done → left ≤ bufs_size cur → ec.ec = none →
    I done s → ∃ bt ec' s', op i off left (copy_bufs cur left) ec s = some (bt, ec', s') ∧
      (ec'.ec ≠ none → E s') ∧
      (ec'.ec = none → bt.toNat ≤ left ∧ (bt.toNat = 0 → Z) ∧ I (done + bt.toNat) s')

/-- What a request comes to: everything is done, or a part of it and the last call moved
nothing, or there is an error. -/
def Carried (size : Nat) (I : Nat → σ → Prop) (E : σ → Prop) (Z : Prop)
    (r : Option (Int × StorageError × σ)) : Prop :=
  ∃ ret ec s, r = some (ret, ec, s) ∧
    (ec.ec ≠ none → ret = -1 ∧ E s) ∧
    (ec.ec = none → ∃ done ≤ size, ret = done ∧ I done s ∧ (done = size ∨ Z))

theorem rwLoop_carried {I : Nat → σ → Prop} {E : σ → Prop} {Z : Prop}
    (hop : FileopKeeps st op bufs start size I E Z) (hend : start + size ≤ st.total_size)
    {fuel i off done : Nat} {f : InternalFileEntry} {cur : List Iovec} {ec : StorageError} {s : σ}
    (hfuel : size - done ≤ fuel) (hdone : done ≤ size) (hfile : st.files[i]? = some f)
    (hplace : f.offset + off = start + done) (hoff : off ≤ f.size)
    (hcur : addresses cur = (addresses bufs).drop done) (hbufs : bufs_size bufs = size)
    (hec : ec.ec = none) (hs : I done s) :
    Carried size I E Z
      (rwLoop st.toFileStorage op size fuel i off (size - done) cur ec s) := by
  induction fuel generalizing i off done f cur ec s with
  | zero =>
    have hall : done = size := by omega
    subst hall
    exact ⟨_, _, _, rfl, fun h => absurd hec h, fun _ => ⟨done, le_rfl, rfl, hs, Or.inl rfl⟩⟩
  | succ fuel ih =>
    rw [rwLoop]
    split
    · have hall : done = size := by omega
      subst hall
      exact ⟨_, _, _, rfl, fun h => absurd hec h, fun _ => ⟨done, le_rfl, rfl, hs, Or.inl rfl⟩⟩
    · rename_i hmore
      have hsize : st.file_size i = f.size := by
        rw [FileStorage.file_size, hfile]
        rfl
      -- the file that the next bytes lie in
      obtain ⟨j, g, off', left, hnext, hshare⟩ : ∃ j g off' left,
          (if fileBytesLeft (st.file_size i) off (size - done) = 0 then
            nextFile (st.files.drop (i + 1)) (i + 1) (size - done)
          else some (i, off, fileBytesLeft (st.file_size i) off (size - done))) =
            some (j, off', left) ∧ Share st.toFileStorage start size done j off' left g := by
        rw [hsize]
        have hle := fileBytesLeft_le f.size off (size - done)
        have hin : off + fileBytesLeft f.size off (size - done) ≤ f.size :=
          add_fileBytesLeft_le hoff
        split
        · rename_i hzero
          have hlast : off = f.size := by
            rw [fileBytesLeft] at hzero
            split at hzero <;> omega
          have hdrop := st.abut.drop hfile
          have hcons : st.files.drop i = f :: st.files.drop (i + 1) := by
            obtain ⟨hi, hget⟩ := List.getElem?_eq_some_iff.mp hfile
            rw [List.drop_eq_getElem_cons hi, hget]
          rw [hcons] at hdrop
          have hsum := st.sum_drop hfile
          rw [hcons, List.map_cons, List.sum_cons] at hsum
          obtain ⟨j, g, left, hnext, hg, hoffset, hleft, hpos, hrest⟩ :=
            nextFile_spec rfl hdrop.2 (by omega) (by omega : 0 < size - done)
          exact ⟨j, g, 0, left, hnext, hg, by omega, by omega, hpos, by omega⟩
        · exact ⟨i, f, off, _, rfl, hfile, hplace, hin, by omega, by omega⟩
      dsimp only
      rw [hnext]
      dsimp only
      have hlength : bufs_size cur = size - done := by
        rw [← length_addresses, hcur, List.length_drop, length_addresses, hbufs]
      have hrest := hshare.rest
      obtain ⟨bt, ec', s', hcall, herror, hok⟩ :=
        hop.call hshare hcur (by omega) hec hs
      rw [hcall]
      dsimp only
      split
      · rename_i hbad
        have hne : ec'.ec ≠ none := Option.isSome_iff_ne_none.mp hbad
        exact ⟨_, _, _, rfl, fun _ => ⟨rfl, herror hne⟩, fun h => absurd h hne⟩
      · rename_i hgood
        have hnone : ec'.ec = none := Option.not_isSome_iff_eq_none.mp hgood
        obtain ⟨hbt, hz, hI⟩ := hok hnone
        split
        · rename_i hnothing
          rw [hnothing, Nat.add_zero] at hI
          refine ⟨_, _, _, rfl, fun h => absurd hnone h, fun _ => ?_⟩
          exact ⟨done, hdone, by omega, hI, Or.inr (hz hnothing)⟩
        · have hplace' := hshare.place
          have hinside := hshare.inside
          rw [Nat.sub_sub]
          refine ih (by omega) (by omega) hshare.file (by omega) (by omega) ?_ hnone hI
          rw [addresses_advance_bufs (by omega), hcur, List.drop_drop]

/-- A request inside the torrent is carried out by calls of the `fileop` that keep `I`. -/
theorem readwritev_carried {I : Nat → σ → Prop} {E : σ → Prop} {Z : Prop} {piece offset : Nat}
    {s : σ} (hop : FileopKeeps st op bufs (piece * st.piece_length + offset) (bufs_size bufs) I E Z)
    (hfits : st.total_size ≤ fieldLimit) (hpos : 0 < bufs_size bufs)
    (hend : piece * st.piece_length + offset + bufs_size bufs ≤ st.total_size) (hs : I 0 s) :
    Carried (bufs_size bufs) I E Z
      (readwritev st.toFileStorage bufs piece offset op .clear s) := by
  have hin : piece * st.piece_length + offset < st.total_size := by omega
  obtain ⟨f, hfile, hlo, hhi⟩ := st.file_index_at_offset_eq hin hfits
  have hoffset : st.file_offset (st.file_index_at_offset (piece * st.piece_length + offset)) =
      f.offset := by
    rw [FileStorage.file_offset, hfile]
    rfl
  rw [readwritev, hoffset]
  have hcur : addresses (copy_bufs bufs (bufs_size bufs)) = (addresses bufs).drop 0 := by
    rw [addresses_copy_bufs le_rfl, List.drop_zero, List.take_of_length_le]
    rw [length_addresses]
  exact rwLoop_carried st hop hend (by omega) (Nat.zero_le _) hfile (by omega) (by omega) hcur rfl
    rfl hs

end Rule

end TorrentApp.Torrent
