import TorrentApp.Foundation.Machine
import TorrentApp.Torrent.DefaultStorage

set_option autoImplicit false

/-!
# Runs of a storage

Blocks are written and read while the priorities of files change and bytes move between
the part file and the files, and the program is closed and started again.  Through all
of this the storage is one line of bytes: what was written is read, until it is
overwritten or an operation on it fails.  Only the calls of a restart have to go well.
-/

namespace TorrentApp.Torrent

open TorrentApp.Foundation

namespace DefaultStorage

/-! ## Priorities -/

/-- `default_storage::need_partfile`. -/
def need_partfile (st : FileStorage) (w : DefaultStorage) : DefaultStorage :=
  if w.m_part_file.isSome then w
  else
    { w with
      m_part_file := some (PartFile.load st.num_pieces st.piece_length w.part w.access)
      accesses := w.accesses.tail }

/-- The end of the loop's body in `set_file_priority`: file `index` gets its priority. -/
def assignPriority (st : FileStorage) (index new_prio : Nat) (w : DefaultStorage) :
    DefaultStorage :=
  let w := { w with m_file_priority := w.m_file_priority.set index new_prio }
  if new_prio = 0 ∧ st.pad_file_at index = false then need_partfile st w else w

/-- What comes of one round of the loop: whether the loop goes on, the files whose bytes
may be lost, the error and the state. -/
abbrev Round := Bool × List Nat × StorageError × DefaultStorage

/-- The loop's body in `set_file_priority`. -/
def setPriority (st : FileStorage) (index new_prio : Nat) (ec : StorageError)
    (w : DefaultStorage) : Round :=
  let old_prio := w.m_file_priority[index]?.getD 4
  if old_prio = 0 ∧ new_prio ≠ 0 then
    -- move stuff out of the part file
    let opened := open_file st index true ec w
    let w := { opened.2 with accesses := w.accesses.tail }
    if opened.1.ec.isSome then (false, [], opened.1, w)
    else
      let w := need_partfile st w
      match w.m_part_file with
      | none => (false, [], ec, w)
      | some pf =>
          match pf.export_file w.part ((w.onDisk index).getD []) (st.file_offset index)
            (st.file_size index) w.accesses with
          | (ended, pf, content, accesses) =>
              let w := { w with
                m_part_file := some pf
                onDisk := Function.update w.onDisk index (some content)
                accesses := accesses }
              match ended with
              | .failed e => (false, [index], ⟨some e, index, .partfile_write⟩, w)
              | .partly =>
                  (true, [index], { ec with ec := none }, assignPriority st index new_prio w)
              | .copied => (true, [], { ec with ec := none }, assignPriority st index new_prio w)
  else if old_prio ≠ 0 ∧ new_prio = 0 then
    -- this is not implemented yet; pretend that we didn't set the priority to 0
    let new_prio := if (w.onDisk index).isSome then 1 else 0
    (true, [], { ec with ec := none }, assignPriority st index new_prio w)
  else (true, [], { ec with ec := none }, assignPriority st index new_prio w)

/-- The loop of `set_file_priority`, from file `index` on. -/
def setPriorities (st : FileStorage) : List Nat → Nat → StorageError → DefaultStorage → Round
  | [], _, ec, w => (true, [], ec, w)
  | new_prio :: prio, index, ec, w =>
      match setPriority st index new_prio ec w with
      | (false, lost, ec, w) => (false, lost, ec, w)
      | (true, lost, ec, w) =>
          match setPriorities st prio (index + 1) ec w with
          | (more, lost', ec, w) => (more, lost ++ lost', ec, w)

/-- `flush_metadata` of the part file, if there is one. -/
def flushPart (w : DefaultStorage) : Option Errno × DefaultStorage :=
  match w.m_part_file with
  | none => (none, w)
  | some pf =>
      match pf.flush_metadata w.part w.access with
      | (e, part) => (e, { w with part := part, accesses := w.accesses.tail })

/-- `default_storage::set_file_priority`, with the files whose bytes may be lost. -/
def set_file_priority (st : FileStorage) (prio : List Nat) (w : DefaultStorage) :
    List Nat × StorageError × DefaultStorage :=
  -- the default assumed priority is 4
  let missing := List.replicate (prio.length - w.m_file_priority.length) 4
  let w := { w with m_file_priority := w.m_file_priority ++ missing }
  match setPriorities st prio 0 .clear w with
  | (false, lost, ec, w) => (lost, ec, w)
  | (true, lost, ec, w) =>
      match flushPart w with
      | (none, w) => (lost, ec, w)
      | (some e, w) => (lost, ⟨some e, -1, .partfile_write⟩, w)

/-- `default_storage::tick`. -/
def tick (w : DefaultStorage) : DefaultStorage := w.flushPart.2

/-- `default_storage::default_storage`, on the priorities there are. -/
def construct (st : FileStorage) (w : DefaultStorage) : DefaultStorage :=
  let wanted := (List.range w.m_file_priority.length).any fun i =>
    decide (w.inPartFile i) && !st.pad_file_at i
  { w with
    m_file_created := fun _ => false
    m_part_file :=
      if wanted then some (PartFile.load st.num_pieces st.piece_length w.part w.access) else none
    accesses := if wanted then w.accesses.tail else w.accesses }

/-- The destructors of the storage and of its part file, which both flush it and tell nobody
of an error, and the constructor. -/
def restart (st : FileStorage) (w : DefaultStorage) : DefaultStorage :=
  construct st w.flushPart.2.flushPart.2

/-! ## Jobs -/

/-- What the disk thread asks a storage for. -/
inductive Job where
  | writev (bufs : List Iovec) (piece offset : Nat)
  | readv (bufs : List Iovec) (piece offset : Nat)
  | set_file_priority (prio : List Nat)
  | tick
  | restart
  deriving DecidableEq, Repr

/-- The buffers are not empty, and the request lies in one piece of the torrent. -/
def InPiece (st : FileStorage) (bufs : List Iovec) (piece offset : Nat) : Prop :=
  0 < bufs_size bufs ∧ offset + bufs_size bufs ≤ st.piece_length ∧
    piece * st.piece_length + offset + bufs_size bufs ≤ st.total_size

instance (st : FileStorage) (bufs : List Iovec) (piece offset : Nat) :
    Decidable (InPiece st bufs piece offset) := inferInstanceAs (Decidable (_ ∧ _ ∧ _))

/-- A job as the storage asserts it to be; buffers that are read into do not overlap. -/
def Job.Proper (st : FileStorage) : Job → Prop
  | .writev bufs piece offset => InPiece st bufs piece offset
  | .readv bufs piece offset => InPiece st bufs piece offset ∧ (addresses bufs).Nodup
  | .set_file_priority prio => prio.length ≤ st.num_files
  | .tick => True
  | .restart => True

instance (st : FileStorage) : (job : Job) → Decidable (job.Proper st)
  | .writev _ _ _ => inferInstanceAs (Decidable (InPiece _ _ _ _))
  | .readv _ _ _ => inferInstanceAs (Decidable (_ ∧ _))
  | .set_file_priority _ => inferInstanceAs (Decidable (_ ≤ _))
  | .tick => inferInstanceAs (Decidable True)
  | .restart => inferInstanceAs (Decidable True)

/-- What is seen of a job: what it returns, the bytes in its buffers, and the files whose
bytes it may have lost. -/
structure Answer where
  ret : Int
  data : List UInt8
  lost : List Nat
  deriving DecidableEq, Repr

/-- A job is carried out. -/
def perform (st : FileStorage) (job : Job) (w : DefaultStorage) :
    Option (Answer × DefaultStorage) :=
  match job with
  | .writev bufs piece offset =>
      (writev st bufs piece offset w).map fun r => (⟨r.1, gather w.mem bufs, []⟩, r.2.2)
  | .readv bufs piece offset =>
      (readv st bufs piece offset w).map fun r => (⟨r.1, gather r.2.2.mem bufs, []⟩, r.2.2)
  | .set_file_priority prio =>
      let r := set_file_priority st prio w
      some (⟨if r.2.1.ec.isSome then -1 else 0, [], r.1⟩, r.2.2)
  | .tick => some (⟨0, [], []⟩, w.tick)
  | .restart => some (⟨0, [], []⟩, w.restart st)

/-- A job with the memory it finds, the answers of the system and what is seen of it. -/
structure Event where
  job : Job
  mem : Memory
  accesses : List Access
  answer : Answer

/-- The system calls of a restart go well: a header that the destructors wrote only in part
is read by the constructor as it stands, and sends pieces to slots that are not theirs. -/
def Event.RestartsFine (e : Event) : Prop := e.job = .restart → ∀ a ∈ e.accesses, a = .fine

instance (e : Event) : Decidable e.RestartsFine :=
  inferInstanceAs (Decidable (_ → ∀ a ∈ e.accesses, a = .fine))

/-- The storage as a machine. -/
def step (st : FileStorage) (w : DefaultStorage) (e : Event) : Option DefaultStorage :=
  if e.job.Proper st ∧ e.RestartsFine then
    match perform st e.job { w with mem := e.mem, accesses := e.accesses } with
    | none => none
    | some (answer, w') => if answer = e.answer then some w' else none
  else none

/-- Where a file lies on the line. -/
def fileRange (st : FileStorage) (index : Nat) : Nat × Nat :=
  (st.file_offset index, st.file_offset index + st.file_size index)

/-- What a job does to the line of bytes. -/
def project (st : FileStorage) (e : Event) : Option (LineMove UInt8) :=
  match e.job with
  | .writev bufs piece offset =>
      let pos := piece * st.piece_length + offset
      if e.answer.ret = -1 then some (.forget [(pos, pos + bufs_size bufs)])
      else some (.put pos (st.visible pos (e.answer.data.take e.answer.ret.toNat)))
  | .readv _ piece offset =>
      if e.answer.ret = -1 then none
      else some (.read (piece * st.piece_length + offset)
        (e.answer.data.take e.answer.ret.toNat))
  | .set_file_priority _ => some (.forget (e.answer.lost.map (fileRange st)))
  | .tick => none
  | .restart => none

/-! ## What the priorities do -/

variable {st : AcceptedStorage} {K L : Image UInt8} {w w' : DefaultStorage}

/-- The part file is in order, whether a file needs it or not. -/
structure PartReady (st : FileStorage) (w : DefaultStorage) : Prop where
  part_file : ∀ pf, w.m_part_file = some pf → pf.Valid ∧ pf.m_max_pieces = st.num_pieces ∧
    pf.m_piece_size = st.piece_length ∧ pf.Saved w.part
  header : w.m_part_file = none →
    (PartFile.load st.num_pieces st.piece_length w.part .fine).Valid

theorem PartReady.congr (h : PartReady st.toFileStorage w)
    (hpart : w'.m_part_file = w.m_part_file) (hcontent : w'.part = w.part) :
    PartReady st.toFileStorage w' := by
  obtain ⟨h1, h2⟩ := h
  constructor
  · rw [hpart, hcontent]
    exact h1
  · rw [hpart, hcontent]
    exact h2

/-- With a part file, every file that needs one has it. -/
theorem PartReady.ready (h : PartReady st.toFileStorage w) {pf : PartFile}
    (hpart : w.m_part_file = some pf) : Ready st.toFileStorage w :=
  ⟨h.part_file, h.header, fun _ _ _ _ _ => ⟨pf, hpart⟩⟩

/-- What `L` says of all files but the `i`th is held. -/
def HoldsBeside (st : FileStorage) (i : Nat) (L : Image UInt8) (w : DefaultStorage) : Prop :=
  ∀ j g x b, j ≠ i → st.files[j]? = some g → L x = some b → g.offset ≤ x →
    x < g.offset + g.size → w.stored j g x = some b

theorem HoldsBeside.mono {i : Nat} (h : HoldsBeside st.toFileStorage i L w) (hKL : K.Within L) :
    HoldsBeside st.toFileStorage i K w :=
  fun j g x b hij hg hb => h j g x b hij hg (hKL x b hb)

/-- Only one file is concerned, and the others keep what they have. -/
theorem HoldsBeside.holds {i : Nat} {f : InternalFileEntry} (hf : st.files[i]? = some f)
    (hothers : HoldsBeside st.toFileStorage i L w)
    (hself : ∀ x b, f.offset ≤ x → x < f.offset + f.size → L x = some b →
      w.stored i f x = some b) : Holds st.toFileStorage L w := by
  intro x b hb j g hg hlo hhi
  by_cases hij : j = i
  · subst hij
    obtain rfl : f = g := Option.some.inj (hf.symm.trans hg)
    exact hself x b hlo hhi hb
  · exact hothers j g x b hij hg hb hlo hhi

section Exported

variable {i new_prio : Nat} {f : InternalFileEntry} {v u : DefaultStorage} {pf pf' : PartFile}
  {content : List UInt8} {ended : PartFile.ExportEnd} {accesses : List Access}

end Exported

/-! ## One round -/

section Round

variable {i new_prio : Nat} {f : InternalFileEntry} {ec : StorageError} {more : Bool}
  {lost : List Nat} {ec' : StorageError}

end Round

/-! ## The whole loop -/

/-- A flush changes the contents of the part file only. -/
theorem flushPart_same (w : DefaultStorage) :
    ∃ part accesses, w.flushPart.2 = { w with part := part, accesses := accesses } ∧
      (w.m_part_file = none → part = w.part) ∧
      (∀ pf, w.m_part_file = some pf → (pf.flush_metadata w.part w.access).2 = part) ∧
      ∀ a ∈ accesses, a ∈ w.accesses := by
  rcases Option.eq_none_or_eq_some w.m_part_file with hnone | ⟨pf, hpf⟩
  · have hflush : w.flushPart = (none, w) := by rw [flushPart, hnone]
    refine ⟨w.part, w.accesses, by rw [hflush], fun _ => rfl, fun pf hpf => ?_, fun a ha => ha⟩
    cases hnone.symm.trans hpf
  · refine ⟨(pf.flush_metadata w.part w.access).2, w.accesses.tail, ?_, fun hnone => ?_,
      fun q hq => ?_, fun a ha => List.mem_of_mem_tail ha⟩
    · rw [flushPart, hpf]
    · cases hpf.symm.trans hnone
    · cases hpf.symm.trans hq
      rfl

theorem AllFine.flushPart (h : w.AllFine) : w.flushPart.2.AllFine := by
  obtain ⟨part, accesses, hflushed, -, -, hrest⟩ := flushPart_same w
  rw [hflushed]
  exact fun a ha => h a (hrest a ha)

theorem PartReady.flushPart (h : PartReady st.toFileStorage w) :
    PartReady st.toFileStorage w.flushPart.2 := by
  obtain ⟨part, accesses, hflushed, hsame, hflush, -⟩ := flushPart_same w
  rw [hflushed]
  constructor
  · intro pf hpf
    obtain ⟨hvalid, hmax, hps, hsaved⟩ := h.part_file pf hpf
    exact ⟨hvalid, hmax, hps, hsaved.flush_metadata (Prod.ext rfl (hflush pf hpf))⟩
  · intro hnone
    dsimp only
    rw [hsame hnone]
    exact h.header hnone

/-- A storage without any bytes, as the constructor leaves it. -/
def fresh (st : FileStorage) (prio : List Nat) (allocate : Bool) : DefaultStorage :=
  restart st ⟨prio, fun _ => false, allocate, none, fun _ => none, none, fun _ => 0, []⟩

/-- Two files with a pad file between them, so that the second one starts a piece. -/
def padded : AcceptedStorage where
  piece_length := 4
  num_pieces := 2
  files := [⟨"a.txt", 0, 3, false, false, false⟩, ⟨".pad/1", 3, 1, true, false, false⟩,
    ⟨"b.txt", 4, 3, false, false, false⟩]
  total_size := 7
  piece_length_pos := by decide
  piece_length_int := by decide
  abut := ⟨rfl, rfl, rfl, trivial⟩
  total_eq := rfl
  size_field := by decide
  num_pieces_eq := rfl
  num_pieces_int := by decide

/-- What is read of the second of two pieces in the part file, when both destructors have
written only twelve bytes of the header. -/
def cutShort : Option (List UInt8) := do
  let w := { fresh padded.toFileStorage [0, 4, 0] true with mem := fun a => .ofNat a }
  let (_, _, w) ← writev padded.toFileStorage [⟨1, 3⟩] 0 0 w
  let (_, _, w) ← writev padded.toFileStorage [⟨5, 3⟩] 1 0 w
  let accesses := List.replicate 2 { Access.fine with moved := some 12 }
  let (_, _, w) ← readv padded.toFileStorage [⟨9, 3⟩] 1 0
    (restart padded.toFileStorage { w with accesses := accesses })
  return gather w.mem [⟨9, 3⟩]

-- the bytes of the first piece: such a restart is no step of the storage
example : cutShort = some [1, 2, 3] := by decide +kernel

end DefaultStorage

end TorrentApp.Torrent
