import TorrentApp.Torrent.ReadWrite

set_option autoImplicit false

/-!
# `default_storage`

Pad files are not stored, files of priority 0 go into the part file, and all others lie
on the disk under their own names.  What the storage holds is a partial line of bytes,
and each operation is described by what it does to that line.
-/

namespace TorrentApp.Torrent

open TorrentApp.Foundation

/-! ## The state -/

/-- A `default_storage` with the files it is kept in, the memory of its callers, and the
answers that the system still has to give. -/
structure DefaultStorage where
  m_file_priority : List Nat
  m_file_created : Nat → Bool
  m_allocate_files : Bool
  m_part_file : Option PartFile
  /-- the contents of the files, by their index -/
  onDisk : Nat → Option (List UInt8)
  /-- the contents of the part file -/
  part : Option (List UInt8)
  mem : Memory
  accesses : List Access

namespace DefaultStorage

/-- The answer to the next access; when none is left, all goes well. -/
def access (w : DefaultStorage) : Access := w.accesses.headD .fine

/-- The files of priority 0. -/
def inPartFile (w : DefaultStorage) (index : Nat) : Prop := w.m_file_priority[index]? = some 0

instance (w : DefaultStorage) (index : Nat) : Decidable (w.inPartFile index) :=
  inferInstanceAs (Decidable (_ = _))

/-- Why a file is not opened, and by which operation. -/
def openFailure (w : DefaultStorage) (index : Nat) (read_write : Bool) :
    Option (Errno × Operation) :=
  if read_write then
    match w.access.opened with
    | none => none
    | some .no_such_file_or_directory =>
        -- the directory the file is in doesn't exist, so create it
        match w.access.mkdir with
        | some e => some (e, .mkdir)
        | none => w.access.reopened.map fun e => (e, .open)
    | some e => some (e, .open)
  else
    match w.access.opened, w.onDisk index with
    | some e, _ => some (e, .open)
    | none, none => some (.no_such_file_or_directory, .open)
    | none, some _ => none

/-- `default_storage::open_file`; the answers to it are taken from the next access. -/
def open_file (st : FileStorage) (index : Nat) (read_write : Bool) (ec : StorageError)
    (w : DefaultStorage) : StorageError × DefaultStorage :=
  match w.openFailure index read_write with
  | some (e, operation) => (⟨some e, index, operation⟩, w)
  | none =>
      if read_write = false then (ec, w)
      else
        let content := (w.onDisk index).getD []
        if w.m_allocate_files && !w.m_file_created index then
          let m_file_created := Function.update w.m_file_created index true
          let sized := Function.update w.onDisk index
            (some (resize 0 content (st.file_size index)))
          let unsized := Function.update w.onDisk index (some content)
          match w.access.sized with
          | none => (ec, { w with m_file_created := m_file_created, onDisk := sized })
          | some (resized, e) =>
              (⟨some e, index, .fallocate⟩, { w with
                m_file_created := m_file_created
                onDisk := if resized then sized else unsized })
        else (ec, { w with onDisk := Function.update w.onDisk index (some content) })

/-! ## `write_fileop` and `read_fileop` -/

/-- `write_fileop::file_op`. -/
def write_fileop (st : FileStorage) : Fileop DefaultStorage :=
  fun file_index file_offset size bufs ec w =>
    -- writing to a pad-file is a no-op
    if st.pad_file_at file_index then some (size, ec, w)
    else
      let block := gather w.mem (bufs.take (count_bufs bufs size))
      if w.inPartFile file_index then
        match w.m_part_file with
        | none => none
        | some pf =>
            let map := st.map_file file_index file_offset 0
            match pf.writev w.part block map.piece.toNat map.start.toNat w.access with
            | (ret, pf, part) =>
                let w := { w with
                  m_part_file := some pf, part := part, accesses := w.accesses.tail }
                match ret with
                | .error e => some (-1, ⟨some e, file_index, .partfile_write⟩, w)
                | .ok n => some (n, ec, w)
      else
        let opened := open_file st file_index true ec w
        if opened.1.ec.isSome then
          some (-1, opened.1, { opened.2 with accesses := w.accesses.tail })
        else
          match pwrite ((opened.2.onDisk file_index).getD []) file_offset block w.access with
          | (ret, content) =>
              let w := { opened.2 with
                onDisk := Function.update opened.2.onDisk file_index (some content)
                accesses := w.accesses.tail }
              match ret with
              | .error e => some (-1, ⟨some e, file_index, .write⟩, w)
              | .ok n => some (n, { opened.1 with operation := .write }, w)

/-- `read_fileop::file_op`. -/
def read_fileop (st : FileStorage) : Fileop DefaultStorage :=
  fun file_index file_offset size bufs ec w =>
    let bufs := bufs.take (count_bufs bufs size)
    -- reading from a pad file yields zeroes
    if st.pad_file_at file_index then some (size, ec, { w with mem := clear_bufs w.mem bufs })
    else if w.inPartFile file_index then
      match w.m_part_file with
      | none => none
      | some pf =>
          let map := st.map_file file_index file_offset 0
          match pf.readv w.part (bufs_size bufs) map.piece.toNat map.start.toNat w.access with
          | (ret, block, part) =>
              let w := { w with
                part := part
                mem := store w.mem (addresses bufs) block
                accesses := w.accesses.tail }
              match ret with
              | .error e => some (-1, ⟨some e, file_index, .partfile_read⟩, w)
              | .ok n => some (n, ec, w)
    else
      let opened := open_file st file_index false ec w
      if opened.1.ec.isSome then
        some (-1, opened.1, { opened.2 with accesses := w.accesses.tail })
      else
        match pread ((opened.2.onDisk file_index).getD []) file_offset (bufs_size bufs)
          w.access with
        | (ret, block) =>
            let w := { opened.2 with
              mem := store w.mem (addresses bufs) block
              accesses := w.accesses.tail }
            match ret with
            | .error e => some (-1, ⟨some e, file_index, .read⟩, w)
            | .ok n => some (n, { opened.1 with operation := .read }, w)

/-- `default_storage::writev`. -/
def writev (st : FileStorage) (bufs : List Iovec) (piece offset : Nat) (w : DefaultStorage) :
    Option (Int × StorageError × DefaultStorage) :=
  readwritev st bufs piece offset (write_fileop st) .clear w

/-- `default_storage::readv`. -/
def readv (st : FileStorage) (bufs : List Iovec) (piece offset : Nat) (w : DefaultStorage) :
    Option (Int × StorageError × DefaultStorage) :=
  readwritev st bufs piece offset (read_fileop st) .clear w

/-! ## What the storage holds -/

/-- The byte that the storage holds at a place of file `f`. -/
def stored (w : DefaultStorage) (index : Nat) (f : InternalFileEntry) (x : Nat) : Option UInt8 :=
  if f.pad_file then some 0
  else if w.inPartFile index then w.m_part_file.bind fun pf => pf.image w.part x
  else (w.onDisk index).bind fun content => content[x - f.offset]?

/-- The storage holds the bytes of `K`. -/
def Holds (st : FileStorage) (K : Image UInt8) (w : DefaultStorage) : Prop :=
  ∀ x b, K x = some b → ∀ i f, st.files[i]? = some f → f.offset ≤ x → x < f.offset + f.size →
    w.stored i f x = some b

/-- The part file is in order, and it is there when a file needs it. -/
structure Ready (st : FileStorage) (w : DefaultStorage) : Prop where
  part_file : ∀ pf, w.m_part_file = some pf → pf.Valid ∧ pf.m_max_pieces = st.num_pieces ∧
    pf.m_piece_size = st.piece_length ∧ pf.Saved w.part
  header : w.m_part_file = none →
    (PartFile.load st.num_pieces st.piece_length w.part .fine).Valid
  needed : ∀ i f, st.files[i]? = some f → w.inPartFile i → f.pad_file = false →
    ∃ pf, w.m_part_file = some pf

variable {st : AcceptedStorage} {K L : Image UInt8} {w w' : DefaultStorage}

theorem Holds.mono (h : Holds st.toFileStorage L w) (hKL : K.Within L) :
    Holds st.toFileStorage K w :=
  fun x b hb => h x b (hKL x b hb)

/-- What the operations do not touch. -/
theorem Holds.congr (h : Holds st.toFileStorage K w)
    (hpriority : w'.m_file_priority = w.m_file_priority)
    (hpart : w'.m_part_file = w.m_part_file) (hcontent : w'.part = w.part)
    (hdisk : w'.onDisk = w.onDisk) : Holds st.toFileStorage K w' := by
  intro x b hb i f hf hlo hhi
  have hold := h x b hb i f hf hlo hhi
  simp only [stored, inPartFile, hpriority, hpart, hcontent, hdisk] at hold ⊢
  exact hold

theorem Ready.congr (h : Ready st.toFileStorage w)
    (hpriority : w'.m_file_priority = w.m_file_priority)
    (hpart : w'.m_part_file = w.m_part_file) (hcontent : w'.part = w.part) :
    Ready st.toFileStorage w' := by
  obtain ⟨h1, h2, h3⟩ := h
  constructor
  · rw [hpart, hcontent]
    exact h1
  · rw [hpart, hcontent]
    exact h2
  · simp only [inPartFile, hpriority, hpart]
    exact h3

/-- A part file in order is all that the files need. -/
theorem Ready.of_part_file {pf : PartFile} (hpart : w.m_part_file = some pf)
    (hpf : pf.Valid ∧ pf.m_max_pieces = st.num_pieces ∧ pf.m_piece_size = st.piece_length ∧
      pf.Saved w.part) : Ready st.toFileStorage w := by
  constructor
  · intro q hq
    cases hpart.symm.trans hq
    exact hpf
  · intro hnone
    cases hpart.symm.trans hnone
  · exact fun _ _ _ _ _ => ⟨pf, hpart⟩

/-- The files of which a place may be part are one file. -/
theorem file_unique {i j x : Nat} {f g : InternalFileEntry} (hf : st.files[i]? = some f)
    (hg : st.files[j]? = some g) (hfx : f.offset ≤ x ∧ x < f.offset + f.size)
    (hgx : g.offset ≤ x ∧ x < g.offset + g.size) : i = j :=
  st.abut.unique hf hg hfx hgx

theorem stored_pad {i x : Nat} {f : InternalFileEntry} (hpad : f.pad_file = true) :
    w.stored i f x = some 0 := by
  rw [stored, hpad, if_pos rfl]

theorem stored_part {i x : Nat} {f : InternalFileEntry} (hpad : f.pad_file = false)
    (hin : w.inPartFile i) :
    w.stored i f x = w.m_part_file.bind fun pf => pf.image w.part x := by
  rw [stored, hpad, if_neg Bool.false_ne_true, if_pos hin]

theorem stored_file {i x : Nat} {f : InternalFileEntry} (hpad : f.pad_file = false)
    (hnot : ¬w.inPartFile i) :
    w.stored i f x = (w.onDisk i).bind fun content => content[x - f.offset]? := by
  rw [stored, hpad, if_neg Bool.false_ne_true, if_neg hnot]

/-- A file gets other contents that keep the bytes it had. -/
theorem Holds.keep_file {i : Nat} {f : InternalFileEntry} {content : List UInt8}
    (h : Holds st.toFileStorage K w) (hf : st.files[i]? = some f)
    (hpriority : w'.m_file_priority = w.m_file_priority)
    (hpart : w'.m_part_file = w.m_part_file) (hpartContent : w'.part = w.part)
    (hdisk : w'.onDisk = Function.update w.onDisk i (some content))
    (hkeep : ∀ old, w.onDisk i = some old → ∀ k b, k < f.size → old[k]? = some b →
      content[k]? = some b) : Holds st.toFileStorage K w' := by
  intro x b hb j g hg hlo hhi
  have hold := h x b hb j g hg hlo hhi
  by_cases hij : j = i
  · subst hij
    obtain rfl : f = g := Option.some.inj (hf.symm.trans hg)
    have hin' : w'.inPartFile j ↔ w.inPartFile j := by rw [inPartFile, hpriority, inPartFile]
    cases hpad : f.pad_file with
    | true => rwa [stored_pad hpad] at hold ⊢
    | false =>
      by_cases hin : w.inPartFile j
      · rw [stored_part hpad hin] at hold
        rw [stored_part hpad (hin'.mpr hin), hpart, hpartContent]
        exact hold
      · rw [stored_file hpad hin] at hold
        rw [stored_file hpad (fun h => hin (hin'.mp h)), hdisk, Function.update_self]
        obtain ⟨old, hcontent, hbyte⟩ := Option.bind_eq_some_iff.mp hold
        exact hkeep old hcontent _ b (by omega) hbyte
  · simp only [stored, inPartFile, hpriority, hpart, hpartContent, hdisk,
      Function.update_of_ne hij] at hold ⊢
    exact hold

/-- A block is written to a file of its own. -/
theorem Holds.put_file {i pos : Nat} {f : InternalFileEntry} {old block : List UInt8}
    (h : Holds st.toFileStorage K w) (hf : st.files[i]? = some f)
    (hpad : f.pad_file = false) (hlo : f.offset ≤ pos)
    (hhi : pos + block.length ≤ f.offset + f.size) (hnot : ¬w.inPartFile i)
    (hold : w.onDisk i = some old) (hpriority : w'.m_file_priority = w.m_file_priority)
    (hpart : w'.m_part_file = w.m_part_file) (hpartContent : w'.part = w.part)
    (hdisk : w'.onDisk = Function.update w.onDisk i (some (written old (pos - f.offset) block))) :
    Holds st.toFileStorage (K.put pos block) w' := by
  intro x b hb j g hg hglo hghi
  have hnot' : ¬w'.inPartFile i := by
    rw [inPartFile, hpriority]
    exact hnot
  by_cases hinside : pos ≤ x ∧ x < pos + block.length
  · have hij := file_unique hf hg ⟨by omega, by omega⟩ ⟨hglo, hghi⟩
    subst hij
    obtain rfl : f = g := Option.some.inj (hf.symm.trans hg)
    rw [Image.put_inside hinside.1 hinside.2] at hb
    rw [stored_file hpad hnot', hdisk, Function.update_self, Option.bind_some,
      getElem?_written_inside (by omega) (by omega), ← hb]
    congr 1
    omega
  · rw [Image.put_outside (by omega)] at hb
    have hbefore := h x b hb j g hg hglo hghi
    by_cases hij : j = i
    · subst hij
      obtain rfl : f = g := Option.some.inj (hf.symm.trans hg)
      rw [stored_file hpad hnot, hold, Option.bind_some] at hbefore
      rw [stored_file hpad hnot', hdisk, Function.update_self, Option.bind_some]
      exact getElem?_written_outside hbefore (by omega)
    · simp only [stored, inPartFile, hpriority, hpart, hpartContent, hdisk,
        Function.update_of_ne hij] at hbefore ⊢
      exact hbefore

/-- A block is put into the part file, which keeps all else that it holds. -/
theorem Holds.put_part {i pos : Nat} {f : InternalFileEntry} {pf pf' : PartFile}
    {block : List UInt8} (h : Holds st.toFileStorage K w) (hf : st.files[i]? = some f)
    (hpad : f.pad_file = false) (hlo : f.offset ≤ pos)
    (hhi : pos + block.length ≤ f.offset + f.size) (hin : w.inPartFile i)
    (hpart : w.m_part_file = some pf)
    (hpriority : w'.m_file_priority = w.m_file_priority) (hpart' : w'.m_part_file = some pf')
    (hdisk : w'.onDisk = w.onDisk)
    (hput : ((pf.image w.part).put pos block).Within (pf'.image w'.part)) :
    Holds st.toFileStorage (K.put pos block) w' := by
  intro x b hb j g hg hglo hghi
  by_cases hinside : pos ≤ x ∧ x < pos + block.length
  · have hij := file_unique hf hg ⟨by omega, by omega⟩ ⟨hglo, hghi⟩
    subst hij
    obtain rfl : f = g := Option.some.inj (hf.symm.trans hg)
    have hin' : w'.inPartFile i := by
      rw [inPartFile, hpriority]
      exact hin
    rw [Image.put_inside hinside.1 hinside.2] at hb
    rw [stored_part hpad hin', hpart']
    exact hput x b ((Image.put_inside hinside.1 hinside.2).trans hb)
  · rw [Image.put_outside (by omega)] at hb
    have hold := h x b hb j g hg hglo hghi
    have hin' : w'.inPartFile j ↔ w.inPartFile j := by rw [inPartFile, hpriority, inPartFile]
    cases hgpad : g.pad_file with
    | true => rwa [stored_pad hgpad] at hold ⊢
    | false =>
      by_cases hgin : w.inPartFile j
      · rw [stored_part hgpad hgin, hpart] at hold
        rw [stored_part hgpad (hin'.mpr hgin), hpart']
        exact hput x b ((Image.put_outside (by omega)).trans hold)
      · rw [stored_file hgpad hgin] at hold
        rw [stored_file hgpad (fun h => hgin (hin'.mp h)), hdisk]
        exact hold

/-- A part file that keeps what it holds may be replaced. -/
theorem Holds.part_within {pf pf' : PartFile} (h : Holds st.toFileStorage K w)
    (hpart : w.m_part_file = some pf) (hpriority : w'.m_file_priority = w.m_file_priority)
    (hpart' : w'.m_part_file = some pf') (hdisk : w'.onDisk = w.onDisk)
    (hkept : (pf.image w.part).Within (pf'.image w'.part)) : Holds st.toFileStorage K w' := by
  intro x b hb j g hg hglo hghi
  have hold := h x b hb j g hg hglo hghi
  have hin' : w'.inPartFile j ↔ w.inPartFile j := by rw [inPartFile, hpriority, inPartFile]
  cases hgpad : g.pad_file with
  | true => rwa [stored_pad hgpad] at hold ⊢
  | false =>
    by_cases hgin : w.inPartFile j
    · rw [stored_part hgpad hgin, hpart] at hold
      rw [stored_part hgpad (hin'.mpr hgin), hpart']
      exact hkept x b hold
    · rw [stored_file hgpad hgin] at hold
      rw [stored_file hgpad (fun h => hgin (hin'.mp h)), hdisk]
      exact hold

/-! ## Opening a file -/

/-- Opening a file for writing keeps what is held, and without an error the file is there. -/
theorem open_file_spec {i : Nat} {f : InternalFileEntry} {read_write : Bool}
    {ec ec' : StorageError} (hf : st.files[i]? = some f)
    (hready : Ready st.toFileStorage w)
    (hopen : open_file st.toFileStorage i read_write ec w = (ec', w')) :
    w'.mem = w.mem ∧ w'.accesses = w.accesses ∧ w'.m_file_priority = w.m_file_priority ∧
      Ready st.toFileStorage w' ∧
      (∀ K, Holds st.toFileStorage K w → Holds st.toFileStorage K w') ∧
      (ec'.ec = none → ec' = ec ∧ ∃ content, w'.onDisk i = some content) := by
  have hsize : st.file_size i = f.size := by
    rw [FileStorage.file_size, hf]
    rfl
  have hupdate : ∀ (content : List UInt8) (created : Nat → Bool),
      (∀ old, w.onDisk i = some old → ∀ k b, k < f.size → old[k]? = some b →
        content[k]? = some b) →
      ∀ K, Holds st.toFileStorage K w → Holds st.toFileStorage K
        { w with
          m_file_created := created, onDisk := Function.update w.onDisk i (some content) } :=
    fun content created hkeep K hK => hK.keep_file hf rfl rfl rfl rfl hkeep
  have hsame : ∀ old, w.onDisk i = some old → ∀ k b, k < f.size → old[k]? = some b →
      ((w.onDisk i).getD [])[k]? = some b := by
    intro old hold k b _ hb
    rwa [hold]
  have hsized : ∀ old, w.onDisk i = some old → ∀ k b, k < f.size → old[k]? = some b →
      (resize 0 ((w.onDisk i).getD []) (st.file_size i))[k]? = some b := by
    intro old hold k b hk hb
    rw [hold, hsize]
    exact getElem?_resize hb hk
  rw [open_file] at hopen
  split at hopen
  · cases hopen
    exact ⟨rfl, rfl, rfl, hready, fun _ hK => hK, fun h => by cases h⟩
  · rename_i hopened
    split at hopen
    · rename_i hread
      cases hopen
      refine ⟨rfl, rfl, rfl, hready, fun _ hK => hK, fun _ => ⟨rfl, ?_⟩⟩
      rw [openFailure, hread, if_neg Bool.false_ne_true] at hopened
      split at hopened
      · cases hopened
      · cases hopened
      · rename_i content _ hcontent
        exact ⟨content, hcontent⟩
    · dsimp only at hopen
      split at hopen
      · split at hopen
        · cases hopen
          exact ⟨rfl, rfl, rfl, hready.congr rfl rfl rfl, hupdate _ _ hsized,
            fun _ => ⟨rfl, _, Function.update_self _ _ _⟩⟩
        · rename_i resized e _
          cases hopen
          refine ⟨rfl, rfl, rfl, hready.congr rfl rfl rfl, ?_, fun h => by cases h⟩
          cases resized with
          | true => exact hupdate _ _ hsized
          | false => exact hupdate _ _ hsame
      · cases hopen
        exact ⟨rfl, rfl, rfl, hready.congr rfl rfl rfl, hupdate _ _ hsame,
          fun _ => ⟨rfl, _, Function.update_self _ _ _⟩⟩

/-- Opening a file for reading changes nothing. -/
theorem open_file_read {i : Nat} {ec : StorageError} :
    ∃ ec', open_file st.toFileStorage i false ec w = (ec', w) := by
  rw [open_file]
  split
  · exact ⟨_, rfl⟩
  · exact ⟨ec, if_pos rfl⟩

/-- A file that is there is opened for reading, unless the system refuses. -/
theorem open_file_there {i : Nat} {ec : StorageError} {content : List UInt8}
    (hopened : w.access.opened = none) (hcontent : w.onDisk i = some content) :
    open_file st.toFileStorage i false ec w = (ec, w) := by
  have hnone : w.openFailure i false = none := by
    rw [openFailure, if_neg Bool.false_ne_true, hopened, hcontent]
  rw [open_file, hnone]
  dsimp only
  rw [if_pos rfl]

end DefaultStorage

/-! ## Pad files -/

/-- The places of pad files. -/
def FileStorage.padAt (st : FileStorage) (x : Nat) : Bool :=
  st.files.any fun f => f.pad_file && decide (f.offset ≤ x ∧ x < f.offset + f.size)

/-- A block as it is seen through the storage: pad files are zero. -/
def FileStorage.visible (st : FileStorage) (pos : Nat) (block : List UInt8) : List UInt8 :=
  block.mapIdx fun k b => if st.padAt (pos + k) then 0 else b

@[simp] theorem FileStorage.length_visible (st : FileStorage) (pos : Nat) (block : List UInt8) :
    (st.visible pos block).length = block.length := List.length_mapIdx

theorem FileStorage.visible_append (st : FileStorage) (pos : Nat) (xs ys : List UInt8) :
    st.visible pos (xs ++ ys) = st.visible pos xs ++ st.visible (pos + xs.length) ys := by
  rw [visible, List.mapIdx_append]
  refine congrArg (st.visible pos xs ++ ·) ?_
  rw [visible]
  refine congrFun (congrArg List.mapIdx ?_) ys
  funext k b
  rw [Nat.add_comm k, Nat.add_assoc]

namespace DefaultStorage

variable {st : AcceptedStorage} {K : Image UInt8} {w : DefaultStorage}

theorem padAt_eq {i x : Nat} {f : InternalFileEntry} (hf : st.files[i]? = some f)
    (hx : f.offset ≤ x ∧ x < f.offset + f.size) : st.padAt x = f.pad_file := by
  rw [Bool.eq_iff_iff, FileStorage.padAt, List.any_eq_true]
  constructor
  · rintro ⟨g, hg, hpad⟩
    rw [Bool.and_eq_true, decide_eq_true_iff] at hpad
    obtain ⟨j, hj⟩ := List.mem_iff_getElem?.mp hg
    have hij := file_unique hf hj hx hpad.2
    subst hij
    rw [Option.some.inj (hf.symm.trans hj)]
    exact hpad.1
  · intro hpad
    refine ⟨f, List.mem_of_getElem? hf, ?_⟩
    rw [hpad, Bool.true_and, decide_eq_true_iff]
    exact hx

/-- A block inside one file is seen whole or not at all. -/
theorem visible_in_file {i pos : Nat} {f : InternalFileEntry} {block : List UInt8}
    (hf : st.files[i]? = some f) (hlo : f.offset ≤ pos)
    (hhi : pos + block.length ≤ f.offset + f.size) :
    st.visible pos block = if f.pad_file then List.replicate block.length 0 else block := by
  apply List.ext_getElem?
  intro k
  rw [show st.visible pos block = block.mapIdx _ from rfl, List.getElem?_mapIdx]
  by_cases hk : k < block.length
  · rw [List.getElem?_eq_getElem hk, Option.map_some, padAt_eq hf ⟨by omega, by omega⟩]
    cases f.pad_file with
    | true => rw [if_pos rfl, if_pos rfl, List.getElem?_replicate_of_lt hk]
    | false =>
      rw [if_neg Bool.false_ne_true, if_neg Bool.false_ne_true, List.getElem?_eq_getElem hk]
  · have hnone : block[k]? = none := List.getElem?_eq_none (by omega)
    rw [hnone, Option.map_none]
    split
    · rw [List.getElem?_eq_none (by rw [List.length_replicate]; omega)]
    · rw [hnone]

/-! ## Shares of a request -/

section Share

variable {start size done i off left : Nat} {f : InternalFileEntry} {cur : List Iovec}
  {ec : StorageError}

theorem pad_file_at_share (h : Share st.toFileStorage start size done i off left f) :
    st.pad_file_at i = f.pad_file := by
  rw [FileStorage.pad_file_at, h.file]
  rfl

/-- The end of a share is not behind the end of the torrent. -/
theorem share_end_le (h : Share st.toFileStorage start size done i off left f) :
    start + done + left ≤ st.total_size := by
  obtain ⟨k, -, hget⟩ : ∃ k : Fin st.num_files, (k : Nat) = i ∧ st.files.get k = f := by
    obtain ⟨hlength, hget⟩ := List.getElem?_eq_some_iff.mp h.file
    exact ⟨⟨i, hlength⟩, rfl, hget⟩
  have hend := st.file_end_le k
  rw [hget] at hend
  have hplace := h.place
  have hinside := h.inside
  omega

/-- What `map_file` finds for a share. -/
theorem map_file_share (h : Share st.toFileStorage start size done i off left f) :
    (st.map_file i off 0).piece.toNat = (start + done) / st.piece_length ∧
      (st.map_file i off 0).start.toNat = (start + done) % st.piece_length := by
  obtain ⟨k, hk, hget⟩ : ∃ k : Fin st.num_files, (k : Nat) = i ∧ st.files.get k = f := by
    obtain ⟨hlength, hget⟩ := List.getElem?_eq_some_iff.mp h.file
    exact ⟨⟨i, hlength⟩, rfl, hget⟩
  have hend := share_end_le h
  have hplace := h.place
  have hpos := h.pos
  have hmap := st.map_file_inside k off 0 (by rw [hget]; omega)
  rw [hk, hget, Nat.add_comm off, hplace] at hmap
  rw [hmap]
  exact ⟨Int.toNat_natCast _, Int.toNat_natCast _⟩

/-- A first part of the bytes for a share is seen whole, or the share is of a pad file. -/
theorem visible_share (h : Share st.toFileStorage start size done i off left f) {n : Nat}
    {block : List UInt8} (hn : n ≤ left) (hblock : n ≤ block.length) :
    st.visible (start + done) (block.take n) =
      if f.pad_file then List.replicate n 0 else block.take n := by
  have hplace := h.place
  have hinside := h.inside
  have hlength : (block.take n).length = n := List.length_take_of_le hblock
  rw [visible_in_file h.file (by omega) (by omega), hlength]

/-- What is held of a share is stored in its file. -/
theorem Holds.stored_share (hK : Holds st.toFileStorage K w)
    (h : Share st.toFileStorage start size done i off left f) {k : Nat} {c : UInt8} (hk : k < left)
    (hc : K (start + done + k) = some c) : w.stored i f (start + done + k) = some c := by
  have hplace := h.place
  have hinside := h.inside
  exact hK _ c hc i f h.file (by omega) (by omega)

/-- What is held of a file of priority 0 is in the part file. -/
theorem Holds.part_share {pf : PartFile} (hK : Holds st.toFileStorage K w)
    (h : Share st.toFileStorage start size done i off left f) (hf : f.pad_file = false)
    (hin : w.inPartFile i) (hpf : w.m_part_file = some pf) {k : Nat} {c : UInt8} (hk : k < left)
    (hc : K (start + done + k) = some c) : pf.image w.part (start + done + k) = some c := by
  have hstored := hK.stored_share h hk hc
  rwa [stored_part hf hin, hpf] at hstored

/-- What is held of any other file is in the file. -/
theorem Holds.file_share (hK : Holds st.toFileStorage K w)
    (h : Share st.toFileStorage start size done i off left f) (hf : f.pad_file = false)
    (hnot : ¬w.inPartFile i) {k : Nat} {c : UInt8} (hk : k < left)
    (hc : K (start + done + k) = some c) :
    ∃ content, w.onDisk i = some content ∧ content[off + k]? = some c := by
  have hplace := h.place
  have hstored := hK.stored_share h hk hc
  rw [stored_file hf hnot] at hstored
  obtain ⟨content, hcontent, hbyte⟩ := Option.bind_eq_some_iff.mp hstored
  rw [show start + done + k - f.offset = off + k by omega] at hbyte
  exact ⟨content, hcontent, hbyte⟩

/-! ## Writing -/

/-- What one call of `write_fileop` does: a first part of `block` is written, and without
an error it is as long as the answer says. -/
structure WriteCall (st : AcceptedStorage) (K : Image UInt8) (pos left : Nat)
    (block : List UInt8) (w : DefaultStorage) (bt : Int) (ec : StorageError)
    (w' : DefaultStorage) : Prop where
  mem : w'.mem = w.mem
  ready : Ready st.toFileStorage w'
  put : ∃ n ≤ left, (ec.ec = none → bt = n) ∧
    Holds st.toFileStorage (K.put pos (st.visible pos (block.take n))) w'

/-- A write to a pad file is a no-op, and nothing else is ever seen of it. -/
theorem write_fileop_pad (hshare : Share st.toFileStorage start size done i off left f)
    (hcur : left ≤ bufs_size cur) (hready : Ready st.toFileStorage w)
    (hK : Holds st.toFileStorage K w) (hf : f.pad_file = true) :
    ∃ bt ec' w', write_fileop st.toFileStorage i off left (copy_bufs cur left) ec w =
        some (bt, ec', w') ∧
      WriteCall st K (start + done) left (gather w.mem cur) w bt ec' w' := by
  have hplace := hshare.place
  have hinside := hshare.inside
  rw [write_fileop, pad_file_at_share hshare, hf, if_pos rfl]
  refine ⟨_, _, _, rfl, rfl, hready, left, le_rfl, fun _ => rfl, ?_⟩
  rw [visible_share hshare le_rfl (hcur.trans_eq (length_gather w.mem cur).symm), hf, if_pos rfl]
  intro x b hb j g hg hlo hhi
  by_cases hx : start + done ≤ x ∧ x < start + done + left
  · have hij := file_unique hshare.file hg ⟨by omega, by omega⟩ ⟨hlo, hhi⟩
    subst hij
    obtain rfl : f = g := Option.some.inj (hshare.file.symm.trans hg)
    rw [Image.put_inside hx.1 (by rw [List.length_replicate]; exact hx.2),
      List.getElem?_replicate_of_lt (by omega)] at hb
    rw [stored_pad hf, ← hb]
  · rw [Image.put_outside (by rw [List.length_replicate]; omega)] at hb
    exact hK x b hb j g hg hlo hhi

/-- A write to a file of priority 0 goes to the part file. -/
theorem write_fileop_part (hshare : Share st.toFileStorage start size done i off left f)
    (hpiece : (start + done) % st.piece_length + left ≤ st.piece_length)
    (hcur : left ≤ bufs_size cur) (hready : Ready st.toFileStorage w)
    (hK : Holds st.toFileStorage K w) (hf : f.pad_file = false) (hin : w.inPartFile i) :
    ∃ bt ec' w', write_fileop st.toFileStorage i off left (copy_bufs cur left) ec w =
        some (bt, ec', w') ∧
      WriteCall st K (start + done) left (gather w.mem cur) w bt ec' w' := by
  have hplace := hshare.place
  have hinside := hshare.inside
  have hgather : (gather w.mem cur).length = bufs_size cur := length_gather w.mem cur
  have hblock : ((gather w.mem cur).take left).length = left := List.length_take_of_le (by omega)
  obtain ⟨pf, hpf⟩ := hready.needed i f hshare.file hin hf
  obtain ⟨hvalid, hmax, hps, hsaved⟩ := hready.part_file pf hpf
  obtain ⟨hmapPiece, hmapStart⟩ := map_file_share hshare
  rw [write_fileop, pad_file_at_share hshare, hf, if_neg Bool.false_ne_true,
    take_count_bufs_copy_bufs cur hshare.pos, gather_copy_bufs w.mem hcur]
  dsimp only
  rw [if_pos hin, hpf]
  dsimp only
  rw [hmapPiece, hmapStart]
  obtain ⟨⟨ret, pf', part'⟩, hwrite⟩ : ∃ r, pf.writev w.part ((gather w.mem cur).take left)
    ((start + done) / st.piece_length) ((start + done) % st.piece_length) w.access = r :=
    ⟨_, rfl⟩
  rw [hwrite]
  have hlast : (start + done) / st.piece_length < pf.m_max_pieces := by
    rw [hmax]
    apply st.div_lt_num_pieces
    have hend := share_end_le hshare
    have hpos := hshare.pos
    omega
  have hroom : (start + done) % st.piece_length + ((gather w.mem cur).take left).length ≤
      pf.m_piece_size := by
    rw [hblock, hps]
    exact hpiece
  obtain ⟨hvalid', ⟨hmax', hps', -⟩, n, hn, hret, hput⟩ :=
    PartFile.writev_spec hvalid hlast hroom hwrite
  rw [hblock] at hn
  rw [List.take_take, Nat.min_eq_left hn, hps, Nat.div_add_mod'] at hput
  have hready' : ∀ v : DefaultStorage, v.m_part_file = some pf' → v.part = part' →
      Ready st.toFileStorage v := fun v hpart hpart' => Ready.of_part_file hpart
    ⟨hvalid', hmax'.trans hmax, hps'.trans hps, hpart' ▸ hsaved.writev hvalid hwrite⟩
  have hholds : ∀ v : DefaultStorage, v.m_file_priority = w.m_file_priority →
      v.m_part_file = some pf' → v.part = part' → v.onDisk = w.onDisk →
      Holds st.toFileStorage (K.put (start + done)
        (st.visible (start + done) ((gather w.mem cur).take n))) v := by
    intro v hpriority hpart hpart' hdisk
    rw [visible_share hshare hn (by omega), hf, if_neg Bool.false_ne_true]
    have hlength : ((gather w.mem cur).take n).length = n := List.length_take_of_le (by omega)
    refine hK.put_part hshare.file hf (by omega) (by omega) hin hpf hpriority hpart hdisk ?_
    rw [hpart']
    exact hput
  cases ret with
  | error e =>
    exact ⟨_, _, _, rfl, rfl, hready' _ rfl rfl, n, hn, fun h => (by cases h),
      hholds _ rfl rfl rfl rfl⟩
  | ok m =>
    refine ⟨_, _, _, rfl, rfl, hready' _ rfl rfl, n, hn, fun _ => ?_, hholds _ rfl rfl rfl rfl⟩
    rw [hret m rfl]

/-- A write to any other file opens it and writes behind `off`. -/
theorem write_fileop_file (hshare : Share st.toFileStorage start size done i off left f)
    (hcur : left ≤ bufs_size cur) (hready : Ready st.toFileStorage w)
    (hK : Holds st.toFileStorage K w) (hf : f.pad_file = false) (hnot : ¬w.inPartFile i) :
    ∃ bt ec' w', write_fileop st.toFileStorage i off left (copy_bufs cur left) ec w =
        some (bt, ec', w') ∧
      WriteCall st K (start + done) left (gather w.mem cur) w bt ec' w' := by
  have hplace := hshare.place
  have hinside := hshare.inside
  have hgather : (gather w.mem cur).length = bufs_size cur := length_gather w.mem cur
  obtain ⟨⟨ec1, w1⟩, hopen⟩ : ∃ r, open_file st.toFileStorage i true ec w = r := ⟨_, rfl⟩
  obtain ⟨hmem, -, hpriority, hready1, hholds1, hok⟩ := open_file_spec hshare.file hready hopen
  rw [write_fileop, pad_file_at_share hshare, hf, if_neg Bool.false_ne_true,
    take_count_bufs_copy_bufs cur hshare.pos, gather_copy_bufs w.mem hcur]
  dsimp only
  rw [if_neg hnot, hopen]
  dsimp only
  split
  · rename_i hbad
    refine ⟨_, _, _, rfl, hmem, hready1.congr rfl rfl rfl, 0, Nat.zero_le _, ?_, ?_⟩
    · intro hnone
      rw [hnone] at hbad
      cases hbad
    · rw [List.take_zero, show st.visible (start + done) [] = [] from rfl, Image.put_nil]
      exact (hholds1 K hK).congr rfl rfl rfl rfl
  · rename_i hgood
    obtain ⟨rfl, content, hcontent⟩ := hok (Option.not_isSome_iff_eq_none.mp hgood)
    obtain ⟨⟨ret, content'⟩, hwrite⟩ : ∃ r, pwrite ((w1.onDisk i).getD []) off
      ((gather w.mem cur).take left) w.access = r := ⟨_, rfl⟩
    rw [hwrite]
    obtain ⟨n, hn, hwritten, hret⟩ := pwrite_spec hwrite
    rw [List.length_take_of_le (by omega)] at hn
    rw [List.take_take, Nat.min_eq_left hn, hcontent, Option.getD_some] at hwritten
    have hholds : ∀ v : DefaultStorage, v.m_file_priority = w1.m_file_priority →
        v.m_part_file = w1.m_part_file → v.part = w1.part →
        v.onDisk = Function.update w1.onDisk i (some content') →
        Holds st.toFileStorage (K.put (start + done)
          (st.visible (start + done) ((gather w.mem cur).take n))) v := by
      intro v hvpriority hvpart hvcontent hdisk
      rw [visible_share hshare hn (by omega), hf, if_neg Bool.false_ne_true]
      have hlength : ((gather w.mem cur).take n).length = n := List.length_take_of_le (by omega)
      have hnot1 : ¬w1.inPartFile i := by
        rw [inPartFile, hpriority]
        exact hnot
      refine (hholds1 K hK).put_file hshare.file hf (by omega) (by omega) hnot1 hcontent
        hvpriority hvpart hvcontent ?_
      rw [hdisk, hwritten, show start + done - f.offset = off by omega]
    cases ret with
    | error e =>
      exact ⟨_, _, _, rfl, hmem, hready1.congr rfl rfl rfl, n, hn, fun h => (by cases h),
        hholds _ rfl rfl rfl rfl⟩
    | ok m =>
      refine ⟨_, _, _, rfl, hmem, hready1.congr rfl rfl rfl, n, hn, fun _ => ?_,
        hholds _ rfl rfl rfl rfl⟩
      rw [hret m rfl]

theorem write_fileop_spec (hshare : Share st.toFileStorage start size done i off left f)
    (hpiece : (start + done) % st.piece_length + left ≤ st.piece_length)
    (hcur : left ≤ bufs_size cur) (hready : Ready st.toFileStorage w)
    (hK : Holds st.toFileStorage K w) :
    ∃ bt ec' w', write_fileop st.toFileStorage i off left (copy_bufs cur left) ec w =
        some (bt, ec', w') ∧
      WriteCall st K (start + done) left (gather w.mem cur) w bt ec' w' := by
  cases hf : f.pad_file with
  | true => exact write_fileop_pad hshare hcur hready hK hf
  | false =>
    by_cases hin : w.inPartFile i
    · exact write_fileop_part hshare hpiece hcur hready hK hf hin
    · exact write_fileop_file hshare hcur hready hK hf hin

end Share

/-- A share of a request for one piece lies in that piece. -/
theorem share_in_piece {piece offset size done i off left : Nat} {f : InternalFileEntry}
    (h : Share st.toFileStorage (piece * st.piece_length + offset) size done i off left f)
    (hpiece : offset + size ≤ st.piece_length) :
    (piece * st.piece_length + offset + done) % st.piece_length + left ≤ st.piece_length := by
  have hpos := h.pos
  have hrest := h.rest
  have hlt : offset + done < st.piece_length := by omega
  rw [Nat.add_assoc, (PartFile.place_in_piece piece hlt).2]
  omega

theorem gather_drop {mem : Memory} {bufs cur : List Iovec} {done : Nat}
    (h : addresses cur = (addresses bufs).drop done) :
    gather mem cur = (gather mem bufs).drop done := by
  rw [gather, h, List.map_drop]
  rfl

/-- `writev` writes the whole block or a first part of it.  When it fails the block is
in doubt, and nothing else. -/
theorem writev_spec {bufs : List Iovec} {piece offset : Nat} (hfits : st.total_size ≤ fieldLimit)
    (hpos : 0 < bufs_size bufs) (hpiece : offset + bufs_size bufs ≤ st.piece_length)
    (hend : piece * st.piece_length + offset + bufs_size bufs ≤ st.total_size)
    (hready : Ready st.toFileStorage w) (hK : Holds st.toFileStorage K w) :
    ∃ ret ec w', writev st.toFileStorage bufs piece offset w = some (ret, ec, w') ∧
      w'.mem = w.mem ∧ Ready st.toFileStorage w' ∧
      (ret = -1 → Holds st.toFileStorage (K.forget (piece * st.piece_length + offset)
        (piece * st.piece_length + offset + bufs_size bufs)) w') ∧
      (ret ≠ -1 → ∃ done ≤ bufs_size bufs, ret = done ∧
        Holds st.toFileStorage (K.put (piece * st.piece_length + offset)
          (st.visible (piece * st.piece_length + offset) ((gather w.mem bufs).take done))) w') := by
  obtain ⟨start, hstart⟩ : ∃ start, start = piece * st.piece_length + offset := ⟨_, rfl⟩
  obtain ⟨size, hsize⟩ : ∃ size, size = bufs_size bufs := ⟨_, rfl⟩
  have hlength : (gather w.mem bufs).length = size := by rw [length_gather, hsize]
  let I : Nat → DefaultStorage → Prop := fun done v =>
    v.mem = w.mem ∧ Ready st.toFileStorage v ∧ Holds st.toFileStorage
      (K.put start (st.visible start ((gather w.mem bufs).take done))) v
  let E : DefaultStorage → Prop := fun v =>
    v.mem = w.mem ∧ Ready st.toFileStorage v ∧
      Holds st.toFileStorage (K.forget start (start + size)) v
  have hkeeps : FileopKeeps st (write_fileop st.toFileStorage) bufs start size I E True := by
    constructor
    intro done i off left f cur ec v hshare hcur hleft hec hI
    obtain ⟨hmem, hvready, hvK⟩ := hI
    have hrest := hshare.rest
    have hinPiece : (start + done) % st.piece_length + left ≤ st.piece_length := by
      rw [hstart, hsize] at hshare
      rw [hstart]
      exact share_in_piece hshare hpiece
    obtain ⟨bt, ec', v', hcall, hmem', hready', n, hn, hbt, hput⟩ :=
      write_fileop_spec hshare hinPiece hleft hvready hvK
    have hfront : ((gather w.mem bufs).take done).length = done :=
      List.length_take_of_le (by omega)
    -- the share continues what has been written
    have hnext : (K.put start (st.visible start ((gather w.mem bufs).take done))).put
        (start + done) (st.visible (start + done) ((gather v.mem cur).take n)) =
          K.put start (st.visible start ((gather w.mem bufs).take (done + n))) := by
      have happend := st.visible_append start ((gather w.mem bufs).take done)
        (((gather w.mem bufs).drop done).take n)
      rw [hfront, ← List.take_add] at happend
      rw [happend, hmem, gather_drop hcur]
      rw [← Image.put_append, FileStorage.length_visible, hfront]
    rw [hnext] at hput
    refine ⟨bt, ec', v', hcall, ?_, ?_⟩
    · intro _
      refine ⟨hmem'.trans hmem, hready', hput.mono ?_⟩
      rw [← Image.forget_put le_rfl (?_ : start + (st.visible start
        ((gather w.mem bufs).take (done + n))).length ≤ start + size)]
      · exact Image.forget_within _ _ _
      · rw [FileStorage.length_visible, List.length_take]
        omega
    · intro hnone
      rw [hbt hnone, Int.toNat_natCast]
      exact ⟨hn, fun _ => trivial, hmem'.trans hmem, hready', hput⟩
  have hinit : I 0 w := by
    refine ⟨rfl, hready, ?_⟩
    rw [List.take_zero, show st.visible start [] = [] from rfl, Image.put_nil]
    exact hK
  rw [hstart, hsize] at hkeeps
  obtain ⟨ret, ec, w', hrun, herror, hok⟩ :=
    readwritev_carried st hkeeps hfits hpos hend hinit
  rw [← hstart, ← hsize]
  by_cases hec : ec.ec = none
  · obtain ⟨done, hdone, hret, ⟨hmem, hready', hholds⟩, -⟩ := hok hec
    refine ⟨ret, ec, w', hrun, hmem, hready', ?_, ?_⟩
    · intro hbad
      omega
    · exact fun _ => ⟨done, hsize ▸ hdone, hret, hholds⟩
  · obtain ⟨hret, hmem, hready', hholds⟩ := herror hec
    exact ⟨ret, ec, w', hrun, hmem, hready', fun _ => hholds, fun h => absurd hret h⟩

/-! ## Reading -/

/-- Every access that is left goes well. -/
def AllFine (w : DefaultStorage) : Prop := ∀ a ∈ w.accesses, a = .fine

theorem AllFine.access (h : w.AllFine) : w.access = .fine := by
  rw [DefaultStorage.access]
  cases haccesses : w.accesses with
  | nil => rfl
  | cons a rest =>
    apply h
    rw [haccesses]
    exact List.mem_cons_self

theorem AllFine.tail (h : w.AllFine) {w' : DefaultStorage}
    (haccesses : w'.accesses = w.accesses.tail) : w'.AllFine := by
  intro a ha
  rw [haccesses] at ha
  exact h a (List.mem_of_mem_tail ha)

/-- What one call of `read_fileop` does: bytes that agree with what is held are stored in
the buffers, and when all goes well and every byte is held, it gets them all. -/
structure ReadCall (st : AcceptedStorage) (K : Image UInt8) (pos left : Nat) (cur : List Iovec)
    (w : DefaultStorage) (bt : Int) (ec : StorageError) (w' : DefaultStorage)
    (block : List UInt8) : Prop where
  ready : Ready st.toFileStorage w'
  holds : Holds st.toFileStorage K w'
  mem : w'.mem = store w.mem (addresses (copy_bufs cur left)) block
  length : block.length ≤ left
  agrees : K.Agrees pos block
  answer : ec.ec = none → bt = block.length
  fine : w.AllFine → w'.AllFine
  all : w.AllFine → (∀ k < left, K (pos + k) ≠ none) → ec.ec = none ∧ bt = left

section Share

variable {start size done i off left : Nat} {f : InternalFileEntry} {cur : List Iovec}
  {ec : StorageError}

/-- The buffers of a share hold as many bytes as the share has. -/
theorem bufs_size_copy_bufs (hcur : left ≤ bufs_size cur) :
    bufs_size (copy_bufs cur left) = left := by
  rw [← length_addresses, addresses_copy_bufs hcur, List.length_take, length_addresses,
    Nat.min_eq_left hcur]

/-- A read from a pad file yields zeroes. -/
theorem read_fileop_pad (hshare : Share st.toFileStorage start size done i off left f)
    (hcur : left ≤ bufs_size cur) (hec : ec.ec = none) (hready : Ready st.toFileStorage w)
    (hK : Holds st.toFileStorage K w) (hf : f.pad_file = true) :
    ∃ bt ec' w' block, read_fileop st.toFileStorage i off left (copy_bufs cur left) ec w =
        some (bt, ec', w') ∧ ReadCall st K (start + done) left cur w bt ec' w' block := by
  rw [read_fileop, pad_file_at_share hshare, take_count_bufs_copy_bufs cur hshare.pos, hf]
  dsimp only
  rw [if_pos rfl]
  refine ⟨_, _, _, List.replicate left 0, rfl, hready.congr rfl rfl rfl,
    hK.congr rfl rfl rfl rfl, ?_, ?_, ?_, ?_, fun h => h, fun _ _ => ⟨hec, rfl⟩⟩
  · rw [clear_bufs, bufs_size_copy_bufs hcur]
  · rw [List.length_replicate]
  · intro k b c hb hc
    rw [List.getElem?_replicate] at hb
    obtain ⟨hk, hb⟩ := Option.ite_none_right_eq_some.mp hb
    have hzero := hK.stored_share hshare hk hc
    rw [stored_pad hf] at hzero
    exact Option.some.inj (hb.symm.trans hzero)
  · intro _
    rw [List.length_replicate]

/-- A read from a file of priority 0 is a read from the part file. -/
theorem read_fileop_part (hshare : Share st.toFileStorage start size done i off left f)
    (hpiece : (start + done) % st.piece_length + left ≤ st.piece_length)
    (hcur : left ≤ bufs_size cur) (hec : ec.ec = none) (hready : Ready st.toFileStorage w)
    (hK : Holds st.toFileStorage K w) (hf : f.pad_file = false) (hin : w.inPartFile i) :
    ∃ bt ec' w' block, read_fileop st.toFileStorage i off left (copy_bufs cur left) ec w =
        some (bt, ec', w') ∧ ReadCall st K (start + done) left cur w bt ec' w' block := by
  obtain ⟨pf, hpf⟩ := hready.needed i f hshare.file hin hf
  obtain ⟨hvalid, hmax, hps, hsaved⟩ := hready.part_file pf hpf
  obtain ⟨hmapPiece, hmapStart⟩ := map_file_share hshare
  rw [read_fileop, pad_file_at_share hshare, take_count_bufs_copy_bufs cur hshare.pos, hf]
  dsimp only
  rw [if_neg Bool.false_ne_true, if_pos hin, hpf, bufs_size_copy_bufs hcur]
  dsimp only
  rw [hmapPiece, hmapStart]
  obtain ⟨⟨ret, block, part'⟩, hread⟩ : ∃ r, pf.readv w.part left
    ((start + done) / st.piece_length) ((start + done) % st.piece_length) w.access = r :=
    ⟨_, rfl⟩
  rw [hread]
  have hroom : (start + done) % st.piece_length + left ≤ pf.m_piece_size := by
    rw [hps]
    exact hpiece
  obtain ⟨himage, hlength, hbytes, hret⟩ := PartFile.readv_spec hroom hread
  rw [hps, Nat.div_add_mod'] at hbytes
  have hagrees : K.Agrees (start + done) block := by
    intro k b c hb hc
    obtain ⟨hk, -⟩ := List.getElem?_eq_some_iff.mp hb
    have hheld := hK.part_share hshare hf hin hpf (by omega) hc
    exact Option.some.inj ((hbytes k b hb).symm.trans hheld)
  have hready' : ∀ v : DefaultStorage, v.m_part_file = some pf → v.part = part' →
      Ready st.toFileStorage v := fun v hpart hpart' =>
    Ready.of_part_file hpart ⟨hvalid, hmax, hps, hpart' ▸ hsaved.readv hread⟩
  have hholds : ∀ v : DefaultStorage, v.m_file_priority = w.m_file_priority →
      v.m_part_file = some pf → v.part = part' → v.onDisk = w.onDisk →
      Holds st.toFileStorage K v := by
    intro v hpriority hpart hpart' hdisk
    refine hK.part_within hpf hpriority hpart hdisk ?_
    rw [hpart', himage]
    exact fun x b hb => hb
  have hall : w.AllFine → (∀ k < left, K (start + done + k) ≠ none) → ret = .ok left := by
    intro hfine hknown
    have hreadAll := PartFile.readv_fine hshare.pos hroom fun k hk => by
      obtain ⟨c, hc⟩ := Option.ne_none_iff_exists'.mp (hknown k hk)
      rw [hps, Nat.div_add_mod']
      exact ⟨c, hK.part_share hshare hf hin hpf hk hc⟩
    rw [← hfine.access, hread] at hreadAll
    exact hreadAll
  cases ret with
  | error e =>
    refine ⟨_, _, _, block, rfl, hready' _ rfl rfl, hholds _ rfl rfl rfl rfl, rfl, hlength,
      hagrees, fun h => (by cases h), fun h => h.tail rfl, fun hfine hknown => ?_⟩
    cases hall hfine hknown
  | ok m =>
    refine ⟨_, _, _, block, rfl, hready' _ rfl rfl, hholds _ rfl rfl rfl rfl, rfl, hlength,
      hagrees, fun _ => ?_, fun h => h.tail rfl, fun hfine hknown => ?_⟩
    · rw [hret m rfl]
    · cases hall hfine hknown
      exact ⟨hec, rfl⟩

/-- What `pread` gets of a share from its file. -/
theorem pread_share {content block : List UInt8} {ret : Except Errno Nat}
    (hshare : Share st.toFileStorage start size done i off left f)
    (hK : Holds st.toFileStorage K w) (hf : f.pad_file = false) (hnot : ¬w.inPartFile i)
    (hcontent : w.onDisk i = some content)
    (hread : pread content off left w.access = (ret, block)) :
    K.Agrees (start + done) block ∧
      (w.AllFine → (∀ k < left, K (start + done + k) ≠ none) → ret = .ok left) := by
  have hheld : ∀ k < left, ∀ c, K (start + done + k) = some c → content[off + k]? = some c := by
    intro k hk c hc
    obtain ⟨content', hcontent', hbyte⟩ := hK.file_share hshare hf hnot hk hc
    cases hcontent.symm.trans hcontent'
    exact hbyte
  constructor
  · obtain ⟨hlength, hbytes, -⟩ := pread_spec hread
    intro k b c hb hc
    obtain ⟨hk, -⟩ := List.getElem?_eq_some_iff.mp hb
    exact Option.some.inj ((hbytes k b hb).symm.trans (hheld k (by omega) c hc))
  · intro hfine hknown
    have hthere : (readAt content off left).length = left := by
      apply length_readAt
      intro k hk
      obtain ⟨c, hc⟩ := Option.ne_none_iff_exists'.mp (hknown k hk)
      exact ⟨c, hheld k hk c hc⟩
    rw [hfine.access, pread_fine, hthere] at hread
    exact (Prod.mk.inj hread).1.symm

/-- A read from any other file opens it and reads behind `off`. -/
theorem read_fileop_file (hshare : Share st.toFileStorage start size done i off left f)
    (hcur : left ≤ bufs_size cur) (hec : ec.ec = none) (hready : Ready st.toFileStorage w)
    (hK : Holds st.toFileStorage K w) (hf : f.pad_file = false) (hnot : ¬w.inPartFile i) :
    ∃ bt ec' w' block, read_fileop st.toFileStorage i off left (copy_bufs cur left) ec w =
        some (bt, ec', w') ∧ ReadCall st K (start + done) left cur w bt ec' w' block := by
  obtain ⟨ec1, hopen⟩ : ∃ ec1, open_file st.toFileStorage i false ec w = (ec1, w) :=
    open_file_read
  rw [read_fileop, pad_file_at_share hshare, take_count_bufs_copy_bufs cur hshare.pos, hf]
  dsimp only
  rw [if_neg Bool.false_ne_true, if_neg hnot, hopen, bufs_size_copy_bufs hcur]
  dsimp only
  split
  · rename_i hbad
    refine ⟨_, _, _, [], rfl, hready.congr rfl rfl rfl, hK.congr rfl rfl rfl rfl, ?_,
      Nat.zero_le _, ?_, ?_, fun h => h.tail rfl, ?_⟩
    · cases addresses (copy_bufs cur left) <;> rfl
    · intro k b c hb
      cases hb
    · intro hnone
      rw [hnone] at hbad
      cases hbad
    · -- a file of which something is held is there
      intro hfine hknown
      obtain ⟨c, hc⟩ := Option.ne_none_iff_exists'.mp (hknown 0 hshare.pos)
      obtain ⟨content, hcontent, -⟩ := hK.file_share hshare hf hnot hshare.pos hc
      rw [open_file_there (by rw [hfine.access]; rfl) hcontent] at hopen
      cases hopen
      rw [hec] at hbad
      cases hbad
  · rename_i hgood
    obtain ⟨-, -, -, -, -, hok⟩ := open_file_spec hshare.file hready hopen
    obtain ⟨rfl, content, hcontent⟩ := hok (Option.not_isSome_iff_eq_none.mp hgood)
    rw [hcontent, Option.getD_some]
    obtain ⟨⟨ret, block⟩, hread⟩ : ∃ r, pread content off left w.access = r := ⟨_, rfl⟩
    rw [hread]
    obtain ⟨hlength, -, hret⟩ := pread_spec hread
    obtain ⟨hagrees, hall⟩ := pread_share hshare hK hf hnot hcontent hread
    cases ret with
    | error e =>
      refine ⟨_, _, _, block, rfl, hready.congr rfl rfl rfl, hK.congr rfl rfl rfl rfl, rfl,
        hlength, hagrees, fun h => (by cases h), fun h => h.tail rfl, fun hfine hknown => ?_⟩
      cases hall hfine hknown
    | ok m =>
      refine ⟨_, _, _, block, rfl, hready.congr rfl rfl rfl, hK.congr rfl rfl rfl rfl, rfl,
        hlength, hagrees, fun _ => ?_, fun h => h.tail rfl, fun hfine hknown => ?_⟩
      · rw [hret m rfl]
      · cases hall hfine hknown
        exact ⟨hec, rfl⟩

theorem read_fileop_spec (hshare : Share st.toFileStorage start size done i off left f)
    (hpiece : (start + done) % st.piece_length + left ≤ st.piece_length)
    (hcur : left ≤ bufs_size cur) (hec : ec.ec = none) (hready : Ready st.toFileStorage w)
    (hK : Holds st.toFileStorage K w) :
    ∃ bt ec' w' block, read_fileop st.toFileStorage i off left (copy_bufs cur left) ec w =
        some (bt, ec', w') ∧ ReadCall st K (start + done) left cur w bt ec' w' block := by
  cases hf : f.pad_file with
  | true => exact read_fileop_pad hshare hcur hec hready hK hf
  | false =>
    by_cases hin : w.inPartFile i
    · exact read_fileop_part hshare hpiece hcur hec hready hK hf hin
    · exact read_fileop_file hshare hcur hec hready hK hf hin

end Share

/-- How far a request has come when its first `done` bytes have been read: they agree with what
is held, and no other memory has changed. -/
structure ReadSoFar (st : AcceptedStorage) (K : Image UInt8) (bufs : List Iovec) (start : Nat)
    (w : DefaultStorage) (done : Nat) (v : DefaultStorage) : Prop where
  ready : Ready st.toFileStorage v
  holds : Holds st.toFileStorage K v
  frame : ∀ a ∉ addresses bufs, v.mem a = w.mem a
  fine : w.AllFine → v.AllFine
  read : ∀ k < done, ∀ a c, (addresses bufs)[k]? = some a → K (start + k) = some c → v.mem a = c

section ReadSoFar

variable {bufs cur : List Iovec} {start done left : Nat} {v v' : DefaultStorage} {bt : Int}
  {ec : StorageError} {block : List UInt8}

theorem ReadSoFar.none (h : ReadSoFar st K bufs start w done v) :
    ReadSoFar st K bufs start w 0 v :=
  ⟨h.ready, h.holds, h.frame, h.fine, fun _ hk => absurd hk (Nat.not_lt_zero _)⟩

/-- One call reads on behind what has been read, and does not write over it. -/
theorem ReadSoFar.call (h : ReadSoFar st K bufs start w done v) (hnodup : (addresses bufs).Nodup)
    (hcur : addresses cur = (addresses bufs).drop done) (hleft : left ≤ bufs_size cur)
    (hspec : ReadCall st K (start + done) left cur v bt ec v' block) :
    ReadSoFar st K bufs start w (done + block.length) v' := by
  have hlength := hspec.length
  have hcopy : addresses (copy_bufs cur left) = ((addresses bufs).drop done).take left := by
    rw [addresses_copy_bufs hleft, hcur]
  have hcopyNodup : (addresses (copy_bufs cur left)).Nodup := by
    rw [hcopy]
    exact hnodup.sublist ((List.take_sublist _ _).trans (List.drop_sublist _ _))
  have hget : ∀ k < left, (addresses (copy_bufs cur left))[k]? = (addresses bufs)[done + k]? := by
    intro k hk
    rw [hcopy, List.getElem?_take_of_lt hk, List.getElem?_drop]
  refine ⟨hspec.ready, hspec.holds, fun a ha => ?_, fun hall => hspec.fine (h.fine hall), ?_⟩
  · rw [hspec.mem, store_of_not_mem, h.frame a ha]
    rw [hcopy]
    exact fun hmem => ha (List.mem_of_mem_drop (List.mem_of_mem_take hmem))
  · intro k hk a c ha hc
    by_cases hold : k < done
    · -- read before, and not overwritten
      rw [hspec.mem, store_of_not_mem]
      · exact h.read k hold a c ha hc
      · rw [hcopy]
        intro hmem
        obtain ⟨l, hl⟩ := List.mem_iff_getElem?.mp (List.mem_of_mem_take hmem)
        rw [List.getElem?_drop] at hl
        obtain ⟨hka, hka'⟩ := List.getElem?_eq_some_iff.mp ha
        obtain ⟨hla, hla'⟩ := List.getElem?_eq_some_iff.mp hl
        have := (List.Nodup.getElem_inj_iff hnodup).mp (hka'.trans hla'.symm)
        omega
    · obtain ⟨l, rfl⟩ : ∃ l, k = done + l := ⟨k - done, by omega⟩
      have hl : l < block.length := by omega
      have hb := List.getElem?_eq_getElem hl
      rw [hspec.mem, store_getElem hcopyNodup ((hget l (by omega)).trans ha) hb]
      exact hspec.agrees l _ c hb (by rwa [Nat.add_assoc])

/-- What has been read agrees with what is held. -/
theorem ReadSoFar.agrees (h : ReadSoFar st K bufs start w done v) :
    K.Agrees start ((gather v.mem bufs).take done) := by
  intro k b c hb hc
  obtain ⟨hk, -⟩ := List.getElem?_eq_some_iff.mp hb
  rw [List.length_take] at hk
  rw [List.getElem?_take_of_lt (by omega), gather, List.getElem?_map] at hb
  obtain ⟨a, ha, rfl⟩ := Option.map_eq_some_iff.mp hb
  exact h.read k (by omega) a c ha hc

end ReadSoFar

/-- `readv` stores in the buffers, and nowhere else, bytes that agree with what is held;
when all goes well and every byte is held, it fills the buffers. -/
theorem readv_spec {bufs : List Iovec} {piece offset : Nat} (hfits : st.total_size ≤ fieldLimit)
    (hpos : 0 < bufs_size bufs) (hpiece : offset + bufs_size bufs ≤ st.piece_length)
    (hend : piece * st.piece_length + offset + bufs_size bufs ≤ st.total_size)
    (hnodup : (addresses bufs).Nodup)
    (hready : Ready st.toFileStorage w) (hK : Holds st.toFileStorage K w) :
    ∃ ret ec w', readv st.toFileStorage bufs piece offset w = some (ret, ec, w') ∧
      Ready st.toFileStorage w' ∧ Holds st.toFileStorage K w' ∧
      (∀ a ∉ addresses bufs, w'.mem a = w.mem a) ∧
      (ret = -1 ∨ ∃ done ≤ bufs_size bufs, ret = done ∧
        K.Agrees (piece * st.piece_length + offset) ((gather w'.mem bufs).take done)) ∧
      (w.AllFine → (∀ k < bufs_size bufs, K (piece * st.piece_length + offset + k) ≠ none) →
        ret = bufs_size bufs) := by
  obtain ⟨start, hstart⟩ : ∃ start, start = piece * st.piece_length + offset := ⟨_, rfl⟩
  obtain ⟨size, hsize⟩ : ∃ size, size = bufs_size bufs := ⟨_, rfl⟩
  rw [← hstart, ← hsize] at hend
  rw [← hsize] at hpos hpiece
  let Good : Prop := w.AllFine ∧ ∀ k < size, K (start + k) ≠ none
  have hkeeps : FileopKeeps st (read_fileop st.toFileStorage) bufs start size
      (ReadSoFar st K bufs start w) (fun v => ReadSoFar st K bufs start w 0 v ∧ ¬Good) ¬Good := by
    constructor
    intro done i off left f cur ec v hshare hcur hleft hec hsofar
    have hrest := hshare.rest
    have hinPiece : (start + done) % st.piece_length + left ≤ st.piece_length := by
      rw [hstart] at hshare ⊢
      exact share_in_piece hshare hpiece
    obtain ⟨bt, ec', v', block, hcall, hspec⟩ :=
      read_fileop_spec hshare hinPiece hleft hec hsofar.ready hsofar.holds
    have hnext := hsofar.call hnodup hcur hleft hspec
    have hgood : Good → ec'.ec = none ∧ bt = left := fun ⟨hall, hknown⟩ =>
      hspec.all (hsofar.fine hall) fun k hk => by
        rw [Nat.add_assoc]
        exact hknown _ (by omega)
    refine ⟨bt, ec', v', hcall, fun hbad => ⟨hnext.none, fun h => hbad (hgood h).1⟩,
      fun hnone => ?_⟩
    rw [hspec.answer hnone, Int.toNat_natCast]
    refine ⟨hspec.length, fun hzero h => ?_, hnext⟩
    have hmoved := (hgood h).2
    rw [hspec.answer hnone] at hmoved
    have hleftPos := hshare.pos
    omega
  have hinit : ReadSoFar st K bufs start w 0 w :=
    ⟨hready, hK, fun _ _ => rfl, fun h => h, fun _ hk => absurd hk (Nat.not_lt_zero _)⟩
  rw [hstart, hsize] at hkeeps
  rw [hstart] at hinit
  rw [hsize] at hpos
  rw [hstart, hsize] at hend
  obtain ⟨ret, ec, w', hrun, herror, hok⟩ :=
    readwritev_carried st hkeeps hfits hpos hend hinit
  rw [← hstart, ← hsize]
  by_cases hec : ec.ec = none
  · obtain ⟨done, hdone, hret, hsofar, hall⟩ := hok hec
    rw [← hstart] at hsofar
    refine ⟨ret, ec, w', hrun, hsofar.ready, hsofar.holds, hsofar.frame,
      Or.inr ⟨done, by omega, hret, hsofar.agrees⟩, fun hfine hknown => ?_⟩
    rcases hall with hwhole | hnot
    · omega
    · exact absurd ⟨hfine, hknown⟩ hnot
  · obtain ⟨hret, hsofar, hnot⟩ := herror hec
    exact ⟨ret, ec, w', hrun, hsofar.ready, hsofar.holds, hsofar.frame, Or.inl hret,
      fun hfine hknown => absurd ⟨hfine, hknown⟩ hnot⟩

end DefaultStorage

end TorrentApp.Torrent
