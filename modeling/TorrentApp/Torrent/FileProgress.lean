import TorrentApp.Foundation.Tally
import TorrentApp.Foundation.Machine
import TorrentApp.Torrent.Slices

set_option autoImplicit false

/-!
# The progress of the files

`file_progress` keeps, for each file, how many of its bytes lie in pieces that have
passed their hash check.  `init` walks through all pieces and all files side by
side, and `update` adds one piece and tells which files it has completed.
-/

namespace TorrentApp.Torrent

open TorrentApp.Foundation

/-! ## The loops

A position in the files is an index and the list of the files from it on; the loops
end with `none` where the source would read past the last file. -/

/-- The loop that leaves the files behind that end at `off` or before. -/
def seekFile (off : Nat) : List InternalFileEntry → Nat → Option (List InternalFileEntry × Nat)
  | [], _ => none
  | f :: rest, i =>
      if f.offset + f.size ≤ off then seekFile off rest (i + 1) else some (f :: rest, i)

/-- The loop of `init` that spreads the `size` bytes of a piece over the files. -/
def fillPiece : List InternalFileEntry → Nat → Nat → Nat → List Nat →
    Option (List InternalFileEntry × Nat × List Nat)
  | [], _, _, _, _ => none
  | f :: rest, i, file_offset, size, fp =>
      let add := min size (f.size - file_offset)
      let fp := fp.modify i (· + add)
      if size - add = 0 then some (f :: rest, i, fp) else fillPiece rest (i + 1) 0 (size - add) fp

/-- The loop of `init` over the `n` pieces from `piece` on. -/
def initPieces (st : FileStorage) (have_piece : Nat → Bool) :
    Nat → Nat → List InternalFileEntry → Nat → List Nat → Option (List Nat)
  | 0, _, _, _, fp => some fp
  | n + 1, piece, files, i, fp => do
      let off := piece * st.piece_length
      let (files, i) ← seekFile off files i
      if have_piece piece then
        let size := min st.piece_length (st.total_size - off)
        let (files, i, fp) ← fillPiece files i (off - (files.map InternalFileEntry.offset).headD 0)
          size fp
        initPieces st have_piece n (piece + 1) files i fp
      else initPieces st have_piece n (piece + 1) files i fp

/-- `file_progress::init` on an empty progress. -/
def FileStorage.init_progress (st : FileStorage) (have_piece : Nat → Bool) : Option (List Nat) :=
  initPieces st have_piece st.num_pieces 0 st.files 0 (List.replicate st.num_files 0)

/-- The loop of `update`, and the files it posts a `file_completed_alert` for. -/
def updateFiles : List InternalFileEntry → Nat → Nat → Nat → List Nat →
    Option (List Nat × List Nat)
  | [], _, _, size, fp => if size = 0 then some (fp, []) else none
  | f :: rest, i, off, size, fp =>
      if size = 0 then some (fp, [])
      else do
        let add := min (f.size - (off - f.offset)) size
        let fp := fp.modify i (· + add)
        let completed := decide (f.size ≤ fp.getD i 0) && !f.pad_file
        let (fp, posted) ← updateFiles rest (i + 1) (off + add) (size - add) fp
        some (fp, (if completed then [i] else []) ++ posted)

/-- `file_progress::update`. -/
def FileStorage.update_progress (st : FileStorage) (index : Nat) (fp : List Nat) :
    Option (List Nat × List Nat) :=
  if fp = [] then some (fp, [])
  else
    let off := index * st.piece_length
    let file_index := st.file_index_at_offset off
    updateFiles (st.files.drop file_index) file_index off (st.piece_size index).toNat fp

/-! ## Marked bytes -/

/-- The counts of the bytes of the files that are marked. -/
abbrev FileStorage.Counts (st : FileStorage) (marked : Nat → Bool) (fp : List Nat) : Prop :=
  Tally InternalFileEntry.offset InternalFileEntry.size st.files marked fp

/-- All bytes of a file are marked. -/
def InternalFileEntry.Full (f : InternalFileEntry) (marked : Nat → Bool) : Prop :=
  countIn marked f.offset f.size = f.size

instance (f : InternalFileEntry) (marked : Nat → Bool) : Decidable (f.Full marked) :=
  inferInstanceAs (Decidable (_ = _))

theorem InternalFileEntry.Full.mono {f : InternalFileEntry} {marked marked' : Nat → Bool}
    (h : f.Full marked) (hle : ∀ x, marked x = true → marked' x = true) : f.Full marked' := by
  have hmono := countIn_mono hle f.offset f.size
  rw [h] at hmono
  exact Nat.le_antisymm (countIn_le _ _ _) hmono

/-- The bytes of the pieces that have passed. -/
def FileStorage.inPieces (st : FileStorage) (have_piece : Nat → Bool) (x : Nat) : Bool :=
  have_piece (x / st.piece_length)

section

variable {st : AcceptedStorage} {marked : Nat → Bool} {files rest : List InternalFileEntry}
  {f : InternalFileEntry} {i off size start : Nat} {fp : List Nat}

theorem seekFile_spec (hfiles : st.files.drop i = files)
    (habut : Abut InternalFileEntry.offset InternalFileEntry.size start files)
    (hlo : start ≤ off) (hhi : off < start + (files.map InternalFileEntry.size).sum) :
    ∃ f rest j, seekFile off files i = some (f :: rest, j) ∧ st.files.drop j = f :: rest ∧
      f.offset ≤ off ∧ off < f.offset + f.size := by
  induction files generalizing i start with
  | nil =>
    rw [List.map_nil, List.sum_nil] at hhi
    omega
  | cons f rest ih =>
    obtain ⟨-, hrest⟩ := getElem?_of_drop_eq hfiles
    have hstart := habut.1
    rw [List.map_cons, List.sum_cons] at hhi
    by_cases hpast : f.offset + f.size ≤ off
    · rw [seekFile, if_pos hpast]
      exact ih hrest habut.2 (by omega) (by omega)
    · rw [seekFile, if_neg hpast]
      exact ⟨f, rest, i, rfl, hfiles, by omega, by omega⟩

/-- The part of a stretch that lies in the first file. -/
theorem counts_head (h : st.Counts marked fp) (hfiles : st.files.drop i = f :: rest)
    {add : Nat} (hlo : f.offset ≤ off) (hhi : off + add ≤ f.offset + f.size)
    (hfree : ∀ x, off ≤ x → x < off + add → marked x = false) :
    st.Counts (mark marked off add) (fp.modify i (· + add)) :=
  h.mark st.abut (getElem?_of_drop_eq hfiles).1 hlo hhi hfree

theorem fillPiece_spec {file_offset : Nat} (hfiles : st.files.drop i = files)
    (habut : Abut InternalFileEntry.offset InternalFileEntry.size start files)
    (hsize : 0 < size)
    (hhi : file_offset + size ≤ (files.map InternalFileEntry.size).sum)
    (hin : ∀ f ∈ files.head?, file_offset ≤ f.size)
    (hfree : ∀ x, start + file_offset ≤ x → x < start + file_offset + size → marked x = false)
    (h : st.Counts marked fp) :
    ∃ f rest j fp', fillPiece files i file_offset size fp = some (f :: rest, j, fp') ∧
      st.files.drop j = f :: rest ∧ f.offset ≤ start + file_offset + size ∧
      st.Counts (mark marked (start + file_offset) size) fp' := by
  induction files generalizing i start file_offset size marked fp with
  | nil =>
    rw [List.map_nil, List.sum_nil] at hhi
    omega
  | cons f rest ih =>
    obtain ⟨-, hrest⟩ := getElem?_of_drop_eq hfiles
    have hstart := habut.1
    have hfile := hin f rfl
    rw [List.map_cons, List.sum_cons] at hhi
    rw [fillPiece]
    obtain ⟨add, hadd⟩ : ∃ add, add = min size (f.size - file_offset) := ⟨_, rfl⟩
    rw [← hadd]
    have hhead := counts_head h hfiles (show f.offset ≤ start + file_offset by omega)
      (show start + file_offset + add ≤ f.offset + f.size by omega)
      (fun x hlo hx => hfree x hlo (by omega))
    by_cases hlast : size - add = 0
    · rw [if_pos hlast]
      rw [show add = size by omega] at hhead
      exact ⟨f, rest, i, _, by rw [show add = size by omega], hfiles, by omega, hhead⟩
    · rw [if_neg hlast]
      obtain ⟨g, more, j, fp', hfill, hdrop, hle, hcounts⟩ := ih hrest habut.2
        (show 0 < size - add by omega)
        (show 0 + (size - add) ≤ (rest.map InternalFileEntry.size).sum by omega)
        (fun _ _ => Nat.zero_le _)
        (fun x hlo hx => (mark_outside (by omega)).trans (hfree x (by omega) (by omega))) hhead
      refine ⟨g, more, j, fp', hfill, hdrop, by omega, ?_⟩
      rwa [Nat.add_zero, show start + f.size = start + file_offset + add by omega, mark_mark,
        show add + (size - add) = size by omega] at hcounts

theorem counts_congr {marked' : Nat → Bool} (h : st.Counts marked fp)
    (hcongr : ∀ x < st.total_size, marked x = marked' x) : st.Counts marked' fp := by
  rw [FileStorage.Counts, Tally, h]
  refine List.map_congr_left fun f hf => countIn_congr fun x _ hx => hcongr x ?_
  have hend := (st.abut.bounds hf).2
  rw [Nat.zero_add, ← st.total_eq] at hend
  omega

/-- A place lies in a piece exactly if it lies between the ends of the piece. -/
theorem div_piece_length {p x : Nat} :
    x / st.piece_length = p ↔ p * st.piece_length ≤ x ∧ x < (p + 1) * st.piece_length := by
  rw [Nat.div_eq_iff st.piece_length_pos, Nat.add_mul, Nat.one_mul]
  have hpos := st.piece_length_pos
  omega

/-- The bytes of the pieces before one, of those that have passed. -/
def FileStorage.inPiecesBefore (st : FileStorage) (have_piece : Nat → Bool) (piece x : Nat) :
    Bool :=
  st.inPieces have_piece x && decide (x < piece * st.piece_length)

/-- Marking the bytes of a piece. -/
theorem mark_piece {p : Nat} (hp : p < st.num_pieces) {x : Nat} (hx : x < st.total_size) :
    mark marked (p * st.piece_length) (st.piece_size p).toNat x =
      (marked x || decide (x / st.piece_length = p)) := by
  obtain ⟨hbegin, hend⟩ := st.piece_size_eq hp
  rw [Bool.eq_iff_iff, mark_eq_true, Bool.or_eq_true, decide_eq_true_eq, div_piece_length, hend]
  refine or_congr_right ?_
  omega

theorem initPieces_spec {have_piece : Nat → Bool} {n piece : Nat}
    (hn : piece + n = st.num_pieces) (hfiles : st.files.drop i = files)
    (habut : Abut InternalFileEntry.offset InternalFileEntry.size start files)
    (hsum : start + (files.map InternalFileEntry.size).sum = st.total_size)
    (hlo : start ≤ piece * st.piece_length)
    (h : st.Counts (st.inPiecesBefore have_piece piece) fp) :
    ∃ fp', initPieces st.toFileStorage have_piece n piece files i fp = some fp' ∧
      st.Counts (st.inPiecesBefore have_piece st.num_pieces) fp' := by
  induction n generalizing piece files i start fp with
  | zero => exact ⟨fp, rfl, by rwa [← hn, Nat.add_zero]⟩
  | succ n ih =>
    have hpos := st.piece_length_pos
    obtain ⟨hbegin, hend⟩ := st.piece_size_eq (show piece < st.num_pieces by omega)
    have hnext : (piece + 1) * st.piece_length = piece * st.piece_length + st.piece_length := by
      rw [Nat.add_mul, Nat.one_mul]
    obtain ⟨f, rest, j, hseek, hdrop, hfirst, hlast⟩ :=
      seekFile_spec hfiles habut hlo (by omega)
    have hf := (getElem?_of_drop_eq hdrop).1
    have habut' := st.abut.drop hf
    have hsum' := st.sum_drop hf
    rw [hdrop] at habut' hsum'
    rw [initPieces]
    simp only [hseek, Option.bind_eq_bind, Option.bind_some]
    cases hhave : have_piece piece with
    | false =>
      rw [if_neg Bool.false_ne_true]
      refine ih (by omega) hdrop habut' hsum' (by omega) (counts_congr h fun x hx => ?_)
      rw [FileStorage.inPiecesBefore, FileStorage.inPiecesBefore, FileStorage.inPieces]
      by_cases hin : x / st.piece_length = piece
      · rw [hin, hhave, Bool.false_and, Bool.false_and]
      · congr 1
        rw [div_piece_length] at hin
        rw [decide_eq_decide]
        omega
    | true =>
      have hsize : min st.piece_length (st.total_size - piece * st.piece_length) =
          (st.piece_size piece).toNat := by omega
      have hoffset : ((f :: rest).map InternalFileEntry.offset).headD 0 = f.offset := rfl
      rw [if_pos rfl, hsize, hoffset]
      have hplace : f.offset + (piece * st.piece_length - f.offset) =
          piece * st.piece_length := by omega
      obtain ⟨g, more, k, fp', hfill, hdrop', hle, hcounts⟩ := fillPiece_spec hdrop habut'
        (show 0 < (st.piece_size piece).toNat by omega)
        (show piece * st.piece_length - f.offset + (st.piece_size piece).toNat ≤ _ by omega)
        (fun g hg => by cases hg; omega)
        (fun x hx _ => by
          rw [FileStorage.inPiecesBefore, decide_eq_false (by omega), Bool.and_false]) h
      have hg := (getElem?_of_drop_eq hdrop').1
      have habutg := st.abut.drop hg
      have hsumg := st.sum_drop hg
      rw [hdrop'] at habutg hsumg
      rw [hplace] at hle hcounts
      simp only [hfill, Option.bind_some]
      refine ih (by omega) hdrop' habutg hsumg (by omega) (counts_congr hcounts fun x hx => ?_)
      rw [mark_piece (by omega) hx, FileStorage.inPiecesBefore, FileStorage.inPiecesBefore,
        FileStorage.inPieces, Bool.eq_iff_iff]
      simp only [Bool.or_eq_true, Bool.and_eq_true, decide_eq_true_eq]
      by_cases hin : x / st.piece_length = piece
      · have hbounds := div_piece_length.mp hin
        rw [hin, hhave]
        simp only [true_and, or_true, true_iff]
        omega
      · rw [div_piece_length] at hin
        simp only [show ¬x / st.piece_length = piece from fun h => hin (div_piece_length.mp h),
          or_false]
        refine and_congr_right fun _ => ?_
        omega

/-- `init` counts the bytes of the pieces that have passed. -/
theorem init_progress_spec (st : AcceptedStorage) (have_piece : Nat → Bool) :
    ∃ fp, st.init_progress have_piece = some fp ∧ st.Counts (st.inPieces have_piece) fp := by
  have hzero : st.Counts (st.inPiecesBefore have_piece 0) (List.replicate st.num_files 0) := by
    rw [FileStorage.Counts, Tally, FileStorage.num_files, ← List.map_const']
    refine List.map_congr_left fun f _ => (countIn_eq_zero fun x _ _ => ?_).symm
    rw [FileStorage.inPiecesBefore, decide_eq_false (by omega), Bool.and_false]
  have hsum : 0 + (st.files.map InternalFileEntry.size).sum = st.total_size := by
    rw [Nat.zero_add, st.total_eq]
  obtain ⟨fp, hinit, hcounts⟩ := initPieces_spec (Nat.zero_add st.num_pieces) List.drop_zero
    st.abut hsum (Nat.zero_le _) hzero
  refine ⟨fp, hinit, counts_congr hcounts fun x hx => ?_⟩
  have hend := Nat.lt_mul_of_div_lt (st.div_lt_num_pieces hx) st.piece_length_pos
  rw [FileStorage.inPiecesBefore, decide_eq_true hend, Bool.and_true]

/-- Which files an update completes. -/
def FileStorage.Completes (st : FileStorage) (marked marked' : Nat → Bool)
    (posted : List Nat) : Prop :=
  ∀ j g, st.files[j]? = some g → 0 < g.size →
    posted.count j = if g.pad_file = false ∧ g.Full marked' ∧ ¬g.Full marked then 1 else 0

theorem completes_nil (st : FileStorage) (marked : Nat → Bool) : st.Completes marked marked [] :=
  fun _ _ _ _ => by rw [if_neg fun h => h.2.2 h.2.1, List.count_nil]

/-- A file is completed once. -/
theorem FileStorage.Completes.append {st : FileStorage} {marked₁ marked₂ marked₃ : Nat → Bool}
    {xs ys : List Nat} (hxs : st.Completes marked₁ marked₂ xs)
    (hys : st.Completes marked₂ marked₃ ys) (h₁₂ : ∀ x, marked₁ x = true → marked₂ x = true)
    (h₂₃ : ∀ x, marked₂ x = true → marked₃ x = true) : st.Completes marked₁ marked₃ (xs ++ ys) := by
  intro j g hg hpos
  rw [List.count_append, hxs j g hg hpos, hys j g hg hpos]
  by_cases hfull₁ : g.Full marked₁
  · have hfull₂ := hfull₁.mono h₁₂
    rw [if_neg (by tauto), if_neg (by tauto), if_neg (by tauto)]
  · by_cases hfull₂ : g.Full marked₂
    · have hfull₃ := hfull₂.mono h₂₃
      rw [if_neg (by tauto : ¬(g.pad_file = false ∧ g.Full marked₃ ∧ ¬g.Full marked₂)),
        Nat.add_zero]
      refine if_congr ?_ rfl rfl
      tauto
    · rw [if_neg (by tauto), Nat.zero_add]
      refine if_congr ?_ rfl rfl
      tauto

/-- The part of the piece in the first file, and whether it completes the file. -/
theorem updateFiles_head (h : st.Counts marked fp) (hfiles : st.files.drop i = f :: rest)
    {add : Nat} (hlo : f.offset ≤ off) (hhi : off + add ≤ f.offset + f.size)
    (hsome : 0 < add ∨ f.size = 0)
    (hfree : ∀ x, off ≤ x → x < off + add → marked x = false) :
    st.Completes marked (mark marked off add)
      (if decide (f.size ≤ (fp.modify i (· + add)).getD i 0) && !f.pad_file then [i] else []) := by
  have hhead := counts_head h hfiles hlo hhi hfree
  have hf := (getElem?_of_drop_eq hfiles).1
  have hcount := hhead.getElem? hf
  intro j g hg hpos
  by_cases hij : j = i
  · obtain rfl : f = g := Option.some.inj (hf.symm.trans (hij ▸ hg))
    have hnot : ¬f.Full marked := by
      intro hfull
      have hplace := countIn_eq_length.mp hfull off hlo (by omega)
      rw [hfree off le_rfl (by omega)] at hplace
      cases hplace
    have hle := countIn_le (mark marked off add) f.offset f.size
    rw [hij, List.getD_eq_getElem?_getD, hcount, Option.getD_some]
    by_cases hfull : f.Full (mark marked off add)
    · rw [show countIn (mark marked off add) f.offset f.size = f.size from hfull,
        decide_eq_true le_rfl, Bool.true_and]
      cases hpad : f.pad_file with
      | true => rw [if_neg (by decide), if_neg (fun h => (by cases h.1)), List.count_nil]
      | false => rw [if_pos (by decide), if_pos ⟨rfl, hfull, hnot⟩, List.count_singleton_self]
    · rw [decide_eq_false (fun h => hfull (Nat.le_antisymm hle h)), Bool.false_and,
        if_neg Bool.false_ne_true, if_neg (fun h => hfull h.2.1), List.count_nil]
  · -- the other files keep their counts
    have hsame : countIn (mark marked off add) g.offset g.size =
        countIn marked g.offset g.size := by
      have hnew := hhead.getElem? hg
      rw [List.getElem?_modify_ne _ _ (Ne.symm hij), h.getElem? hg] at hnew
      exact (Option.some.inj hnew).symm
    have hnone : ¬(g.pad_file = false ∧ g.Full (mark marked off add) ∧ ¬g.Full marked) := by
      rw [InternalFileEntry.Full, hsame]
      exact fun h => h.2.2 h.2.1
    rw [if_neg hnone, List.count_eq_zero]
    split
    · exact fun hmem => hij (List.mem_singleton.mp hmem)
    · exact List.not_mem_nil

theorem updateFiles_zero (files : List InternalFileEntry) (i off : Nat) (fp : List Nat) :
    updateFiles files i off 0 fp = some (fp, []) := by
  cases files with
  | nil => rw [updateFiles, if_pos rfl]
  | cons f rest => rw [updateFiles, if_pos rfl]

theorem updateFiles_spec (hfiles : st.files.drop i = files)
    (habut : Abut InternalFileEntry.offset InternalFileEntry.size start files)
    (hlo : start ≤ off) (hin : ∀ f ∈ files.head?, off < f.offset + f.size ∨ off = f.offset)
    (hhi : off + size ≤ start + (files.map InternalFileEntry.size).sum)
    (hfree : ∀ x, off ≤ x → x < off + size → marked x = false) (h : st.Counts marked fp) :
    ∃ fp' posted, updateFiles files i off size fp = some (fp', posted) ∧
      st.Counts (mark marked off size) fp' ∧
      st.Completes marked (mark marked off size) posted := by
  rcases Nat.eq_zero_or_pos size with rfl | hsize
  · rw [mark_zero]
    exact ⟨fp, [], updateFiles_zero _ _ _ _, h, completes_nil _ _⟩
  induction files generalizing i start off size marked fp with
  | nil =>
    rw [List.map_nil, List.sum_nil] at hhi
    omega
  | cons f rest ih =>
    obtain ⟨-, hrest⟩ := getElem?_of_drop_eq hfiles
    have hstart := habut.1
    have hplace := hin f rfl
    rw [List.map_cons, List.sum_cons] at hhi
    obtain ⟨add, hadd⟩ : ∃ add, add = min (f.size - (off - f.offset)) size := ⟨_, rfl⟩
    have hhead := counts_head h hfiles (show f.offset ≤ off by omega)
      (show off + add ≤ f.offset + f.size by omega) (fun x hlo hx => hfree x hlo (by omega))
    have hposted := updateFiles_head h hfiles (show f.offset ≤ off by omega)
      (show off + add ≤ f.offset + f.size by omega) (by omega)
      (fun x hlo hx => hfree x hlo (by omega))
    rw [updateFiles, if_neg (by omega)]
    simp only [← hadd, Option.bind_eq_bind]
    by_cases hlast : size - add = 0
    · rw [hlast, updateFiles_zero]
      rw [show add = size by omega] at hhead hposted ⊢
      refine ⟨_, _, rfl, hhead, ?_⟩
      rwa [List.append_nil]
    · obtain ⟨fp', posted, hupdate, hcounts, hmore⟩ := ih hrest habut.2
        (show start + f.size ≤ off + add by omega)
        (fun g hg => .inr (by
          cases rest with
          | nil => cases hg
          | cons g' rest' =>
            cases hg
            have := habut.2.1
            omega))
        (show off + add + (size - add) ≤ _ by omega)
        (fun x hlo hx => (mark_outside (by omega)).trans (hfree x (by omega) (by omega)))
        hhead (by omega)
      rw [mark_mark, show add + (size - add) = size by omega] at hcounts hmore
      rw [hupdate]
      refine ⟨fp', _, rfl, hcounts, hposted.append hmore ?_ ?_⟩
      · exact fun x hx => mark_eq_true.mpr (.inl hx)
      · intro x hx
        rw [mark_eq_true] at hx ⊢
        exact hx.imp_right fun h => by omega

/-- `update` adds a piece and completes the files that have all their bytes with it. -/
theorem update_progress_spec {p : Nat} (hfits : st.total_size ≤ fieldLimit)
    (hp : p < st.num_pieces) {have_piece : Nat → Bool} (hnew : have_piece p = false)
    (h : st.Counts (st.inPieces have_piece) fp) :
    ∃ fp' posted, st.update_progress p fp = some (fp', posted) ∧
      st.Counts (st.inPieces (Function.update have_piece p true)) fp' ∧
      st.Completes (st.inPieces have_piece) (st.inPieces (Function.update have_piece p true))
        posted := by
  obtain ⟨hbegin, hend⟩ := st.piece_size_eq hp
  obtain ⟨f, hf, hlo, hhi⟩ := st.file_index_at_offset_eq hbegin hfits
  have hne : fp ≠ [] := by
    intro hnil
    have hcount := h.getElem? hf
    rw [hnil] at hcount
    cases hcount
  have habut := st.abut.drop hf
  have hsum := st.sum_drop hf
  obtain ⟨fp', posted, hupdate, hcounts, hcompletes⟩ := updateFiles_spec rfl habut hlo
    (fun g hg => .inl (by
      rw [List.head?_drop, hf] at hg
      cases hg
      exact hhi))
    (show p * st.piece_length + (st.piece_size p).toNat ≤ _ by omega)
    (fun x hx hx' => by
      have hdiv : x / st.piece_length = p := div_piece_length.mpr (by omega)
      rw [FileStorage.inPieces, hdiv, hnew]) h
  have hmark : ∀ x < st.total_size,
      mark (st.inPieces have_piece) (p * st.piece_length) (st.piece_size p).toNat x =
        st.inPieces (Function.update have_piece p true) x := by
    intro x hx
    rw [mark_piece hp hx, FileStorage.inPieces, FileStorage.inPieces]
    by_cases hin : x / st.piece_length = p
    · rw [hin, Function.update_self, decide_eq_true rfl, Bool.or_true]
    · rw [Function.update_of_ne hin, decide_eq_false hin, Bool.or_false]
  refine ⟨fp', posted, ?_, counts_congr hcounts hmark, fun j g hg hpos => ?_⟩
  · rw [FileStorage.update_progress, if_neg hne]
    exact hupdate
  · rw [hcompletes j g hg hpos]
    have hbounds := (st.abut.bounds (List.mem_of_getElem? hg)).2
    rw [Nat.zero_add, ← st.total_eq] at hbounds
    have hfull : g.Full (mark (st.inPieces have_piece) (p * st.piece_length)
        (st.piece_size p).toNat) ↔ g.Full (st.inPieces (Function.update have_piece p true)) := by
      rw [InternalFileEntry.Full, InternalFileEntry.Full,
        countIn_congr fun x _ hx => hmark x (by omega)]
    refine if_congr ?_ rfl rfl
    rw [hfull]

end

/-! ## Every run -/

/-- The counts, and the pieces that have passed. -/
structure ProgressState where
  m_file_progress : List Nat
  have_piece : Nat → Bool

/-- A piece passes, and alerts are posted. -/
structure PieceLabel where
  piece : Nat
  posted : List Nat
  deriving DecidableEq, Repr

namespace ProgressState

def step (st : FileStorage) (s : ProgressState) (l : PieceLabel) : Option ProgressState :=
  if l.piece < st.num_pieces ∧ s.have_piece l.piece = false then
    match st.update_progress l.piece s.m_file_progress with
    | none => none
    | some (fp, posted) =>
        if posted = l.posted then some ⟨fp, Function.update s.have_piece l.piece true⟩ else none
  else none

variable {st : AcceptedStorage} {s₀ s : ProgressState}

/-- From the pieces that `init` finds, and whatever pieces pass in whatever order: the counts
are those of the bytes in pieces that have passed, `update` reads no file past the last one,
and for every non-empty file that is no pad file one alert is posted exactly if it was
completed on the way. -/
theorem file_progress_counts (st : AcceptedStorage) (hfits : st.total_size ≤ fieldLimit)
    (have_piece : Nat → Bool) :
    ∃ fp, st.init_progress have_piece = some fp ∧
      ∀ {tr : List PieceLabel} {s : ProgressState},
        run (step st.toFileStorage) ⟨fp, have_piece⟩ tr = some s →
        st.Counts (st.inPieces s.have_piece) s.m_file_progress ∧
        (∀ p < st.num_pieces, s.have_piece p = false →
          st.update_progress p s.m_file_progress ≠ none) ∧
        ∀ j g, st.files[j]? = some g → 0 < g.size → (tr.flatMap PieceLabel.posted).count j =
          if g.pad_file = false ∧ g.Full (st.inPieces s.have_piece) ∧
            ¬g.Full (st.inPieces have_piece) then 1 else 0 := by
  obtain ⟨fp, hinit, hcounts⟩ := init_progress_spec st have_piece
  refine ⟨fp, hinit, fun {tr s} hrun => ?_⟩
  have hinv : (∀ p, have_piece p = true → s.have_piece p = true) ∧
      st.Counts (st.inPieces s.have_piece) s.m_file_progress ∧
      st.Completes (st.inPieces have_piece) (st.inPieces s.have_piece)
        (tr.flatMap PieceLabel.posted) := by
    refine run_induction (motive := fun tr s => (∀ p, have_piece p = true → s.have_piece p = true) ∧
      st.Counts (st.inPieces s.have_piece) s.m_file_progress ∧
      st.Completes (st.inPieces have_piece) (st.inPieces s.have_piece)
        (tr.flatMap PieceLabel.posted)) ⟨fun p hp => hp, hcounts, completes_nil _ _⟩ ?_ hrun
    rintro tr s l s' - ⟨hmore, hcounts, hcompletes⟩ hstep
    rw [step] at hstep
    split at hstep
    · rename_i hl
      obtain ⟨fp', posted, hupdate, hcounts', hposted⟩ :=
        update_progress_spec hfits hl.1 hl.2 hcounts
      rw [hupdate] at hstep
      dsimp only at hstep
      split at hstep
      · rename_i heq
        cases hstep
        have hgrow : ∀ p, s.have_piece p = true →
            Function.update s.have_piece l.piece true p = true := by
          intro p hp
          by_cases hpl : p = l.piece
          · rw [hpl, Function.update_self]
          · rwa [Function.update_of_ne hpl]
        refine ⟨fun p hp => hgrow p (hmore p hp), hcounts', ?_⟩
        rw [List.flatMap_append, List.flatMap_singleton, ← heq]
        exact hcompletes.append hposted (fun x hx => hmore _ hx) (fun x hx => hgrow _ hx)
      · cases hstep
    · cases hstep
  refine ⟨hinv.2.1, fun p hp hnew => ?_, hinv.2.2⟩
  obtain ⟨fp', posted, hupdate, -⟩ := update_progress_spec hfits hp hnew hinv.2.1
  rw [hupdate]
  exact Option.some_ne_none _

/-- The last piece passes before the middle one; an empty file is reported with its piece. -/
def spreadRun : List PieceLabel := [⟨0, [0, 1]⟩, ⟨2, []⟩, ⟨1, [2]⟩]

def spreadEnd : ProgressState where
  m_file_progress := [3, 0, 6]
  have_piece := Function.update (Function.update (Function.update (fun _ => false) 0 true) 2 true)
    1 true

theorem file_progress_counts_spread :
    spread.Counts (spread.inPieces spreadEnd.have_piece) spreadEnd.m_file_progress ∧
      (spreadRun.flatMap PieceLabel.posted).count 2 = 1 := by
  obtain ⟨fp, hinit, hcounts⟩ := file_progress_counts spread (by decide) fun _ => false
  obtain rfl : [0, 0, 0] = fp := Option.some.inj hinit
  obtain ⟨hend, -, hposted⟩ := hcounts (show run (step spread.toFileStorage)
    ⟨[0, 0, 0], fun _ => false⟩ spreadRun = some spreadEnd from rfl)
  exact ⟨hend, (hposted 2 _ rfl (by decide)).trans (if_pos (by decide))⟩

end ProgressState

end TorrentApp.Torrent
