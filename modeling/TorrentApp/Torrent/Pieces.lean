import Mathlib.Data.List.FinRange
import TorrentApp.Torrent.FileStorage

set_option autoImplicit false

/-!
# The pieces of a file

`firstPiece` and `lastPiece` of a `BTFile` divide the positions of its first and
last byte by the piece length, and tile the torrent.  `endPiece` of its
`BTFilePiecesInfo` divides the size instead and adds the start piece, which is the
same piece only for some alignments of the file.
-/

namespace TorrentApp.Torrent

open TorrentApp.Foundation

/-! ## `map_file` on an accepted storage -/

namespace AcceptedStorage

variable (st : AcceptedStorage)

/-- Every file lies inside the torrent. -/
theorem file_end_le (i : Fin st.num_files) :
    (st.files.get i).offset + (st.files.get i).size ≤ st.total_size := by
  have h := (st.abut.bounds (List.get_mem st.files i)).2
  rwa [Nat.zero_add, ← st.total_eq] at h

theorem div_lt_num_pieces {x : Nat} (hx : x < st.total_size) :
    x / st.piece_length < st.num_pieces := by
  rw [st.num_pieces_eq]
  exact div_lt_block_count st.piece_length_pos hx

theorem num_pieces_of_pos (h : 0 < st.total_size) :
    st.num_pieces = (st.total_size - 1) / st.piece_length + 1 := by
  rw [st.num_pieces_eq, block_count st.piece_length_pos h]

theorem num_pieces_of_empty (h : st.total_size = 0) : st.num_pieces = 0 := by
  rw [st.num_pieces_eq, h, Nat.zero_add]
  exact Nat.div_eq_of_lt (Nat.sub_lt st.piece_length_pos Nat.one_pos)

/-- A position inside the torrent is divided by the piece length. -/
theorem map_file_inside (i : Fin st.num_files) (file_offset : Nat) (size : Int)
    (h : file_offset + (st.files.get i).offset < st.total_size) :
    st.map_file i file_offset size =
      { piece := ((file_offset + (st.files.get i).offset) / st.piece_length : Nat)
        start := ((file_offset + (st.files.get i).offset) % st.piece_length : Nat)
        length :=
          if (st.total_size : Int) < (file_offset + (st.files.get i).offset : Nat) + size then
            toInt (st.total_size - (file_offset + (st.files.get i).offset) : Nat)
          else size } := by
  have hfile : st.files[(i : Nat)]? = some (st.files.get i) := List.getElem?_eq_getElem i.isLt
  have hpiece := (st.div_lt_num_pieces h).trans st.num_pieces_int
  have hstart := (Nat.mod_lt (file_offset + (st.files.get i).offset) st.piece_length_pos).trans
    st.piece_length_int
  simp only [FileStorage.map_file, hfile, if_neg (Nat.not_le_of_lt h), toInt_natCast hpiece,
    toInt_natCast hstart]

/-- A position at the end of the torrent has no piece. -/
theorem map_file_past (i : Fin st.num_files) (file_offset : Nat) (size : Int)
    (h : st.total_size ≤ file_offset + (st.files.get i).offset) :
    st.map_file i file_offset size = ⟨st.num_pieces, 0, 0⟩ := by
  have hfile : st.files[(i : Nat)]? = some (st.files.get i) := List.getElem?_eq_getElem i.isLt
  simp only [FileStorage.map_file, hfile, if_pos h]

end AcceptedStorage

/-! ## `firstPiece` and `lastPiece` -/

/-- The non-empty files of a storage, in order, by their indices. -/
def nonEmptyFiles (st : FileStorage) : List (Fin st.num_files) :=
  (List.finRange st.num_files).filter fun i => 0 < (st.files.get i).size

theorem mem_nonEmptyFiles {st : FileStorage} {i : Fin st.num_files} :
    i ∈ nonEmptyFiles st ↔ 0 < (st.files.get i).size := by
  simp only [nonEmptyFiles, List.mem_filter, List.mem_finRange, true_and, decide_eq_true_eq]

/-- What an index says of its file, file by file. -/
theorem map_finRange_files {α : Type*} (st : FileStorage) (g : InternalFileEntry → α) :
    ((List.finRange st.num_files).map fun i => g (st.files.get i)) = st.files.map g := by
  exact List.ofFn_eq_map.symm.trans (List.ofFn_getElem_eq_map st.files g)

variable (st : AcceptedStorage)

theorem abut_nonEmptyFiles :
    Abut (fun i : Fin st.num_files => (st.files.get i).offset)
      (fun i => (st.files.get i).size) 0 (nonEmptyFiles st.toFileStorage) := by
  have hsame := map_finRange_files st.toFileStorage fun e => (e.offset, e.size)
  exact (st.abut.of_map_eq hsame.symm).filter_pos

theorem sum_sizes_nonEmptyFiles :
    ((nonEmptyFiles st.toFileStorage).map fun i => (st.files.get i).size).sum =
      st.total_size := by
  calc ((nonEmptyFiles st.toFileStorage).map fun i => (st.files.get i).size).sum
      = ((List.finRange st.num_files).map fun i => (st.files.get i).size).sum :=
        sum_filter_pos (List.finRange st.num_files)
    _ = (st.files.map InternalFileEntry.size).sum :=
        congrArg List.sum (map_finRange_files st.toFileStorage InternalFileEntry.size)
    _ = st.total_size := st.total_eq.symm

variable {st}

theorem firstPiece_inside {i : Fin st.num_files}
    (hin : (st.files.get i).offset < st.total_size) :
    (BTFile.initWithFileStorage st.toFileStorage i).firstPiece =
      ((st.files.get i).offset / st.piece_length : Nat) := by
  change (st.map_file i 0 0).piece = _
  rw [st.map_file_inside i _ 0 (by omega), Nat.zero_add]

theorem lastPiece_inside {i : Fin st.num_files}
    (hin : (st.files.get i).offset < st.total_size) :
    (BTFile.initWithFileStorage st.toFileStorage i).lastPiece =
      (((st.files.get i).offset + ((st.files.get i).size - 1)) / st.piece_length : Nat) := by
  have hend := st.file_end_le i
  change (st.map_file i ((st.files.get i).size - 1) 0).piece = _
  rw [st.map_file_inside i _ 0 (by omega), Nat.add_comm]

/-- A non-empty file starts in the piece of its first byte and ends in that of its
last. -/
theorem firstPiece_lastPiece_of_pos {i : Fin st.num_files} (hpos : 0 < (st.files.get i).size) :
    (BTFile.initWithFileStorage st.toFileStorage i).firstPiece =
        ((st.files.get i).offset / st.piece_length : Nat) ∧
      (BTFile.initWithFileStorage st.toFileStorage i).lastPiece =
        (((st.files.get i).offset + (st.files.get i).size - 1) / st.piece_length : Nat) := by
  have hend := st.file_end_le i
  have hin : (st.files.get i).offset < st.total_size := by omega
  refine ⟨firstPiece_inside hin, ?_⟩
  rw [lastPiece_inside hin, Nat.add_sub_assoc hpos]

/-- The pieces from `firstPiece` to `lastPiece`. -/
def BTFile.pieces (b : BTFile) : Set Int := {p | b.firstPiece ≤ p ∧ p ≤ b.lastPiece}

/-- What the `firstPiece` and `lastPiece` that `initWithFileStorage:index:` computes
say of the storage's files, whose pieces they are to tile. -/
structure Tiles (st : FileStorage) : Prop where
  /-- from `firstPiece` to `lastPiece` lie the pieces that the file's bytes meet -/
  span : ∀ i, 0 < (st.files.get i).size →
    (BTFile.initWithFileStorage st i).pieces = Set.image (Nat.cast : Nat → Int)
      {p | (block st.piece_length p ∩ Set.Ico (st.files.get i).offset
        ((st.files.get i).offset + (st.files.get i).size)).Nonempty}
  first : ∀ i, (nonEmptyFiles st).head? = some i →
    (BTFile.initWithFileStorage st i).firstPiece = 0
  last : ∀ i, (nonEmptyFiles st).getLast? = some i →
    (BTFile.initWithFileStorage st i).lastPiece = (st.num_pieces : Int) - 1
  next : ∀ k i j, (nonEmptyFiles st)[k]? = some i → (nonEmptyFiles st)[k + 1]? = some j →
    (BTFile.initWithFileStorage st j).firstPiece = (BTFile.initWithFileStorage st i).lastPiece ∨
      (BTFile.initWithFileStorage st j).firstPiece =
        (BTFile.initWithFileStorage st i).lastPiece + 1
  covered : ∀ p : Int, 0 ≤ p → p < st.num_pieces →
    ∃ i, 0 < (st.files.get i).size ∧ p ∈ (BTFile.initWithFileStorage st i).pieces
  shared : ∀ k i j, (nonEmptyFiles st)[k]? = some i → (nonEmptyFiles st)[k + 1]? = some j →
    ((BTFile.initWithFileStorage st i).pieces ∩
      (BTFile.initWithFileStorage st j).pieces).Subsingleton

theorem span_of_pos {i : Fin st.num_files} (hpos : 0 < (st.files.get i).size) :
    (BTFile.initWithFileStorage st.toFileStorage i).pieces = Set.image (Nat.cast : Nat → Int)
      {p | (block st.piece_length p ∩ Set.Ico (st.files.get i).offset
        ((st.files.get i).offset + (st.files.get i).size)).Nonempty} := by
  obtain ⟨hfirst, hlast⟩ := firstPiece_lastPiece_of_pos hpos
  ext p
  rw [BTFile.pieces, Set.mem_ofPred_eq, hfirst, hlast]
  constructor
  · rintro ⟨hlo, hhi⟩
    lift p to Nat using (Int.natCast_nonneg _).trans hlo
    refine ⟨p, (block_meets_iff st.piece_length_pos hpos p).mpr ?_, rfl⟩
    exact ⟨by exact_mod_cast hlo, by exact_mod_cast hhi⟩
  · rintro ⟨n, hmeets, rfl⟩
    obtain ⟨hlo, hhi⟩ := (block_meets_iff st.piece_length_pos hpos n).mp hmeets
    exact ⟨by exact_mod_cast hlo, by exact_mod_cast hhi⟩

theorem next_firstPiece {k : Nat} {i j : Fin st.num_files}
    (hi : (nonEmptyFiles st.toFileStorage)[k]? = some i)
    (hj : (nonEmptyFiles st.toFileStorage)[k + 1]? = some j) :
    (BTFile.initWithFileStorage st.toFileStorage j).firstPiece =
        (BTFile.initWithFileStorage st.toFileStorage i).lastPiece ∨
      (BTFile.initWithFileStorage st.toFileStorage j).firstPiece =
        (BTFile.initWithFileStorage st.toFileStorage i).lastPiece + 1 := by
  have hposi := mem_nonEmptyFiles.mp (List.mem_of_getElem? hi)
  have hposj := mem_nonEmptyFiles.mp (List.mem_of_getElem? hj)
  obtain ⟨hk, rfl⟩ := List.getElem?_eq_some_iff.mp hj
  obtain ⟨_, rfl⟩ := List.getElem?_eq_some_iff.mp hi
  have hadjacent := (abut_nonEmptyFiles st).next hk
  rw [(firstPiece_lastPiece_of_pos hposj).1, (firstPiece_lastPiece_of_pos hposi).2, hadjacent]
  rcases block_after hposi with hsame | hsucc
  · left
    rw [hsame]
  · right
    rw [hsucc]
    rfl

/-- The first and the last piece of the files, in order, cover the torrent's pieces,
and a piece is shared by neighbours only. -/
theorem firstPiece_lastPiece_tile (st : AcceptedStorage) : Tiles st.toFileStorage where
  span i hpos := span_of_pos hpos
  first i hi := by
    have hpos := mem_nonEmptyFiles.mp (List.mem_of_mem_head? hi)
    have hzero := (abut_nonEmptyFiles st).head hi
    rw [(firstPiece_lastPiece_of_pos hpos).1, hzero, Nat.zero_div]
    rfl
  last i hi := by
    have hpos := mem_nonEmptyFiles.mp (List.mem_of_mem_getLast? hi)
    have hend := ((abut_nonEmptyFiles st).last hi).trans
      ((Nat.zero_add _).trans (sum_sizes_nonEmptyFiles st))
    have hcount := st.num_pieces_of_pos (by omega)
    rw [(firstPiece_lastPiece_of_pos hpos).2, hend, hcount]
    push_cast
    omega
  next k i j hi hj := next_firstPiece hi hj
  covered p hlo hhi := by
    lift p to Nat using hlo
    have hp : p < st.num_pieces := by exact_mod_cast hhi
    have hplace : p * st.piece_length < st.total_size := by
      rw [st.num_pieces_eq, Nat.lt_div_iff_mul_lt st.piece_length_pos] at hp
      omega
    -- the file that holds the first byte of the piece
    have hline := (Nat.zero_add _).trans (sum_sizes_nonEmptyFiles st)
    obtain ⟨i, hi, hin⟩ := (abut_nonEmptyFiles st).covers (Nat.zero_le _)
      (hplace.trans_eq hline.symm)
    have hpos := mem_nonEmptyFiles.mp hi
    refine ⟨i, hpos, ?_⟩
    rw [span_of_pos hpos]
    refine ⟨p, ⟨p * st.piece_length, ?_, hin⟩, rfl⟩
    exact (mem_block_iff st.piece_length_pos).mpr (Nat.mul_div_cancel p st.piece_length_pos)
  shared k i j hi hj := by
    rintro p ⟨⟨-, hpi⟩, ⟨hpj, -⟩⟩ q ⟨⟨-, hqi⟩, ⟨hqj, -⟩⟩
    rcases next_firstPiece hi hj with hsame | hsucc
    · omega
    · omega

/-! ## `piecesInfo` -/

/-- The two piece spans of a file agree. -/
structure SpansAgree (st : FileStorage) (b : BTFile) : Prop where
  startPiece : b.piecesInfo.startPiece = b.firstPiece
  endPiece : b.piecesInfo.endPiece = b.lastPiece
  startPieceOffset :
    b.piecesInfo.startPieceOffset + b.piecesInfo.startPiece * st.piece_length = b.offset
  length : b.piecesInfo.length = b.size
  bounds : 1 ≤ st.num_pieces → 0 ≤ b.piecesInfo.startPiece ∧
    b.piecesInfo.startPiece ≤ b.piecesInfo.endPiece ∧ b.piecesInfo.endPiece < st.num_pieces

/-- The file starts before the torrent's end, its size is an `int`, and the two
remainders by the piece length fill one piece at most. -/
def Aligned (st : FileStorage) (file : InternalFileEntry) : Prop :=
  file.offset < st.total_size ∧ file.size < 2 ^ 31 ∧
    (file.size = 0 ∨
      0 < file.offset % st.piece_length + file.size % st.piece_length ∧
        file.offset % st.piece_length + file.size % st.piece_length ≤ st.piece_length)

instance (st : FileStorage) (file : InternalFileEntry) : Decidable (Aligned st file) :=
  inferInstanceAs (Decidable (_ ∧ _ ∧ (_ ∨ _ ∧ _)))

/-- The length that `map_file` answers is an `int`. -/
theorem length_map_file_range (st : FileStorage) (i file_offset : Nat) {size : Int}
    (hlo : -2 ^ 31 ≤ size) (hhi : size < 2 ^ 31) :
    -2 ^ 31 ≤ (st.map_file i file_offset size).length ∧
      (st.map_file i file_offset size).length < 2 ^ 31 := by
  have hzero : (-2 ^ 31 : Int) ≤ 0 ∧ (0 : Int) < 2 ^ 31 := by decide
  rw [FileStorage.map_file]
  split
  · exact hzero
  · dsimp only
    split
    · exact hzero
    · dsimp only
      split
      · exact ⟨le_toInt _, toInt_lt _⟩
      · exact ⟨hlo, hhi⟩

/-- From the start of a file on, `map_file` answers no more bytes than there are. -/
theorem length_map_file_le (i : Fin st.num_files) (size : Int)
    (hin : (st.files.get i).offset < st.total_size) :
    (st.map_file i 0 size).length ≤ (st.total_size - (st.files.get i).offset : Nat) := by
  rw [st.map_file_inside i 0 size (by omega), Nat.zero_add]
  dsimp only
  split
  · exact toInt_natCast_le _
  · omega

/-- The sum in `initWithPeerRequest:` does not overflow. -/
theorem endPiece_range (i : Fin st.num_files) :
    -2 ^ 31 ≤ (BTFile.initWithFileStorage st.toFileStorage i).piecesInfo.endPiece ∧
      (BTFile.initWithFileStorage st.toFileStorage i).piecesInfo.endPiece < 2 ^ 31 := by
  have hcount := st.num_pieces_int
  let length := (st.map_file i 0 (toInt (st.files.get i).size)).length
  change -2 ^ 31 ≤ (st.map_file i 0 (toInt (st.files.get i).size)).piece +
      length.tdiv st.piece_length ∧
    (st.map_file i 0 (toInt (st.files.get i).size)).piece + length.tdiv st.piece_length < 2 ^ 31
  rcases Nat.lt_or_ge (st.files.get i).offset st.total_size with hin | hpast
  · have hpiece : (st.map_file i 0 (toInt (st.files.get i).size)).piece =
        ((st.files.get i).offset / st.piece_length : Nat) := by
      rw [st.map_file_inside i 0 _ (by omega), Nat.zero_add]
    have hlo : -2 ^ 31 ≤ length.tdiv st.piece_length := by
      have habs := Int.natAbs_tdiv_le_natAbs length st.piece_length
      have hrange := length_map_file_range st.toFileStorage i 0
        (le_toInt (st.files.get i).size) (toInt_lt (st.files.get i).size)
      omega
    have hhi : length.tdiv st.piece_length ≤
        ((st.total_size - (st.files.get i).offset) / st.piece_length : Nat) := by
      rw [Int.ofNat_tdiv]
      exact Int.tdiv_le_tdiv (Int.ofNat_lt.mpr st.piece_length_pos)
        (length_map_file_le i _ hin)
    have hsum : (st.files.get i).offset / st.piece_length +
        (st.total_size - (st.files.get i).offset) / st.piece_length ≤ st.num_pieces := by
      calc (st.files.get i).offset / st.piece_length +
            (st.total_size - (st.files.get i).offset) / st.piece_length
          ≤ ((st.files.get i).offset + (st.total_size - (st.files.get i).offset)) /
              st.piece_length := Nat.div_add_div_le_add_div
        _ = st.total_size / st.piece_length := by rw [Nat.add_sub_cancel' hin.le]
        _ ≤ (st.total_size + st.piece_length - 1) / st.piece_length :=
            Nat.div_le_div_right (by have := st.piece_length_pos; omega)
        _ = st.num_pieces := st.num_pieces_eq.symm
    have hfirst := Int.natCast_nonneg ((st.files.get i).offset / st.piece_length)
    rw [hpiece]
    omega
  · have hmap := st.map_file_past i 0 (toInt (st.files.get i).size) (by omega)
    have hlength : length = 0 := congrArg PeerRequest.length hmap
    rw [hmap, hlength, Int.zero_tdiv]
    dsimp only
    omega

/-- In an empty torrent every span is empty at piece 0. -/
theorem spansAgree_of_empty {i : Fin st.num_files} (h : st.total_size = 0) :
    SpansAgree st.toFileStorage (BTFile.initWithFileStorage st.toFileStorage i) := by
  have hend := st.file_end_le i
  have hzero := st.num_pieces_of_empty h
  have hsize : (st.files.get i).size = 0 := by omega
  have hoffset : (st.files.get i).offset = 0 := by omega
  have hmap := fun k size => st.map_file_past i k size (by omega)
  constructor
  · simp only [BTFile.initWithFileStorage, BTFilePiecesInfo.initWithPeerRequest, hmap]
  · simp only [BTFile.initWithFileStorage, BTFilePiecesInfo.initWithPeerRequest, hmap,
      Int.zero_tdiv, add_zero]
  · simp only [BTFile.initWithFileStorage, BTFilePiecesInfo.initWithPeerRequest, hmap, hzero,
      hoffset, Nat.cast_zero, zero_mul, add_zero]
  · simp only [BTFile.initWithFileStorage, BTFilePiecesInfo.initWithPeerRequest, hmap, hsize,
      Nat.cast_zero]
  · intro hone
    omega

/-- What a file inside the torrent shows, when its size is an `int`. -/
theorem piecesInfo_inside {i : Fin st.num_files} (hin : (st.files.get i).offset < st.total_size)
    (hsize : (st.files.get i).size < 2 ^ 31) :
    (BTFile.initWithFileStorage st.toFileStorage i).piecesInfo =
      { startPiece := ((st.files.get i).offset / st.piece_length : Nat)
        endPiece := ((st.files.get i).offset / st.piece_length +
          (st.files.get i).size / st.piece_length : Nat)
        startPieceOffset := ((st.files.get i).offset % st.piece_length : Nat)
        length := (st.files.get i).size } := by
  have hend := st.file_end_le i
  have hmap := st.map_file_inside i 0 (st.files.get i).size
    (by rw [Nat.zero_add]; exact hin)
  rw [Nat.zero_add, if_neg (by omega)] at hmap
  simp only [BTFile.initWithFileStorage, toInt_natCast hsize, hmap,
    BTFilePiecesInfo.initWithPeerRequest, Int.ofNat_tdiv]
  push_cast
  rfl

/-- `endPiece` is `lastPiece` where the remainders fill one piece at most. -/
theorem endPiece_eq_lastPiece_iff (offset size : Nat) :
    offset / st.piece_length + size / st.piece_length =
        (offset + (size - 1)) / st.piece_length ↔
      size = 0 ∨ 0 < offset % st.piece_length + size % st.piece_length ∧
        offset % st.piece_length + size % st.piece_length ≤ st.piece_length := by
  rcases Nat.eq_zero_or_pos size with rfl | hpos
  · simp
  · rw [← Nat.add_sub_assoc hpos, div_add_div_eq_iff st.piece_length_pos hpos]
    simp only [Nat.ne_of_gt hpos, false_or]

variable {i : Fin st.num_files}

/-- A file behind the last byte is shown at a piece that there is not. -/
theorem offset_lt_of_spansAgree (hpos : 0 < st.total_size)
    (h : SpansAgree st.toFileStorage (BTFile.initWithFileStorage st.toFileStorage i)) :
    (st.files.get i).offset < st.total_size := by
  by_contra hnot
  have hmap := st.map_file_past i 0 (toInt (st.files.get i).size) (by omega)
  have hone : 1 ≤ st.num_pieces := by
    rw [st.num_pieces_of_pos hpos]
    exact Nat.le_add_left 1 _
  obtain ⟨-, hle, hlt⟩ := h.bounds hone
  have hstart : (BTFile.initWithFileStorage st.toFileStorage i).piecesInfo.startPiece =
      st.num_pieces := congrArg PeerRequest.piece hmap
  omega

/-- A size that is no `int` is not shown. -/
theorem size_lt_of_spansAgree
    (h : SpansAgree st.toFileStorage (BTFile.initWithFileStorage st.toFileStorage i)) :
    (st.files.get i).size < 2 ^ 31 := by
  have hlength : (st.map_file i 0 (toInt (st.files.get i).size)).length =
      (st.files.get i).size := h.length
  have hlt := (length_map_file_range st.toFileStorage i 0
    (le_toInt (st.files.get i).size) (toInt_lt (st.files.get i).size)).2
  omega

theorem spansAgree_of_aligned (h : Aligned st.toFileStorage (st.files.get i)) :
    SpansAgree st.toFileStorage (BTFile.initWithFileStorage st.toFileStorage i) := by
  obtain ⟨hin, hsize, halign⟩ := h
  have hend := st.file_end_le i
  have hinfo := piecesInfo_inside hin hsize
  have hsame := (endPiece_eq_lastPiece_iff _ _).mpr halign
  have hlast : ((st.files.get i).offset + ((st.files.get i).size - 1)) / st.piece_length <
      st.num_pieces := by
    apply st.div_lt_num_pieces
    omega
  constructor
  · rw [hinfo, firstPiece_inside hin]
  · rw [hinfo, lastPiece_inside hin]
    exact congrArg Nat.cast hsame
  · have hplace := Nat.mod_add_div' (st.files.get i).offset st.piece_length
    rw [hinfo]
    change ((_ : Nat) : Int) + ((_ : Nat) : Int) * _ = ((st.files.get i).offset : Int)
    exact_mod_cast hplace
  · rw [hinfo]
    rfl
  · intro _
    rw [hinfo]
    refine ⟨Int.natCast_nonneg _, ?_, ?_⟩
    · exact Int.ofNat_le.mpr (Nat.le_add_right _ _)
    · rw [hsame]
      exact Int.ofNat_lt.mpr hlast

/-- The two spans agree in an empty torrent and for an aligned file, and for no other. -/
theorem spansAgree_iff (st : AcceptedStorage) (i : Fin st.num_files) :
    SpansAgree st.toFileStorage (BTFile.initWithFileStorage st.toFileStorage i) ↔
      st.total_size = 0 ∨ Aligned st.toFileStorage (st.files.get i) := by
  constructor
  · intro h
    rcases Nat.eq_zero_or_pos st.total_size with hzero | hpos
    · left
      exact hzero
    · right
      have hin := offset_lt_of_spansAgree hpos h
      have hsize := size_lt_of_spansAgree h
      have hsame := h.endPiece
      rw [piecesInfo_inside hin hsize, lastPiece_inside hin, Int.natCast_inj] at hsame
      exact ⟨hin, hsize, (endPiece_eq_lastPiece_iff _ _).mp hsame⟩
  · rintro (hzero | haligned)
    · exact spansAgree_of_empty hzero
    · exact spansAgree_of_aligned haligned

/-- A torrent of one piece and one file that fills it. -/
def onePiece : AcceptedStorage where
  piece_length := 16384
  num_pieces := 1
  files := [⟨"cover.png", 0, 16384, false, false, false⟩]
  total_size := 16384
  piece_length_pos := by decide
  piece_length_int := by decide
  abut := ⟨rfl, trivial⟩
  total_eq := rfl
  size_field := by decide
  num_pieces_eq := rfl
  num_pieces_int := by decide

/-- A file that ends where a piece ends has an `endPiece` behind its `lastPiece`. -/
theorem spans_disagree_onePiece :
    ¬ SpansAgree onePiece.toFileStorage
      (BTFile.initWithFileStorage onePiece.toFileStorage ⟨0, by decide⟩) := by
  intro h
  exact absurd h.endPiece (by decide)

end TorrentApp.Torrent
