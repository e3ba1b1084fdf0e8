import TorrentApp.Torrent.Pieces

set_option autoImplicit false

/-!
# The slices of a block

A block of a piece lies in one file or in several.  `map_block` cuts it into the
slices of the files it meets, and `map_file` takes a slice back to its piece.
-/

namespace TorrentApp.Torrent

open TorrentApp.Foundation

/-! ## Pieces -/

/-- `file_storage::piece_size`. -/
def FileStorage.piece_size (st : FileStorage) (index : Nat) : Int :=
  if (index : Int) = st.num_pieces - 1 then
    toInt (st.total_size - ((st.num_pieces : Int) - 1) * st.piece_length)
  else st.piece_length

/-! ## Slices -/

/-- `file_slice`. -/
structure FileSlice where
  file_index : Nat
  offset : Nat
  size : Nat
  deriving DecidableEq, Repr

/-- `std::upper_bound` with `compare_file_offset`: the first file behind `offset`. -/
def FileStorage.upper_bound (st : FileStorage) (offset : Nat) : Nat :=
  st.files.findIdx fun f => decide (offset < f.offset)

/-- `file_storage::file_index_at_offset`; the target is an `internal_file_entry`. -/
def FileStorage.file_index_at_offset (st : FileStorage) (offset : Nat) : Nat :=
  st.upper_bound (offset % fieldLimit) - 1

/-- The loop of `map_block` from the `i`th file on, `file_offset` into it. -/
def mapSlices : List InternalFileEntry → Nat → Nat → Nat → List FileSlice
  | [], _, _, _ => []
  | f :: rest, i, file_offset, size =>
      if size = 0 then []
      else if file_offset < f.size then
        let n := min (f.size - file_offset) size
        ⟨i, file_offset, n⟩ :: mapSlices rest (i + 1) (file_offset + n - f.size) (size - n)
      else mapSlices rest (i + 1) (file_offset - f.size) size

/-- `file_storage::map_block`. -/
def FileStorage.map_block (st : FileStorage) (piece offset size : Nat) : List FileSlice :=
  if st.files = [] then []
  else
    let target := (piece * st.piece_length + offset) % fieldLimit
    -- in case the size is past the end
    let size := if st.total_size < target + size then st.total_size - target else size
    let start := st.upper_bound target - 1
    match st.files.drop start with
    | [] => []
    | f :: rest => mapSlices (f :: rest) start (target - f.offset) size

/-- The slices lie one behind the other and fill the places from `first` to `last`. -/
def Fills (st : FileStorage) : Nat → List FileSlice → Nat → Prop
  | first, [], last => first = last
  | first, slice :: rest, last =>
      (∃ f, st.files[slice.file_index]? = some f ∧ f.offset + slice.offset = first ∧
        slice.offset + slice.size ≤ f.size) ∧
      0 < slice.size ∧ Fills st (first + slice.size) rest last

theorem getElem?_of_drop_eq {α : Type} {l rest : List α} {i : Nat} {x : α}
    (h : l.drop i = x :: rest) : l[i]? = some x ∧ l.drop (i + 1) = rest := by
  constructor
  · rw [← List.head?_drop, h]
    rfl
  · rw [← List.drop_drop, h]
    rfl

theorem mapSlices_fills {st : FileStorage} {files : List InternalFileEntry}
    {i start file_offset size : Nat} (hfiles : st.files.drop i = files)
    (habut : Abut InternalFileEntry.offset InternalFileEntry.size start files)
    (hfits : file_offset + size ≤ (files.map InternalFileEntry.size).sum) :
    Fills st (start + file_offset) (mapSlices files i file_offset size)
      (start + file_offset + size) := by
  induction files generalizing i start file_offset size with
  | nil =>
    simp only [List.map_nil, List.sum_nil] at hfits
    rw [mapSlices, Fills]
    omega
  | cons f rest ih =>
    obtain ⟨hf, hrest⟩ := getElem?_of_drop_eq hfiles
    have hstart := habut.1
    rw [List.map_cons, List.sum_cons] at hfits
    rw [mapSlices]
    split
    · rename_i hsize
      rw [hsize]
      rfl
    · split
      · rename_i hsize hin
        refine ⟨⟨f, hf, by rw [hstart], ?_⟩, ?_, ?_⟩
        · dsimp only
          omega
        · dsimp only
          omega
        · dsimp only
          by_cases hmore : f.size - file_offset ≤ size
          · rw [Nat.min_eq_left hmore]
            have hnext : Fills st (start + f.size + 0)
                (mapSlices rest (i + 1) 0 (size - (f.size - file_offset)))
                (start + f.size + 0 + (size - (f.size - file_offset))) :=
              ih hrest habut.2 (by omega)
            rw [show file_offset + (f.size - file_offset) - f.size = 0 by omega]
            rw [show start + f.size + 0 = start + file_offset + (f.size - file_offset) by omega,
              show start + file_offset + (f.size - file_offset) + (size - (f.size - file_offset)) =
                start + file_offset + size by omega] at hnext
            exact hnext
          · rw [Nat.min_eq_right (by omega), Nat.sub_self]
            cases rest <;> exact rfl
      · rename_i hsize hpast
        have hnext : Fills st (start + f.size + (file_offset - f.size))
            (mapSlices rest (i + 1) (file_offset - f.size) size)
            (start + f.size + (file_offset - f.size) + size) :=
          ih hrest habut.2 (by omega)
        rwa [show start + f.size + (file_offset - f.size) = start + file_offset by omega] at hnext

namespace AcceptedStorage

variable (st : AcceptedStorage)

/-- The files from one on end where the torrent does. -/
theorem sum_drop {k : Nat} {f : InternalFileEntry} (hf : st.files[k]? = some f) :
    f.offset + ((st.files.drop k).map InternalFileEntry.size).sum = st.total_size := by
  have hdrop := st.abut.drop hf
  have hne : st.files.drop k ≠ [] := by
    intro hnil
    have hhead := congrArg List.head? hnil
    rw [List.head?_drop, hf] at hhead
    cases hhead
  obtain ⟨g, hg⟩ := Option.ne_none_iff_exists'.mp
    (fun h => hne (List.getLast?_eq_none_iff.mp h))
  have hlast := hdrop.last hg
  have hgAll : st.files.getLast? = some g := by
    rw [← List.take_append_drop k st.files, List.getLast?_append, hg]
    rfl
  have hend := st.abut.last hgAll
  rw [Nat.zero_add, ← st.total_eq] at hend
  omega

/-- The file that a place lies in. -/
theorem upper_bound_eq {x : Nat} (hx : x < st.total_size) :
    ∃ k f, st.upper_bound x = k + 1 ∧ st.files[k]? = some f ∧ f.offset ≤ x ∧
      x < f.offset + f.size := by
  have hsum : x < 0 + (st.files.map InternalFileEntry.size).sum := by
    rw [Nat.zero_add, ← st.total_eq]
    exact hx
  exact st.abut.findIdx (Nat.zero_le x) hsum

theorem file_index_at_offset_eq {x : Nat} (hx : x < st.total_size)
    (hfits : st.total_size ≤ fieldLimit) :
    ∃ f, st.files[st.file_index_at_offset x]? = some f ∧ f.offset ≤ x ∧ x < f.offset + f.size := by
  obtain ⟨k, f, hk, hf, hlo, hhi⟩ := st.upper_bound_eq hx
  refine ⟨f, ?_, hlo, hhi⟩
  rw [FileStorage.file_index_at_offset, Nat.mod_eq_of_lt (by omega), hk, Nat.add_sub_cancel]
  exact hf

end AcceptedStorage

/-- `map_block` fills the block, as far as the torrent reaches, with slices of its files. -/
theorem map_block_fills (st : AcceptedStorage) {piece offset : Nat} (size : Nat)
    (hfits : st.total_size ≤ fieldLimit)
    (hin : piece * st.piece_length + offset < st.total_size) :
    Fills st.toFileStorage (piece * st.piece_length + offset) (st.map_block piece offset size)
      (min (piece * st.piece_length + offset + size) st.total_size) := by
  generalize htarget : piece * st.piece_length + offset = target at *
  obtain ⟨k, f, hk, hf, hlo, hhi⟩ := st.upper_bound_eq hin
  have habut := st.abut.drop hf
  have hsum := st.sum_drop hf
  have hne : st.files ≠ [] := by
    intro hnil
    rw [hnil] at hf
    cases hf
  obtain ⟨rest, hrest⟩ : ∃ rest, st.files.drop k = f :: rest := by
    cases hdrop : st.files.drop k with
    | nil =>
      rw [← List.head?_drop, hdrop] at hf
      cases hf
    | cons g rest =>
      rw [← List.head?_drop, hdrop] at hf
      exact ⟨rest, by rw [Option.some.inj hf]⟩
  obtain ⟨n, hn⟩ : ∃ n, n = if st.total_size < target + size then st.total_size - target
    else size := ⟨_, rfl⟩
  have hblock : st.map_block piece offset size = mapSlices (f :: rest) k (target - f.offset) n := by
    simp only [FileStorage.map_block, if_neg hne, htarget,
      Nat.mod_eq_of_lt (show target < fieldLimit by omega), hk, Nat.add_sub_cancel, hrest, ← hn]
  rw [hrest] at habut hsum
  have hroom : target - f.offset + n ≤ ((f :: rest).map InternalFileEntry.size).sum := by
    rw [hn]
    split <;> omega
  have hfill := mapSlices_fills hrest habut hroom
  rw [show f.offset + (target - f.offset) = target by omega] at hfill
  rw [hblock]
  rwa [show min (target + size) st.total_size = target + n by rw [hn]; split <;> omega]

theorem Fills.le {st : FileStorage} {l : List FileSlice} {first last : Nat}
    (h : Fills st first l last) : first ≤ last := by
  induction l generalizing first with
  | nil => exact le_of_eq h
  | cons slice rest ih =>
    obtain ⟨-, -, hrest⟩ := h
    have := ih hrest
    omega

/-- The slices of a filled segment, and where they lie. -/
theorem Fills.slice {st : FileStorage} {xs ys : List FileSlice} {slice : FileSlice}
    {first last : Nat} (h : Fills st first (xs ++ slice :: ys) last) :
    (∃ f, st.files[slice.file_index]? = some f ∧
      f.offset + slice.offset = first + (xs.map FileSlice.size).sum ∧
      slice.offset + slice.size ≤ f.size) ∧ 0 < slice.size ∧
      first + (xs.map FileSlice.size).sum + slice.size ≤ last := by
  induction xs generalizing first with
  | nil =>
    obtain ⟨hf, hpos, hrest⟩ := h
    exact ⟨hf, hpos, hrest.le⟩
  | cons x xs ih =>
    obtain ⟨-, -, hrest⟩ := h
    rw [List.map_cons, List.sum_cons, ← Nat.add_assoc]
    exact ih hrest

/-- `map_block` cuts the block, as far as the torrent reaches, into slices of its files
that lie one behind the other, and `map_file` finds each slice's place again. -/
theorem map_block_cuts (st : AcceptedStorage) (piece offset size : Nat)
    (hfits : st.total_size ≤ fieldLimit)
    (hin : piece * st.piece_length + offset < st.total_size) :
    Fills st.toFileStorage (piece * st.piece_length + offset) (st.map_block piece offset size)
        (min (piece * st.piece_length + offset + size) st.total_size) ∧
      ∀ xs slice ys, st.map_block piece offset size = xs ++ slice :: ys →
        st.map_file slice.file_index slice.offset slice.size =
          { piece := ((piece * st.piece_length + offset + (xs.map FileSlice.size).sum) /
              st.piece_length : Nat)
            start := ((piece * st.piece_length + offset + (xs.map FileSlice.size).sum) %
              st.piece_length : Nat)
            length := slice.size } := by
  have hfill := map_block_fills st size hfits hin
  refine ⟨hfill, ?_⟩
  intro xs slice ys hblock
  rw [hblock] at hfill
  obtain ⟨⟨f, hf, hplace, hsize⟩, hpos, hlast⟩ := hfill.slice
  obtain ⟨i, hi, hget⟩ : ∃ i : Fin st.num_files, (i : Nat) = slice.file_index ∧
      st.files.get i = f := by
    obtain ⟨hindex, hget⟩ := List.getElem?_eq_some_iff.mp hf
    exact ⟨⟨slice.file_index, hindex⟩, rfl, hget⟩
  have hend : slice.offset + f.offset + slice.size ≤ st.total_size := by omega
  have hmap := st.map_file_inside i slice.offset slice.size (by rw [hget]; omega)
  rwa [hi, hget, if_neg (by omega), Nat.add_comm, hplace] at hmap

theorem spread_piece_length_pos : 0 < 4 := by decide

theorem spread_piece_length_int : 4 < 2 ^ 31 := by decide

/-- Pieces of four bytes in files of three, no and six bytes. -/
def spread : AcceptedStorage where
  piece_length := 4
  num_pieces := 3
  files := [⟨"a", 0, 3, false, false, false⟩, ⟨"b", 3, 0, false, false, false⟩,
    ⟨"c", 3, 6, false, false, false⟩]
  total_size := 9
  piece_length_pos := spread_piece_length_pos
  piece_length_int := spread_piece_length_int
  abut := ⟨rfl, rfl, rfl, trivial⟩
  total_eq := rfl
  size_field := by decide
  num_pieces_eq := rfl
  num_pieces_int := by decide

/-- A block that begins in the first file, asked for past the torrent's end: the empty
file is passed over, and the second slice begins in the same piece. -/
theorem map_block_cuts_spread :
    Fills spread.toFileStorage 2 [⟨0, 2, 1⟩, ⟨2, 0, 6⟩] 9 ∧
      spread.map_file 0 2 1 = ⟨0, 2, 1⟩ ∧ spread.map_file 2 0 6 = ⟨0, 3, 6⟩ := by
  have hblock : spread.map_block 0 2 400 = [⟨0, 2, 1⟩, ⟨2, 0, 6⟩] := by decide +kernel
  obtain ⟨hfill, hmap⟩ := map_block_cuts spread 0 2 400 (by decide) (by decide)
  have hfirst := hmap [] ⟨0, 2, 1⟩ [⟨2, 0, 6⟩] hblock
  have hsecond := hmap [⟨0, 2, 1⟩] ⟨2, 0, 6⟩ [] hblock
  rw [hblock, show spread.piece_length = 4 from rfl, show spread.total_size = 9 from rfl] at hfill
  rw [show spread.piece_length = 4 from rfl] at hfirst hsecond
  exact ⟨by simpa using hfill, by simpa using hfirst, by simpa using hsecond⟩

/-! ## All pieces -/

theorem Fills.append {st : FileStorage} {xs ys : List FileSlice} {first mid last : Nat}
    (hxs : Fills st first xs mid) (hys : Fills st mid ys last) :
    Fills st first (xs ++ ys) last := by
  induction xs generalizing first with
  | nil =>
    rw [show first = mid from hxs]
    exact hys
  | cons slice rest ih =>
    obtain ⟨hf, hpos, hrest⟩ := hxs
    exact ⟨hf, hpos, ih hrest⟩

/-- A piece begins inside the torrent, and `piece_size` reaches the next piece or the end. -/
theorem AcceptedStorage.piece_size_eq (st : AcceptedStorage) {p : Nat} (hp : p < st.num_pieces) :
    p * st.piece_length < st.total_size ∧
      p * st.piece_length + (st.piece_size p).toNat =
        min ((p + 1) * st.piece_length) st.total_size := by
  have hpos := st.piece_length_pos
  have hint := st.piece_length_int
  have hbegin : p * st.piece_length < st.total_size := by
    rw [st.num_pieces_eq, Nat.lt_div_iff_mul_lt hpos] at hp
    omega
  refine ⟨hbegin, ?_⟩
  have hcount := st.num_pieces_of_pos (by omega)
  have hnext : (p + 1) * st.piece_length = p * st.piece_length + st.piece_length := by
    rw [Nat.add_mul, Nat.one_mul]
  by_cases hlast : p + 1 = st.num_pieces
  · -- the last piece ends where the torrent does
    have hquot : (st.total_size - 1) / st.piece_length = p := by omega
    have hhi := Nat.lt_mul_div_succ (st.total_size - 1) hpos
    rw [hquot, Nat.mul_comm, hnext] at hhi
    have hsize : st.piece_size p = ((st.total_size - p * st.piece_length : Nat) : Int) := by
      rw [FileStorage.piece_size, if_pos (by omega),
        show (st.num_pieces : Int) - 1 = (p : Int) by omega]
      rw [Nat.cast_sub hbegin.le, Nat.cast_mul]
      apply toInt_of_range
      · have : ((p * st.piece_length : Nat) : Int) < st.total_size := by exact_mod_cast hbegin
        push_cast at this
        omega
      · have : (st.total_size : Int) ≤ ((p * st.piece_length + st.piece_length : Nat) : Int) := by
          exact_mod_cast (by omega : st.total_size ≤ p * st.piece_length + st.piece_length)
        push_cast at this
        omega
    rw [hsize, Int.toNat_natCast, hnext]
    omega
  · have hroom : (p + 1) * st.piece_length ≤ st.total_size - 1 := by
      rw [← Nat.le_div_iff_mul_le hpos]
      omega
    rw [FileStorage.piece_size, if_neg (by omega), Int.toNat_natCast, ← hnext]
    omega

/-- The blocks of all pieces, each of its `piece_size`, cut the torrent's files into
slices: from the first byte to the last, each byte once. -/
theorem pieces_cut_torrent (st : AcceptedStorage) (hfits : st.total_size ≤ fieldLimit) :
    Fills st.toFileStorage 0
      ((List.range st.num_pieces).flatMap fun p => st.map_block p 0 (st.piece_size p).toNat)
      st.total_size := by
  -- after `n` pieces the slices reach the start of the next piece, or the end
  have hprefix : ∀ n ≤ st.num_pieces, Fills st.toFileStorage 0
      ((List.range n).flatMap fun p => st.map_block p 0 (st.piece_size p).toNat)
      (min (n * st.piece_length) st.total_size) := by
    intro n hn
    induction n with
    | zero =>
      rw [Nat.zero_mul, Nat.zero_min]
      rfl
    | succ p ih =>
      obtain ⟨hbegin, hsize⟩ := st.piece_size_eq hn
      have hblock := map_block_fills st (st.piece_size p).toNat hfits
        (by rw [Nat.add_zero]; exact hbegin)
      rw [Nat.add_zero, hsize, Nat.min_assoc, Nat.min_self] at hblock
      have hbefore := ih (Nat.le_of_succ_le hn)
      rw [Nat.min_eq_left hbegin.le] at hbefore
      rw [List.range_succ, List.flatMap_append]
      refine hbefore.append ?_
      rw [List.flatMap_cons, List.flatMap_nil, List.append_nil]
      exact hblock
  have hall := hprefix st.num_pieces le_rfl
  have hend : st.total_size ≤ st.num_pieces * st.piece_length := by
    rw [st.num_pieces_eq]
    have := Nat.lt_mul_div_succ (st.total_size + st.piece_length - 1) st.piece_length_pos
    rw [Nat.mul_add, Nat.mul_one, Nat.mul_comm] at this
    omega
  rwa [Nat.min_eq_right hend] at hall

/-- The middle piece lies in the last file only, as does the short last one. -/
theorem pieces_cut_spread :
    Fills spread.toFileStorage 0 [⟨0, 0, 3⟩, ⟨2, 0, 1⟩, ⟨2, 1, 4⟩, ⟨2, 5, 1⟩] 9 := by
  have hcut := pieces_cut_torrent spread (by decide)
  rwa [show ((List.range spread.num_pieces).flatMap fun p =>
    spread.map_block p 0 (spread.piece_size p).toNat) =
      [⟨0, 0, 3⟩, ⟨2, 0, 1⟩, ⟨2, 1, 4⟩, ⟨2, 5, 1⟩] by decide +kernel] at hcut

end TorrentApp.Torrent
