import TorrentApp.Torrent.PieceOrder
import Mathlib.Data.List.Induction
import Mathlib.Data.List.Nodup

set_option autoImplicit false

/-!
# Moving a piece through the order

`add`, `remove` and `update` take the line of pieces from one sorted line to the
other: no slot outside of it is read or written, every bucket keeps its pieces but
for the one that moves, and the piece map tells all slots again.
-/

namespace TorrentApp.Torrent.Picker

open TorrentApp.Foundation

namespace PieceOrder

/-! ## What a move leaves alone -/

/-- Pieces have only been given other slots. -/
structure Moves (s s' : PieceOrder) : Prop where
  num_pieces : s'.num_pieces = s.num_pieces
  m_seeds : s'.m_seeds = s.m_seeds
  m_dirty : s'.m_dirty = s.m_dirty
  map : ∀ x, s'.m_piece_map x = { s.m_piece_map x with index := s'.slot x }
  isSome : ∀ x, (s'.slot x).isSome = (s.slot x).isSome

theorem Moves.refl (s : PieceOrder) : s.Moves s := ⟨rfl, rfl, rfl, fun _ => rfl, fun _ => rfl⟩

theorem Moves.trans {s t u : PieceOrder} (hst : s.Moves t) (htu : t.Moves u) : s.Moves u where
  num_pieces := htu.num_pieces.trans hst.num_pieces
  m_seeds := htu.m_seeds.trans hst.m_seeds
  m_dirty := htu.m_dirty.trans hst.m_dirty
  map x := by rw [htu.map, hst.map]
  isSome x := (htu.isSome x).trans (hst.isSome x)

theorem Moves.priority {s s' : PieceOrder} (h : s.Moves s') : s'.priority = s.priority := by
  funext x
  have hhave : (s'.slot x).isNone = (s.m_piece_map x).index.isNone := by
    rw [← Option.not_isSome, h.isSome x, Option.not_isSome]
    rfl
  rw [PieceOrder.priority, PieceOrder.priority, h.map x, h.m_seeds, PiecePos.priority,
    PiecePos.priority]
  simp only [PiecePos.filtered, PiecePos.have_piece, hhave]
  rfl

/-- The order of a state with another line. -/
theorem Moves.with_line {s s' : PieceOrder} (h : s.Moves s') (pieces boundries : List Nat)
    (random : Nat → Nat) :
    s.Moves { s' with
      m_pieces := pieces, m_priority_boundries := boundries, random := random } :=
  ⟨h.num_pieces, h.m_seeds, h.m_dirty, h.map, h.isSome⟩

variable {s s' : PieceOrder} {x y e : Nat}

theorem map_put : (s.put e x).m_piece_map =
    Function.update s.m_piece_map x { s.m_piece_map x with index := some e } := rfl

theorem slot_put : (s.put e x).slot = Function.update s.slot x (some e) := by
  show PiecePos.index ∘ (s.put e x).m_piece_map = _
  rw [map_put, Function.comp_update]
  rfl

theorem moves_put (hx : (s.slot x).isSome = true) : s.Moves (s.put e x) where
  num_pieces := rfl
  m_seeds := rfl
  m_dirty := rfl
  map y := by
    rw [slot_put, map_put]
    by_cases hy : y = x
    · rw [hy, Function.update_self, Function.update_self]
    · rw [Function.update_of_ne hy, Function.update_of_ne hy]
      rfl
  isSome y := by
    rw [slot_put]
    by_cases hy : y = x
    · rw [hy, Function.update_self, hx, Option.isSome_some]
    · rw [Function.update_of_ne hy]

theorem put_pieces {pre rest : List Nat} (h : s.m_pieces = pre ++ y :: rest) :
    (s.put pre.length x).m_pieces = pre ++ x :: rest := by
  have hlt : pre.length < (pre ++ y :: rest).length := by
    rw [List.length_append, List.length_cons]
    omega
  rw [put, h, if_pos hlt, List.set_append_right _ _ (Nat.le_refl _), Nat.sub_self,
    List.set_cons_zero]

theorem put_pieces_end {pre : List Nat} (h : s.m_pieces = pre) :
    (s.put pre.length x).m_pieces = pre ++ [x] := by
  rw [put, h, if_neg (Nat.lt_irrefl _)]

/-- An item that displaces the first one behind it, if there is one. -/
theorem put_displaced {pre l : List Nat} (h : s.m_pieces = pre ++ l) :
    (s.put pre.length x).m_pieces = pre ++ [x] ++ l.tail := by
  cases l with
  | nil =>
    rw [List.tail_nil, List.append_nil]
    exact put_pieces_end (by rw [h, List.append_nil])
  | cons y l =>
    rw [List.tail_cons, List.append_assoc, List.singleton_append]
    exact put_pieces h

/-- A line stays placed where another item gets a slot. -/
theorem placed_put {base : Nat} {l : List Nat} (h : Placed s.slot base l) (hx : x ∉ l) :
    Placed (s.put e x).slot base l := by
  rwa [slot_put, placed_update hx]

theorem not_mem_of_slot {base : Nat} {l : List Nat} (h : Placed s.slot base l) {j : Nat}
    (hx : s.slot x = some j) (hj : j < base ∨ base + l.length ≤ j) : x ∉ l := by
  intro hmem
  obtain ⟨i, hi, hlt, -⟩ := h.lt hmem
  have := Option.some.inj (hx.symm.trans hi)
  omega

theorem placed_tail {slot : Nat → Option Nat} {base : Nat} {l : List Nat}
    (h : Placed slot base l) : Placed slot (base + 1) l.tail := by
  cases l with
  | nil => exact placed_nil _ _
  | cons y l => exact (placed_cons.mp h).2

/-- A piece with a priority is not one that is there. -/
theorem isSome_slot_of_priority {i p : Nat} (hp : s.priority i = some p) :
    (s.slot i).isSome = true := by
  rw [priority, PiecePos.priority] at hp
  split at hp
  · cases hp
  · rename_i hnot
    simp only [Bool.or_eq_true, not_or, PiecePos.have_piece, Bool.not_eq_true,
      Option.isNone_eq_false_iff] at hnot
    exact hnot.1.1.1.2

/-- The last item of a bucket. -/
theorem eq_nil_or_last (b : List Nat) : b = [] ∨ ∃ ys y, b = ys ++ [y] := by
  rcases List.eq_nil_or_concat' b with h | ⟨ys, y, h⟩
  · exact .inl h
  · exact .inr ⟨ys, y, h⟩

/-! ## Taking a piece out -/

theorem removeLoop_spec {pre : List Nat} {hole : Nat} {bs : List (List Nat)}
    (hpieces : s.m_pieces = pre ++ hole :: bs.flatten) (hpre : Placed s.slot 0 pre)
    (hbs : Placed s.slot (pre.length + 1) bs.flatten) :
    ∃ bs' s', removeLoop (ends (pre.length + 1) bs) pre.length s = some (s', ends pre.length bs') ∧
      List.Forall₂ List.Perm bs bs' ∧ s'.m_pieces = pre ++ bs'.flatten ∧
      Placed s'.slot 0 s'.m_pieces ∧ s.Moves s' := by
  induction bs generalizing pre hole s with
  | nil =>
    rw [List.flatten_nil] at hpieces
    refine ⟨[], _, rfl, .nil, ?_, ?_, (Moves.refl s).with_line _ _ _⟩
    · dsimp only
      rw [hpieces, List.dropLast_concat, List.flatten_nil, List.append_nil]
    · dsimp only
      rw [hpieces, List.dropLast_concat]
      exact hpre
  | cons b bs ih =>
    rcases eq_nil_or_last b with rfl | ⟨ys, y, rfl⟩
    · -- an empty bucket
      obtain ⟨bs', s', hloop, hperm, hpieces', hplaced, hmoves⟩ := ih hpieces hpre hbs
      refine ⟨[] :: bs', s', ?_, .cons (.refl _) hperm, hpieces', hplaced, hmoves⟩
      rw [ends, removeLoop, if_neg (by omega), List.length_nil, Nat.add_zero, Nat.add_sub_cancel,
        if_pos rfl, hloop]
      rfl
    · -- its last piece fills the hole, which leaves the hole behind the others
      have hflat : s.m_pieces = (pre ++ hole :: ys) ++ y :: bs.flatten := by
        rw [hpieces, List.flatten_cons]
        simp only [List.append_assoc, List.cons_append, List.nil_append]
      rw [List.flatten_cons, placed_append, placed_append, List.length_append] at hbs
      obtain ⟨⟨hys, hy⟩, hbs⟩ := hbs
      have hyslot := hy 0 y rfl
      have hlast : pre.length + 1 + (ys ++ [y]).length - 1 = pre.length + 1 + ys.length := by
        rw [List.length_append, List.length_singleton]
        omega
      have hread : s.m_pieces[pre.length + 1 + ys.length]? = some y := by
        have hlength : pre.length + 1 + ys.length = (pre ++ hole :: ys).length := by
          rw [List.length_append, List.length_cons]
          omega
        rw [hflat, hlength, List.getElem?_append_right (Nat.le_refl _), Nat.sub_self]
        rfl
      have hput : (s.put pre.length y).m_pieces = (pre ++ y :: ys) ++ y :: bs.flatten := by
        have hhole : s.m_pieces = pre ++ hole :: (ys ++ y :: bs.flatten) := by
          rw [hflat, List.append_assoc, List.cons_append]
        rw [put_pieces hhole, List.append_assoc, List.cons_append]
      have hlength : (pre ++ y :: ys).length = pre.length + 1 + ys.length := by
        rw [List.length_append, List.length_cons]
        omega
      have hpre' : Placed (s.put pre.length y).slot 0 (pre ++ y :: ys) := by
        rw [placed_append, placed_cons, slot_put, Function.update_self, Nat.zero_add, ← slot_put]
        refine ⟨placed_put hpre (not_mem_of_slot hpre hyslot (.inr (by omega))), rfl, ?_⟩
        exact placed_put hys (not_mem_of_slot hys hyslot (.inr (by omega)))
      have hbs' : Placed (s.put pre.length y).slot ((pre ++ y :: ys).length + 1) bs.flatten := by
        rw [hlength]
        rw [List.length_singleton, ← Nat.add_assoc] at hbs
        exact placed_put hbs (not_mem_of_slot hbs hyslot (.inl (by omega)))
      obtain ⟨bs', s', hloop, hperm, hpieces', hplaced, hmoves⟩ := ih hput hpre' hbs'
      have hstart : pre.length + 1 + (ys ++ [y]).length = (pre ++ y :: ys).length + 1 := by
        rw [hlength, List.length_append, List.length_singleton]
        omega
      refine ⟨(y :: ys) :: bs', s', ?_, .cons (List.perm_append_singleton y ys) hperm, ?_, hplaced,
        (moves_put (by rw [hyslot]; rfl)).trans hmoves⟩
      · rw [ends, removeLoop, if_neg (by omega), hlast, if_neg (by omega), hread, ends]
        simp only [Option.bind_eq_bind, Option.bind_some]
        rw [hstart, ← hlength, hloop]
        simp only [Option.bind_some, Option.some.injEq, Prod.mk.injEq, true_and, List.cons.injEq]
        rw [List.length_cons, hlength]
        exact ⟨by omega, by rw [Nat.add_assoc, Nat.add_comm 1]⟩
      · rw [hpieces', List.flatten_cons, List.append_assoc]

/-! ## Putting a piece in -/

theorem addLoop_cons (b : Nat) (rest : List Nat) (index : Option Nat) (new_index : Nat)
    (s : PieceOrder) :
    addLoop (b :: rest) index new_index s =
      if b = new_index ∨ rest = [] then
        (addLoop rest index b s).bind fun r => some (r.1, (b + 1) :: r.2)
      else
        index.bind fun index =>
          if b ≤ s.m_pieces.length then
            (addLoop rest s.m_pieces[b]? b (s.put b index)).bind fun r =>
              some (r.1, (b + 1) :: r.2)
          else none := by
  rw [addLoop.eq_def]
  cases index with
  | none => rfl
  | some index => rfl

/-- The line up to a slot is done; of the buckets behind it the first piece is in hand. -/
theorem addLoop_spec {pre : List Nat} {t : Nat} {bs : List (List Nat)} (hbs : bs ≠ [])
    (ht : pre.length = t + 1) (hpieces : s.m_pieces = pre ++ bs.flatten.tail)
    (hnodup : (pre ++ bs.flatten).Nodup) (hpre : Placed s.slot 0 pre)
    (hplaced : Placed s.slot (t + 1) bs.flatten.tail)
    (hhand : ∀ x ∈ bs.flatten.head?, (s.slot x).isSome = true) :
    ∃ bs' s', addLoop (ends t bs) bs.flatten.head? t s = some (s', ends (t + 1) bs') ∧
      List.Forall₂ List.Perm bs bs' ∧ s'.m_pieces = pre ++ bs'.flatten ∧
      Placed s'.slot 0 s'.m_pieces ∧ s.Moves s' := by
  induction bs generalizing pre t s with
  | nil => exact absurd rfl hbs
  | cons b bs ih =>
    cases b with
    | nil =>
      -- an empty bucket: the piece in hand goes on
      rw [ends, addLoop_cons, List.length_nil, Nat.add_zero, if_pos (.inl rfl), List.flatten_cons,
        List.nil_append]
      rw [List.flatten_cons, List.nil_append] at hpieces hplaced hnodup hhand
      rcases eq_or_ne bs [] with rfl | hbs'
      · refine ⟨[[]], s, rfl, .cons (.refl _) .nil, hpieces, ?_, Moves.refl s⟩
        rw [hpieces, List.flatten_nil, List.tail_nil, List.append_nil]
        exact hpre
      · obtain ⟨bs', s', hloop, hperm, hpieces', hplaced', hmoves⟩ :=
          ih hbs' ht hpieces hnodup hpre hplaced hhand
        refine ⟨[] :: bs', s', ?_, .cons (.refl _) hperm, hpieces', hplaced', hmoves⟩
        rw [hloop]
        rfl
    | cons x xs =>
      -- the piece in hand goes behind the others of its bucket
      rw [List.flatten_cons, List.cons_append, List.tail_cons] at hpieces
      rw [List.flatten_cons, List.cons_append, List.tail_cons, placed_append] at hplaced
      rw [List.flatten_cons, List.cons_append] at hnodup
      have hx : (s.slot x).isSome = true := hhand x rfl
      obtain ⟨hxs, hrest⟩ := hplaced
      have hnot : x ∉ pre ++ xs ++ bs.flatten := by
        rw [List.append_assoc]
        exact (List.nodup_middle.mp hnodup).notMem
      rw [List.mem_append, List.mem_append, not_or, not_or] at hnot
      have hend : t + (x :: xs).length = (pre ++ xs).length := by
        rw [List.length_append, List.length_cons]
        omega
      have hpre' : Placed (s.put (pre ++ xs).length x).slot 0 (pre ++ xs ++ [x]) := by
        rw [placed_append, placed_append, placed_cons, Nat.zero_add, Nat.zero_add, ht]
        refine ⟨⟨placed_put hpre hnot.1.1, placed_put hxs hnot.1.2⟩, ?_, placed_nil _ _⟩
        rw [slot_put, Function.update_self]
      have hmoves := moves_put (e := (pre ++ xs).length) hx
      rw [ends, hend, addLoop_cons, List.flatten_cons, List.cons_append, List.head?_cons]
      rcases eq_or_ne bs [] with rfl | hbs'
      · have hline : s.m_pieces = pre ++ xs := by rw [hpieces, List.flatten_nil, List.append_nil]
        have hpieces' : (s.put (pre ++ xs).length x).m_pieces = pre ++ xs ++ [x] :=
          put_pieces_end hline
        refine ⟨[xs ++ [x]], s.put (pre ++ xs).length x, ?_,
          .cons (List.perm_append_singleton x xs).symm .nil, ?_, ?_, hmoves⟩
        · rw [if_pos (.inr rfl), ends, addLoop, hline, if_pos (Nat.le_refl _), Option.bind_some,
            ends, ends, ← ht, List.length_append, List.length_append, List.length_singleton,
            Nat.add_assoc]
        · rw [hpieces', List.flatten_singleton, List.append_assoc]
        · rw [hpieces']
          exact hpre'
      · have hends : ¬((pre ++ xs).length = t ∨ ends (pre ++ xs).length bs = []) := by
          rw [ends_eq_nil, not_or, List.length_append]
          exact ⟨by omega, hbs'⟩
        have hread : s.m_pieces[(pre ++ xs).length]? = bs.flatten.head? := by
          rw [hpieces, ← List.append_assoc, List.getElem?_append_right (Nat.le_refl _),
            Nat.sub_self, List.head?_eq_getElem?]
        have hinside : (pre ++ xs).length ≤ s.m_pieces.length := by
          rw [hpieces, ← List.append_assoc]
          exact (List.prefix_append _ _).length_le
        have hput : (s.put (pre ++ xs).length x).m_pieces = pre ++ xs ++ [x] ++ bs.flatten.tail :=
          put_displaced (by rw [hpieces, List.append_assoc])
        have hb : t + 1 + xs.length = (pre ++ xs).length := by
          rw [List.length_append, ht]
        rw [hb] at hrest
        have htail := placed_tail hrest
        have hnotail : x ∉ bs.flatten.tail := fun hmem => hnot.2 (List.mem_of_mem_tail hmem)
        have hlength : (pre ++ xs ++ [x]).length = (pre ++ xs).length + 1 := List.length_append
        obtain ⟨bs', s', hloop, hperm, hpieces', hplaced', hmoves'⟩ := ih hbs' hlength hput
          (by
            rw [List.append_assoc, List.append_assoc, List.singleton_append]
            refine (List.Perm.append_left pre ?_).nodup_iff.mpr hnodup
            exact List.perm_middle)
          hpre' (placed_put htail hnotail)
          (fun y hy => by
            have hmem := List.mem_of_mem_head? hy
            obtain ⟨j, hj, -⟩ := hrest.lt hmem
            rw [hmoves.isSome, hj, Option.isSome_some])
        refine ⟨(xs ++ [x]) :: bs', s', ?_,
          .cons (List.perm_append_singleton x xs).symm hperm, ?_, hplaced', hmoves.trans hmoves'⟩
        · have hconcat : t + 1 + (xs ++ [x]).length = (pre ++ xs).length + 1 := by
            rw [List.length_append, List.length_singleton, ← hb]
            rfl
          rw [if_neg hends, Option.bind_some, if_pos hinside, hread, hloop, Option.bind_some, ends,
            hconcat]
        · rw [hpieces', List.flatten_cons, List.append_assoc, List.append_assoc, List.append_assoc]

/-! ## Taking a piece to another bucket -/

/-- The hole goes up through the buckets behind it. -/
theorem raiseLoop_spec {pre rest : List Nat} {temp : Nat} {bs : List (List Nat)}
    (hpieces : s.m_pieces = pre ++ temp :: (bs.flatten ++ rest)) (htemp : temp ∉ bs.flatten)
    (hpre : Placed s.slot 0 pre) (hbs : Placed s.slot (pre.length + 1) (bs.flatten ++ rest)) :
    ∃ bs' hole s', raiseLoop (ends (pre.length + 1) bs) pre.length temp s =
        some (s', (pre ++ bs'.flatten).length, ends pre.length bs') ∧
      List.Forall₂ List.Perm bs bs' ∧ s'.m_pieces = pre ++ bs'.flatten ++ hole :: rest ∧
      Placed s'.slot 0 (pre ++ bs'.flatten) ∧
      Placed s'.slot ((pre ++ bs'.flatten).length + 1) rest ∧ s.Moves s' := by
  induction bs generalizing pre temp s with
  | nil =>
    rw [List.flatten_nil, List.nil_append] at hpieces hbs
    refine ⟨[], temp, s, ?_, .nil, ?_, ?_, ?_, Moves.refl s⟩
    · rw [List.flatten_nil, List.append_nil]
      rfl
    · rw [hpieces, List.flatten_nil, List.append_nil]
    · rwa [List.flatten_nil, List.append_nil]
    · rwa [List.flatten_nil, List.append_nil]
  | cons b bs ih =>
    rcases eq_nil_or_last b with rfl | ⟨ys, y, rfl⟩
    · -- an empty bucket: the hole stays
      have hread : s.m_pieces[pre.length]? = some temp := by
        rw [hpieces, List.getElem?_append_right (Nat.le_refl _), Nat.sub_self]
        rfl
      obtain ⟨bs', hole, s', hloop, hperm, hpieces', hpre', hrest, hmoves⟩ :=
        ih hpieces htemp hpre hbs
      refine ⟨[] :: bs', hole, s', ?_, .cons (.refl _) hperm, hpieces', hpre', hrest, hmoves⟩
      rw [ends, raiseLoop, if_neg (by omega), List.length_nil, Nat.add_zero, Nat.add_sub_cancel]
      dsimp only
      rw [hread]
      simp only [Option.bind_eq_bind, Option.bind_some, ne_eq, not_true_eq_false, if_false, hloop]
      rfl
    · -- its last piece fills the hole, which leaves the hole behind the others
      rw [List.flatten_cons, List.append_assoc, List.append_assoc, List.singleton_append] at hpieces
      rw [List.flatten_cons, List.append_assoc, List.append_assoc, List.singleton_append,
        placed_append, placed_cons] at hbs
      rw [List.flatten_cons, List.append_assoc, List.singleton_append, List.mem_append,
        List.mem_cons, not_or, not_or] at htemp
      obtain ⟨hys, hy, hbs⟩ := hbs
      have hlength : (pre ++ y :: ys).length = pre.length + 1 + ys.length := by
        rw [List.length_append, List.length_cons]
        omega
      have hlast : pre.length + 1 + (ys ++ [y]).length - 1 = (pre ++ y :: ys).length := by
        rw [hlength, List.length_append, List.length_singleton]
        omega
      have hread : s.m_pieces[(pre ++ y :: ys).length]? = some y := by
        have hsame : (pre ++ y :: ys).length = (pre ++ temp :: ys).length := by
          rw [List.length_append, List.length_append, List.length_cons, List.length_cons]
        rw [hpieces, hsame, ← List.cons_append, ← List.append_assoc,
          List.getElem?_append_right (Nat.le_refl _), Nat.sub_self]
        rfl
      have hput : (s.put pre.length y).m_pieces =
          (pre ++ y :: ys) ++ y :: (bs.flatten ++ rest) := by
        rw [put_pieces hpieces, List.append_assoc, List.cons_append]
      have hpre' : Placed (s.put pre.length y).slot 0 (pre ++ y :: ys) := by
        rw [placed_append, placed_cons, Nat.zero_add]
        refine ⟨placed_put hpre (not_mem_of_slot hpre hy (.inr (by omega))), ?_,
          placed_put hys (not_mem_of_slot hys hy (.inr (by omega)))⟩
        rw [slot_put, Function.update_self]
      rw [← hlength] at hbs hy
      have hno := not_mem_of_slot hbs hy (.inl (by omega))
      obtain ⟨bs', hole, s', hloop, hperm, hpieces', hpre'', hrest, hmoves⟩ := ih hput
        (fun hmem => hno (List.mem_append_left _ hmem)) hpre' (placed_put hbs hno)
      have hstart : pre.length + 1 + (ys ++ [y]).length = (pre ++ y :: ys).length + 1 := by
        rw [hlength, List.length_append, List.length_singleton]
        omega
      have hflat : pre ++ ((y :: ys) :: bs').flatten = pre ++ y :: ys ++ bs'.flatten := by
        rw [List.flatten_cons, List.append_assoc]
      refine ⟨(y :: ys) :: bs', hole, s', ?_, .cons (List.perm_append_singleton y ys) hperm, ?_, ?_,
        ?_, (moves_put (by rw [hy]; rfl)).trans hmoves⟩
      · rw [ends, raiseLoop, if_neg (by omega), hlast]
        dsimp only
        rw [hread]
        simp only [Option.bind_eq_bind, Option.bind_some, ne_eq, htemp.2.1, not_false_eq_true,
          if_true]
        have happend : pre.length + (y :: ys).length = (pre ++ y :: ys).length :=
          List.length_append.symm
        rw [hstart, hloop, Option.bind_some, hflat, ends, happend]
      · rw [hpieces', hflat]
      · rwa [hflat]
      · rwa [hflat]

/-- The hole goes down through the buckets before it. -/
theorem lowerLoop_spec {pre us rest : List Nat} {temp : Nat} {bs : List (List Nat)}
    (hpieces : s.m_pieces = pre ++ bs.flatten ++ us ++ temp :: rest)
    (htemp : temp ∉ pre ++ bs.flatten ++ us)
    (hpre : Placed s.slot 0 (pre ++ bs.flatten ++ us))
    (hrest : Placed s.slot ((pre ++ bs.flatten ++ us).length + 1) rest) :
    ∃ c cs hole s', lowerLoop (ends pre.length bs).reverse (pre ++ bs.flatten ++ us).length temp s =
        some (s', (pre ++ c).length, (ends (pre.length + 1) bs).reverse) ∧
      List.Forall₂ List.Perm (bs ++ [us]) (c :: cs) ∧
      s'.m_pieces = pre ++ c ++ hole :: (cs.flatten ++ rest) ∧ Placed s'.slot 0 (pre ++ c) ∧
      Placed s'.slot ((pre ++ c).length + 1) (cs.flatten ++ rest) ∧ s.Moves s' := by
  induction bs using List.reverseRecOn generalizing us temp rest s with
  | nil =>
    rw [List.flatten_nil, List.append_nil] at hpieces htemp hpre hrest ⊢
    exact ⟨us, [], temp, s, rfl, .cons (.refl _) .nil, hpieces, hpre, hrest, Moves.refl s⟩
  | append_singleton bs l ih =>
    have hflat : pre ++ (bs ++ [l]).flatten = pre ++ bs.flatten ++ l := by
      rw [List.flatten_append, List.flatten_singleton, List.append_assoc]
    rw [hflat] at hpieces htemp hpre hrest ⊢
    have hends : (ends pre.length (bs ++ [l])).reverse =
        (pre ++ bs.flatten ++ l).length :: (ends pre.length bs).reverse := by
      rw [ends_concat, List.reverse_concat, List.length_append, List.length_append]
    have hends' : (ends (pre.length + 1) (bs ++ [l])).reverse =
        ((pre ++ bs.flatten ++ l).length + 1) :: (ends (pre.length + 1) bs).reverse := by
      rw [ends_concat, List.reverse_concat, List.length_append, List.length_append]
      congr 1
      omega
    rw [hends, hends', lowerLoop]
    cases us with
    | nil =>
      -- the hole starts its bucket, and ends the bucket before it now
      rw [List.append_nil] at hpieces htemp hpre hrest ⊢
      have hread : s.m_pieces[(pre ++ bs.flatten ++ l).length]? = some temp := by
        rw [hpieces, List.getElem?_append_right (Nat.le_refl _), Nat.sub_self]
        rfl
      obtain ⟨c, cs, hole, s', hloop, hperm, hpieces', hpre', hrest', hmoves⟩ :=
        ih hpieces htemp hpre hrest
      refine ⟨c, cs ++ [[]], hole, s', ?_, ?_, ?_, hpre', ?_, hmoves⟩
      · rw [hread]
        simp only [Option.bind_eq_bind, Option.bind_some, ne_eq, not_true_eq_false, if_false, hloop]
      · rw [← List.cons_append]
        exact List.rel_append hperm (forall₂_perm_refl _)
      · rw [hpieces', List.flatten_append, List.flatten_singleton, List.append_nil]
      · rwa [List.flatten_append, List.flatten_singleton, List.append_nil]
    | cons u us =>
      -- the first piece of its bucket fills the hole, which is before the others then
      rw [placed_append, placed_cons, Nat.zero_add] at hpre
      obtain ⟨hpre, hu, hus⟩ := hpre
      rw [List.mem_append, List.mem_cons, not_or, not_or] at htemp
      have hread : s.m_pieces[(pre ++ bs.flatten ++ l).length]? = some u := by
        rw [hpieces, List.append_assoc, List.getElem?_append_right (Nat.le_refl _), Nat.sub_self]
        rfl
      have hlength : (pre ++ bs.flatten ++ l ++ u :: us).length =
          (pre ++ bs.flatten ++ l).length + 1 + us.length := by
        rw [List.length_append, List.length_cons]
        omega
      have hput : (s.put (pre ++ bs.flatten ++ l ++ u :: us).length u).m_pieces =
          pre ++ bs.flatten ++ l ++ u :: (us ++ u :: rest) := by
        rw [put_pieces hpieces, List.append_assoc, List.cons_append]
      have hno := not_mem_of_slot hpre hu (.inr (by omega))
      have hpre' := placed_put (e := (pre ++ bs.flatten ++ l ++ u :: us).length) hpre hno
      have hrest' : Placed (s.put (pre ++ bs.flatten ++ l ++ u :: us).length u).slot
          ((pre ++ bs.flatten ++ l).length + 1) (us ++ u :: rest) := by
        rw [placed_append, placed_cons]
        rw [hlength] at hrest ⊢
        refine ⟨placed_put hus (not_mem_of_slot hus hu (.inl (by omega))), ?_,
          placed_put hrest (not_mem_of_slot hrest hu (.inl (by omega)))⟩
        rw [slot_put, Function.update_self]
      obtain ⟨c, cs, hole, s', hloop, hperm, hpieces', hpre'', hrest'', hmoves⟩ :=
        ih hput hno hpre' hrest'
      refine ⟨c, cs ++ [us ++ [u]], hole, s', ?_, ?_, ?_, hpre'', ?_,
        (moves_put (by rw [hu]; rfl)).trans hmoves⟩
      · rw [hread]
        simp only [Option.bind_eq_bind, Option.bind_some, ne_eq, htemp.2.1, not_false_eq_true,
          if_true, hloop]
      · rw [← List.cons_append]
        exact List.rel_append hperm (.cons (List.perm_append_singleton u us).symm .nil)
      · rw [hpieces', List.flatten_append, List.flatten_singleton, List.append_assoc cs.flatten,
          List.append_assoc us, List.singleton_append]
      · rwa [List.flatten_append, List.flatten_singleton, List.append_assoc cs.flatten,
          List.append_assoc us, List.singleton_append]

/-! ## The sorted line -/

/-- The line holds the pieces that have a key, sorted by it, and `slot` tells where. -/
structure Listed (key slot : Nat → Option Nat) (s : PieceOrder) : Prop where
  buckets : ∃ bs : List (List Nat), bs ≠ [] ∧ s.m_pieces = bs.flatten ∧
    s.m_priority_boundries = ends 0 bs ∧ Keyed key 0 bs
  placed : Placed slot 0 s.m_pieces
  mem : ∀ x, x ∈ s.m_pieces ↔ x < s.num_pieces ∧ (key x).isSome = true

/-- A list cut behind its first `k` items. -/
theorem exists_cut {α : Type*} {l : List α} {k : Nat} (hk : k ≤ l.length) :
    ∃ xs ys, l = xs ++ ys ∧ xs.length = k :=
  ⟨l.take k, l.drop k, (List.take_append_drop k l).symm, List.length_take_of_le hk⟩

/-- Where a listed piece stands. -/
theorem Listed.at {key slot : Nat → Option Nat} (h : s.Listed key slot) {i p : Nat}
    (hi : i < s.num_pieces) (hp : key i = some p) (he : slot i = some e) :
    ∃ pre us vs post, s.m_pieces = (pre ++ (us ++ i :: vs) :: post).flatten ∧
      s.m_priority_boundries = ends 0 (pre ++ (us ++ i :: vs) :: post) ∧
      Keyed key 0 (pre ++ (us ++ i :: vs) :: post) ∧ pre.length = p ∧
      e = (pre.flatten ++ us).length := by
  obtain ⟨bs, -, hpieces, hends, hkeyed⟩ := h.buckets
  have hmem : i ∈ bs.flatten := by
    rw [← hpieces, h.mem, hp]
    exact ⟨hi, rfl⟩
  obtain ⟨b, hb, hib⟩ := hkeyed.mem_bucket hmem (i := p) (by rw [hp, Nat.zero_add])
  obtain ⟨us, vs, rfl⟩ := List.append_of_mem hib
  obtain ⟨hlt, hget⟩ := List.getElem?_eq_some_iff.mp hb
  have hsplit : bs = bs.take p ++ (us ++ i :: vs) :: bs.drop (p + 1) := by
    rw [← hget, List.getElem_cons_drop, List.take_append_drop]
  refine ⟨bs.take p, us, vs, bs.drop (p + 1), ?_, ?_, ?_, List.length_take_of_le (by omega), ?_⟩
  · rw [← hsplit, hpieces]
  · rw [← hsplit, hends]
  · rwa [← hsplit]
  · have hplaced := h.placed
    rw [hpieces, hsplit, List.flatten_append, List.flatten_cons, List.append_assoc,
      ← List.append_assoc _ us, List.cons_append, placed_append, placed_cons, Nat.zero_add]
      at hplaced
    exact Option.some.inj (he.symm.trans hplaced.2.1)

theorem Listed.congr {key slot key' slot' : Nat → Option Nat} (h : s.Listed key slot)
    (hkey : ∀ x, x < s.num_pieces → key x = key' x) (hslot : ∀ x ∈ s.m_pieces, slot x = slot' x) :
    s.Listed key' slot' := by
  obtain ⟨bs, hbs, hpieces, hends, hkeyed⟩ := h.buckets
  refine ⟨⟨bs, hbs, hpieces, hends, hkeyed.congr fun x hx => hkey x ?_⟩, h.placed.congr hslot,
    fun x => ?_⟩
  · rw [← hpieces, h.mem] at hx
    exact hx.1
  · rw [h.mem]
    exact and_congr_right fun hx => by rw [hkey x hx]

/-- `remove` takes a piece out of the line. -/
theorem remove_spec {key : Nat → Option Nat} {i p : Nat} (hi : i < s.num_pieces)
    (hnone : key i = none)
    (h : s.Listed (Function.update key i (some p)) (Function.update s.slot i (some e))) :
    ∃ s', s.remove p e = some s' ∧ s'.Listed key s'.slot ∧ s.Moves s' := by
  obtain ⟨pre, us, vs, post, hpieces, hends, hkeyed, rfl, rfl⟩ := h.at hi
    (Function.update_self _ _ _) (Function.update_self _ _ _)
  have hnodup := h.placed.nodup
  have hflat : s.m_pieces = pre.flatten ++ us ++ i :: (vs :: post).flatten := by
    rw [hpieces]
    simp only [List.flatten_append, List.flatten_cons, List.append_assoc, List.cons_append]
  have hplaced := h.placed
  rw [hflat, placed_append, placed_cons, Nat.zero_add] at hplaced
  rw [hflat, List.nodup_middle, List.nodup_cons, List.mem_append, not_or] at hnodup
  obtain ⟨⟨hpre, hpost⟩, -⟩ := hnodup
  rw [placed_update hpre, placed_update hpost] at hplaced
  have hdrop : s.m_priority_boundries.drop pre.length =
      ends ((pre.flatten ++ us).length + 1) (vs :: post) := by
    have hend : (pre.flatten ++ us).length + 1 + vs.length =
        0 + pre.flatten.length + (us ++ i :: vs).length := by
      rw [List.length_append, List.length_append, List.length_cons]
      omega
    rw [hends, drop_ends, ends, ends, hend]
  obtain ⟨bs', s', hloop, hperm, hpieces', hplaced', hmoves⟩ :=
    removeLoop_spec hflat hplaced.1 hplaced.2.2
  obtain ⟨vs', post', hvs, hpost', rfl⟩ := List.forall₂_cons_left_iff.mp hperm
  have hlt : (pre.flatten ++ us).length < s.m_pieces.length := by
    rw [hflat]
    simp only [List.length_append, List.length_cons]
    omega
  have hsize : pre.length < s.m_priority_boundries.length := by
    rw [hends, length_ends, List.length_append, List.length_cons]
    omega
  refine ⟨{ s' with m_priority_boundries := ends 0 (pre ++ (us ++ vs') :: post') }, ?_,
    ⟨⟨pre ++ (us ++ vs') :: post', by simp, ?_, rfl, ?_⟩, hplaced', fun x => ?_⟩,
    hmoves.with_line _ _ _⟩
  · have hend : (pre.flatten ++ us).length + vs'.length =
        0 + pre.flatten.length + (us ++ vs').length := by
      rw [List.length_append, List.length_append]
      omega
    rw [remove, if_pos ⟨hlt, hsize⟩, hdrop, hloop, hends, take_ends, ends_append, ends, ends, hend]
    rfl
  · dsimp only
    rw [hpieces']
    simp only [List.flatten_append, List.flatten_cons, List.append_assoc]
  · have hwithout := (keyed_insert.mp hkeyed).2
    have hnot : i ∉ (pre ++ (us ++ vs) :: post).flatten := by
      simp only [List.mem_append, not_or, List.flatten_append, List.flatten_cons] at hpre hpost ⊢
      exact ⟨hpre.1, ⟨hpre.2, hpost.1⟩, hpost.2⟩
    rw [keyed_update hnot] at hwithout
    refine hwithout.perm (List.rel_append (forall₂_perm_refl _) (.cons (hvs.append_left us) hpost'))
  · dsimp only
    rw [hpieces', hmoves.num_pieces, List.mem_append, ← (flatten_perm hperm).mem_iff]
    have hmem := h.mem x
    rw [hflat, List.mem_append, List.mem_cons] at hmem
    by_cases hxi : x = i
    · rw [hxi, hnone]
      exact iff_of_false (fun hx => hx.elim hpre hpost) (fun hx => by cases hx.2)
    · rw [Function.update_of_ne hxi] at hmem
      rw [← hmem, or_iff_right (fun hx : x = i => hxi hx)]

/-- The range of a priority. -/
theorem priority_range_eq {pre post : List (List Nat)} {b : List Nat}
    (hends : s.m_priority_boundries = ends 0 (pre ++ b :: post)) :
    s.priority_range pre.length = some (pre.flatten.length, pre.flatten.length + b.length) := by
  have hlast : s.m_priority_boundries[pre.length]? = some (pre.flatten.length + b.length) := by
    rw [hends, getElem?_ends 0 _ (by rw [List.length_append, List.length_cons]; omega),
      List.take_length_add_append]
    simp
  have hfirst : (if pre.length = 0 then some 0 else s.m_priority_boundries[pre.length - 1]?) =
      some pre.flatten.length := by
    split
    · rename_i hnil
      rw [List.length_eq_zero_iff.mp hnil]
      rfl
    · rename_i hne
      rw [hends, getElem?_ends 0 _ (by rw [List.length_append]; omega),
        Nat.sub_add_cancel (Nat.pos_of_ne_zero hne), Nat.zero_add, List.take_left']
      rfl
  rw [priority_range, hlast]
  by_cases hnil : pre.length = 0
  · rw [if_pos hnil] at hfirst ⊢
    rw [hfirst]
    rfl
  · rw [if_neg hnil] at hfirst ⊢
    rw [hfirst]
    rfl

/-- Two slots of the line exchanged, in the piece map too. -/
theorem placed_swap {slot : Nat → Option Nat} {l : List Nat} (h : Placed slot 0 l) {j k x y : Nat}
    (hx : l[j]? = some x) (hy : l[k]? = some y) (hjk : j ≠ k) :
    Placed (Function.update (Function.update slot x (slot y)) y (slot x)) 0
      ((l.set j y).set k x) := by
  have hslotx := h j x hx
  have hsloty := h k y hy
  have hxy : x ≠ y := by
    rintro rfl
    have := Option.some.inj (hslotx.symm.trans hsloty)
    omega
  intro m z hz
  rw [List.getElem?_set] at hz
  split at hz
  · rename_i hkm
    split at hz
    · obtain rfl : x = z := Option.some.inj hz
      rw [Function.update_of_ne hxy, Function.update_self, hsloty, hkm]
    · cases hz
  · rename_i hkm
    rw [List.getElem?_set] at hz
    split at hz
    · rename_i hjm
      split at hz
      · obtain rfl : y = z := Option.some.inj hz
        rw [Function.update_self, hslotx, hjm]
      · cases hz
    · rename_i hjm
      have hslotz := h m z hz
      have hzx : z ≠ x := by
        rintro rfl
        have := Option.some.inj (hslotx.symm.trans hslotz)
        omega
      have hzy : z ≠ y := by
        rintro rfl
        have := Option.some.inj (hsloty.symm.trans hslotz)
        omega
      rw [Function.update_of_ne hzy, Function.update_of_ne hzx, hslotz]

/-- Two pieces have exchanged their slots. -/
theorem slot_exchange (hmap : s'.m_piece_map = Function.update (Function.update s.m_piece_map x
      { s.m_piece_map x with index := (s.m_piece_map y).index }) y
      { s.m_piece_map y with index := (s.m_piece_map x).index }) :
    s'.slot = Function.update (Function.update s.slot x (s.slot y)) y (s.slot x) := by
  show PiecePos.index ∘ s'.m_piece_map = _
  rw [hmap, Function.comp_update, Function.comp_update]
  rfl

theorem moves_exchange (hnum : s'.num_pieces = s.num_pieces) (hseeds : s'.m_seeds = s.m_seeds)
    (hdirty : s'.m_dirty = s.m_dirty) (hx : (s.slot x).isSome = true)
    (hy : (s.slot y).isSome = true)
    (hmap : s'.m_piece_map = Function.update (Function.update s.m_piece_map x
      { s.m_piece_map x with index := (s.m_piece_map y).index }) y
      { s.m_piece_map y with index := (s.m_piece_map x).index }) : s.Moves s' := by
  refine ⟨hnum, hseeds, hdirty, fun z => ?_, fun z => ?_⟩
  · rw [slot_exchange hmap, hmap]
    by_cases hzy : z = y
    · rw [hzy, Function.update_self, Function.update_self]
      rfl
    · rw [Function.update_of_ne hzy, Function.update_of_ne hzy]
      by_cases hzx : z = x
      · rw [hzx, Function.update_self, Function.update_self]
        rfl
      · rw [Function.update_of_ne hzx, Function.update_of_ne hzx]
        rfl
  · rw [slot_exchange hmap]
    by_cases hzy : z = y
    · rw [hzy, Function.update_self, hx, hy]
    · rw [Function.update_of_ne hzy]
      by_cases hzx : z = x
      · rw [hzx, Function.update_self, hx, hy]
      · rw [Function.update_of_ne hzx]

/-- A slot of the middle part of a line. -/
theorem getElem?_middle {pre b post : List Nat} {k : Nat} (hk : k < b.length) :
    (pre ++ (b ++ post))[k + pre.length]? = b[k]? := by
  rw [List.getElem?_append_right (Nat.le_add_left _ _), Nat.add_sub_cancel,
    List.getElem?_append_left hk]

theorem set_middle {pre b post : List Nat} {k : Nat} (hk : k < b.length) (y : Nat) :
    (pre ++ (b ++ post)).set (k + pre.length) y = pre ++ (b.set k y ++ post) := by
  rw [List.set_append_right _ _ (Nat.le_add_left _ _), Nat.add_sub_cancel,
    List.set_append_left _ _ hk]

/-- Two items of a list exchanged. -/
theorem set_set_perm {b : List Nat} {j k x y : Nat} (hx : b[j]? = some x) (hy : b[k]? = some y) :
    b.Perm ((b.set j y).set k x) := by
  obtain ⟨hj, hbj⟩ := List.getElem?_eq_some_iff.mp hx
  obtain ⟨hk, hbk⟩ := List.getElem?_eq_some_iff.mp hy
  have hswap := List.set_set_perm hj hk
  rw [hbj, hbk] at hswap
  exact hswap.symm

/-- `shuffle` exchanges a piece with one of its own priority. -/
theorem shuffle_spec {key : Nat → Option Nat} {i p : Nat} (hi : i < s.num_pieces)
    (hp : key i = some p) (he : s.slot i = some e) (h : s.Listed key s.slot) :
    ∃ s', s.shuffle p e = some s' ∧ s'.Listed key s'.slot ∧ s.Moves s' := by
  obtain ⟨pre, us, vs, post, hpieces, hends, hkeyed, rfl, rfl⟩ := h.at hi hp he
  obtain ⟨b, hb⟩ : ∃ b, b = us ++ i :: vs := ⟨_, rfl⟩
  rw [← hb] at hpieces hends hkeyed
  have hrange := priority_range_eq hends
  have hpos : us.length < b.length := by
    rw [hb, List.length_append, List.length_cons]
    omega
  rw [shuffle, hrange]
  simp only [Option.bind_eq_bind, Option.bind_some]
  rw [if_pos (by omega), Nat.add_sub_cancel_left]
  obtain ⟨j, hj⟩ : ∃ j, j = s.random 0 % b.length := ⟨_, rfl⟩
  have hjlt : j < b.length := by
    rw [hj]
    exact Nat.mod_lt _ (by omega)
  rw [← hj]
  by_cases hsame : j + pre.flatten.length = (pre.flatten ++ us).length
  · rw [if_pos hsame]
    exact ⟨s.drawn, rfl, ⟨h.buckets, h.placed, h.mem⟩, (Moves.refl s).with_line _ _ _⟩
  · rw [if_neg hsame]
    have hline : s.m_pieces = pre.flatten ++ (b ++ post.flatten) := by
      rw [hpieces, List.flatten_append, List.flatten_cons]
    have hus : (pre.flatten ++ us).length = us.length + pre.flatten.length := by
      rw [List.length_append, Nat.add_comm]
    obtain ⟨x, hx⟩ : ∃ x, b[j]? = some x := ⟨_, List.getElem?_eq_getElem hjlt⟩
    have hy : b[us.length]? = some i := by
      rw [hb, List.getElem?_append_right (Nat.le_refl _), Nat.sub_self]
      rfl
    have hreadx : s.m_pieces[j + pre.flatten.length]? = some x := by
      rw [hline, getElem?_middle hjlt, hx]
    have hready : s.m_pieces[(pre.flatten ++ us).length]? = some i := by
      rw [hline, hus, getElem?_middle hpos, hy]
    have hslotx : s.slot x = some (j + pre.flatten.length) := by
      rw [h.placed _ _ hreadx, Nat.zero_add]
    have hxi : x ≠ i := by
      rintro rfl
      exact hsame (Option.some.inj (hslotx.symm.trans he))
    have hread : s.drawn.m_pieces = s.m_pieces := rfl
    have hmap : s.drawn.m_piece_map = s.m_piece_map := rfl
    rw [hread, hreadx, Option.bind_some, hready, Option.bind_some, hmap]
    have hline' : (s.m_pieces.set (j + pre.flatten.length) i).set (pre.flatten ++ us).length x =
        (pre ++ ((b.set j i).set us.length x) :: post).flatten := by
      rw [hline, set_middle hjlt, hus, set_middle (by rw [List.length_set]; exact hpos),
        List.flatten_append, List.flatten_cons]
    have hbuckets : List.Forall₂ List.Perm (pre ++ b :: post)
        (pre ++ ((b.set j i).set us.length x) :: post) :=
      List.rel_append (forall₂_perm_refl _) (.cons (set_set_perm hx hy) (forall₂_perm_refl _))
    refine ⟨_, rfl, ⟨⟨pre ++ ((b.set j i).set us.length x) :: post, by simp, hline', ?_,
      hkeyed.perm hbuckets⟩, ?_, fun z => ?_⟩, moves_exchange rfl rfl rfl (by rw [hslotx]; rfl)
        (by rw [he]; rfl) rfl⟩
    · rw [← ends_perm hbuckets]
      exact hends
    · rw [slot_exchange (s := s) rfl]
      exact placed_swap h.placed hreadx hready hsame
    · dsimp only
      rw [hline', ← (flatten_perm hbuckets).mem_iff, ← hpieces]
      exact h.mem z

/-- The line with enough buckets for a priority. -/
theorem Listed.padded {key slot : Nat → Option Nat} (h : s.Listed key slot) (p : Nat) :
    ∃ pre b post, s.m_pieces = (pre ++ b :: post).flatten ∧
      s.m_priority_boundries.rightpad (p + 1) s.m_pieces.length = ends 0 (pre ++ b :: post) ∧
      Keyed key 0 (pre ++ b :: post) ∧ pre.length = p := by
  obtain ⟨bs, -, hpieces, hends, hkeyed⟩ := h.buckets
  obtain ⟨cs, hcs⟩ : ∃ cs, cs = bs ++ List.replicate (p + 1 - bs.length) [] := ⟨_, rfl⟩
  have hlength : p < cs.length := by
    rw [hcs, List.length_append, List.length_replicate]
    omega
  have hsplit : cs = cs.take p ++ cs[p] :: cs.drop (p + 1) := by
    rw [List.getElem_cons_drop, List.take_append_drop]
  refine ⟨cs.take p, cs[p], cs.drop (p + 1), ?_, ?_, ?_, List.length_take_of_le (by omega)⟩
  · rw [← hsplit, hcs, flatten_padded, hpieces]
  · rw [← hsplit, hcs, hends, hpieces, rightpad_ends]
  · rw [← hsplit, hcs, keyed_append]
    exact ⟨hkeyed, keyed_replicate_nil _ _ _⟩

/-- Wherever a piece is put in its bucket, the pieces behind it make room. -/
theorem addAt_spec {i p t : Nat} {pre post : List (List Nat)} {us ws : List Nat}
    (hi : i < s.num_pieces) (hp : s.priority i = some p)
    (h : s.Listed (Function.update s.priority i none) s.slot)
    (hpieces : s.m_pieces = (pre ++ (us ++ ws) :: post).flatten)
    (hends : s.m_priority_boundries = ends 0 (pre ++ (us ++ ws) :: post))
    (hkeyed : Keyed (Function.update s.priority i none) 0 (pre ++ (us ++ ws) :: post))
    (hpre : pre.length = p) (ht : t = (pre.flatten ++ us).length) :
    ∃ s', s.addAt p t i = some s' ∧ s'.Listed s.priority s'.slot ∧ s.Moves s' := by
  subst hpre ht
  have hslot := isSome_slot_of_priority hp
  have hnot : i ∉ s.m_pieces := by
    rw [h.mem, Function.update_self]
    exact fun hx => by cases hx.2
  have hline : s.m_pieces = pre.flatten ++ us ++ (ws :: post).flatten := by
    rw [hpieces]
    simp only [List.flatten_append, List.flatten_cons, List.append_assoc]
  have hplaced := h.placed
  have hnodup := hplaced.nodup
  have hlt : (pre.flatten ++ us).length ≤ s.m_pieces.length := by
    rw [hline]
    simp only [List.length_append]
    omega
  rw [hline] at hnot hnodup hplaced
  rw [List.mem_append, not_or] at hnot
  rw [placed_append, Nat.zero_add] at hplaced
  obtain ⟨hpre, hpost⟩ := hplaced
  have hdrop : s.m_priority_boundries.drop pre.length =
      ends (pre.flatten ++ us).length (ws :: post) := by
    rw [hends, drop_ends, ends, ends, List.length_append, List.length_append, Nat.zero_add,
      Nat.add_assoc]
  have hread : s.m_pieces[(pre.flatten ++ us).length]? = (ws :: post).flatten.head? := by
    rw [hline, List.getElem?_append_right (Nat.le_refl _), Nat.sub_self, List.head?_eq_getElem?]
  have hmoves := moves_put (e := (pre.flatten ++ us).length) hslot
  have hlength : (pre.flatten ++ us ++ [i]).length = (pre.flatten ++ us).length + 1 :=
    List.length_append
  have hput := put_displaced (x := i) hline
  have hnodup' : (pre.flatten ++ us ++ [i] ++ (ws :: post).flatten).Nodup := by
    rw [List.append_assoc _ [i], List.singleton_append, List.nodup_middle, List.nodup_cons,
      List.mem_append, not_or]
    exact ⟨hnot, hnodup⟩
  have hpre' : Placed (s.put (pre.flatten ++ us).length i).slot 0 (pre.flatten ++ us ++ [i]) := by
    rw [placed_append, placed_cons, Nat.zero_add]
    refine ⟨placed_put hpre hnot.1, ?_, placed_nil _ _⟩
    rw [slot_put, Function.update_self]
  have htail := placed_put (e := (pre.flatten ++ us).length) (placed_tail hpost)
    (fun hmem => hnot.2 (List.mem_of_mem_tail hmem))
  have hhand : ∀ y ∈ (ws :: post).flatten.head?,
      ((s.put (pre.flatten ++ us).length i).slot y).isSome = true := by
    intro y hy
    obtain ⟨k, hk, -⟩ := hpost.lt (List.mem_of_mem_head? hy)
    rw [hmoves.isSome, hk, Option.isSome_some]
  obtain ⟨bs', s', hloop, hperm, hpieces', hplaced', hmoves'⟩ :=
    addLoop_spec (List.cons_ne_nil ws post) hlength hput hnodup' hpre' htail hhand
  obtain ⟨ws', post', hws, hpost', rfl⟩ := List.forall₂_cons_left_iff.mp hperm
  have hbuckets : List.Forall₂ List.Perm (pre ++ (us ++ i :: ws) :: post)
      (pre ++ (us ++ i :: ws') :: post') :=
    List.rel_append (forall₂_perm_refl _) (.cons ((hws.cons i).append_left us) hpost')
  refine ⟨{ s' with
      m_priority_boundries := s.m_priority_boundries.take pre.length ++
        ends ((pre.flatten ++ us).length + 1) (ws' :: post') },
    by rw [addAt, if_pos hlt, hdrop, hread]; dsimp only; rw [hloop]; rfl,
    ⟨⟨pre ++ (us ++ i :: ws') :: post', by simp, ?_, ?_, Keyed.perm ?_ hbuckets⟩, hplaced',
      fun x => ?_⟩, (hmoves.trans hmoves').with_line _ _ _⟩
  · dsimp only
    rw [hpieces']
    simp only [List.flatten_append, List.flatten_cons, List.append_assoc, List.cons_append,
      List.nil_append]
  · have hend : (pre.flatten ++ us).length + 1 + ws'.length =
        0 + pre.flatten.length + (us ++ i :: ws').length := by
      rw [List.length_append, List.length_append, List.length_cons]
      omega
    dsimp only
    rw [hends, take_ends, ends_append, ends, ends, hend]
  · rw [hpieces] at hline
    rw [keyed_update (by rw [hline]; exact fun hx => (List.mem_append.mp hx).elim hnot.1 hnot.2)]
      at hkeyed
    exact keyed_insert.mpr ⟨by rw [hp, Nat.zero_add], hkeyed⟩
  · dsimp only
    have hx := h.mem x
    rw [hline, List.mem_append] at hx
    rw [hpieces', (hmoves.trans hmoves').num_pieces, List.mem_append, List.mem_append,
      List.mem_singleton, ← (flatten_perm hperm).mem_iff, or_right_comm]
    by_cases hxi : x = i
    · rw [hxi, hp]
      exact iff_of_true (.inr rfl) ⟨hi, rfl⟩
    · rw [Function.update_of_ne hxi] at hx
      rw [← hx, or_iff_left hxi]

/-- `add` puts a piece in a random place of its bucket. -/
theorem add_spec {i p : Nat} (hi : i < s.num_pieces) (hp : s.priority i = some p)
    (h : s.Listed (Function.update s.priority i none) s.slot) :
    ∃ s', s.add i = some s' ∧ s'.Listed s.priority s'.slot ∧ s.Moves s' := by
  obtain ⟨pre, b, post, hpieces, hends, hkeyed, rfl⟩ := h.padded p
  have hbucket : s.Moves (s.withBucket pre.length) := (Moves.refl s).with_line _ _ _
  have hlisted : (s.withBucket pre.length).Listed (Function.update s.priority i none) s.slot :=
    ⟨⟨pre ++ b :: post, by simp, hpieces, hends, hkeyed⟩, h.placed, h.mem⟩
  rw [add, hp, Option.bind_eq_bind, Option.bind_some]
  dsimp only
  rw [priority_range_eq hends, Option.bind_eq_bind, Option.bind_some]
  dsimp only
  by_cases hempty : pre.flatten.length + b.length = pre.flatten.length
  · rw [if_pos hempty]
    have hstart : pre.flatten.length = (pre.flatten ++ ([] : List Nat)).length := by
      rw [List.append_nil]
    have hpieces' : (s.withBucket pre.length).m_pieces = (pre ++ ([] ++ b) :: post).flatten :=
      hpieces
    obtain ⟨s', hs', hlisted', hmoves⟩ :=
      addAt_spec (s := s.withBucket pre.length) hi hp hlisted hpieces' hends hkeyed rfl hstart
    exact ⟨s', hs', hlisted', hbucket.trans hmoves⟩
  · rw [if_neg hempty]
    obtain ⟨k, hk⟩ : ∃ k, k = (s.withBucket pre.length).random 0 %
      (pre.flatten.length + b.length - pre.flatten.length + 1) := ⟨_, rfl⟩
    have hle : k ≤ b.length := by
      have hlt := Nat.mod_lt ((s.withBucket pre.length).random 0)
        (show 0 < pre.flatten.length + b.length - pre.flatten.length + 1 by omega)
      omega
    rw [← hk]
    obtain ⟨us, ws, rfl, rfl⟩ := exists_cut hle
    have hstart : us.length + pre.flatten.length = (pre.flatten ++ us).length := by
      rw [List.length_append, Nat.add_comm]
    have hdrawn : (s.withBucket pre.length).drawn.Listed (Function.update s.priority i none)
        s.slot :=
      ⟨hlisted.buckets, hlisted.placed, hlisted.mem⟩
    obtain ⟨s', hs', hlisted', hmoves⟩ := addAt_spec (s := (s.withBucket pre.length).drawn)
      hi hp hdrawn hpieces hends hkeyed rfl hstart
    exact ⟨s', hs', hlisted', hbucket.trans (((Moves.refl _).with_line _ _ _).trans hmoves)⟩

theorem Listed.withBucket {key slot : Nat → Option Nat} (h : s.Listed key slot) (q : Nat) :
    (s.withBucket q).Listed key slot ∧ q < (s.withBucket q).m_priority_boundries.length := by
  obtain ⟨bs, hbs, hpieces, hends, hkeyed⟩ := h.buckets
  refine ⟨⟨⟨bs ++ List.replicate (q + 1 - bs.length) [], by simp [hbs], ?_, ?_, ?_⟩, h.placed,
    h.mem⟩, ?_⟩
  · rw [flatten_padded]
    exact hpieces
  · rw [PieceOrder.withBucket, hends, hpieces, rightpad_ends]
  · rw [keyed_append]
    exact ⟨hkeyed, keyed_replicate_nil _ _ _⟩
  · rw [PieceOrder.withBucket, List.rightpad, List.length_append, List.length_replicate]
    omega

/-- A piece that arrives in the hole completes the line. -/
theorem listed_put {key : Nat → Option Nat} {old L R : List (List Nat)}
    {xs ys boundries : List Nat} {i hole : Nat}
    (hpieces : s.m_pieces = L.flatten ++ xs ++ hole :: (ys ++ R.flatten))
    (hpre : Placed s.slot 0 (L.flatten ++ xs))
    (hpost : Placed s.slot ((L.flatten ++ xs).length + 1) (ys ++ R.flatten))
    (hbuckets : List.Forall₂ List.Perm old (L ++ (xs ++ ys) :: R)) (hkeyed : Keyed key 0 old)
    (hnot : i ∉ old.flatten) (hkey : key i = some L.length)
    (hmem : ∀ x, x ∈ i :: old.flatten ↔ x < s.num_pieces ∧ (key x).isSome = true)
    (hends : boundries = ends 0 (L ++ (xs ++ i :: ys) :: R)) :
    ({ s.put (L.flatten ++ xs).length i with
        m_priority_boundries := boundries } : PieceOrder).Listed key
      (s.put (L.flatten ++ xs).length i).slot := by
  have hline : (s.put (L.flatten ++ xs).length i).m_pieces =
      (L ++ (xs ++ i :: ys) :: R).flatten := by
    rw [put_pieces hpieces]
    simp only [List.flatten_append, List.flatten_cons, List.append_assoc, List.cons_append]
  have hnot' : i ∉ L.flatten ++ xs ∧ i ∉ ys ++ R.flatten := by
    rw [(flatten_perm hbuckets).mem_iff] at hnot
    simp only [List.mem_append, not_or, List.flatten_append, List.flatten_cons] at hnot ⊢
    exact ⟨⟨hnot.1, hnot.2.1.1⟩, hnot.2.1.2, hnot.2.2⟩
  refine ⟨⟨_, by simp, hline, hends, keyed_insert.mpr ⟨by rw [hkey, Nat.zero_add],
    hkeyed.perm hbuckets⟩⟩, ?_, fun x => ?_⟩
  · dsimp only
    rw [put_pieces hpieces, placed_append, placed_cons, Nat.zero_add]
    refine ⟨placed_put hpre hnot'.1, ?_, placed_put hpost hnot'.2⟩
    rw [slot_put, Function.update_self]
  · have hx := hmem x
    rw [((flatten_perm hbuckets).cons i).mem_iff,
      ← (flatten_insert L R xs ys i).mem_iff, ← hline] at hx
    exact hx

/-- What is known of the piece that moves and of the others. -/
theorem Listed.others {key slot : Nat → Option Nat} {i p q : Nat} {pre post : List (List Nat)}
    {us vs : List Nat} (h : s.Listed (Function.update key i (some p)) slot)
    (hnew : key i = some q) (hpieces : s.m_pieces = (pre ++ (us ++ i :: vs) :: post).flatten)
    (hkeyed : Keyed (Function.update key i (some p)) 0 (pre ++ (us ++ i :: vs) :: post)) :
    Keyed key 0 (pre ++ (us ++ vs) :: post) ∧ i ∉ (pre ++ (us ++ vs) :: post).flatten ∧
      ∀ x, x ∈ i :: (pre ++ (us ++ vs) :: post).flatten ↔
        x < s.num_pieces ∧ (key x).isSome = true := by
  have hperm := flatten_insert pre post us vs i
  have hnodup := h.placed.nodup
  rw [hpieces, hperm.nodup_iff, List.nodup_cons] at hnodup
  refine ⟨(keyed_update hnodup.1 _).mp (keyed_insert.mp hkeyed).2, hnodup.1, fun x => ?_⟩
  rw [← hperm.mem_iff, ← hpieces, h.mem]
  by_cases hxi : x = i
  · rw [hxi, Function.update_self, hnew, Option.isSome_some, Option.isSome_some]
  · rw [Function.update_of_ne hxi]

/-- A piece goes to a bucket before its own. -/
theorem lower_spec {key : Nat → Option Nat} {i p : Nat} {A B post : List (List Nat)}
    {us vs : List Nat} (hB : B ≠ []) (h : s.Listed (Function.update key i (some p)) s.slot)
    (hpieces : s.m_pieces = ((A ++ B) ++ (us ++ i :: vs) :: post).flatten)
    (hends : s.m_priority_boundries = ends 0 ((A ++ B) ++ (us ++ i :: vs) :: post))
    (hkeyed : Keyed (Function.update key i (some p)) 0 ((A ++ B) ++ (us ++ i :: vs) :: post))
    (hnew : key i = some A.length) :
    ∃ s₁ e' ends', lowerLoop ((s.m_priority_boundries.take (A ++ B).length).drop A.length).reverse
        ((A ++ B).flatten ++ us).length i s = some (s₁, e', ends') ∧
      ({ s₁.put e' i with
          m_priority_boundries := s.m_priority_boundries.take A.length ++ ends'.reverse ++
            s.m_priority_boundries.drop (A ++ B).length } : PieceOrder).Listed key
        (s₁.put e' i).slot ∧ s.Moves s₁ ∧ (s₁.slot i).isSome = true := by
  obtain ⟨b, B, rfl⟩ := List.exists_cons_of_ne_nil hB
  obtain ⟨hwithout, hnot, hmem⟩ := h.others hnew hpieces hkeyed
  have hline : s.m_pieces = A.flatten ++ (b :: B).flatten ++ us ++ i :: (vs ++ post.flatten) := by
    rw [hpieces]
    simp only [List.flatten_append, List.flatten_cons, List.append_assoc, List.cons_append]
  have hplaced := h.placed
  rw [hline, placed_append, placed_cons, Nat.zero_add] at hplaced
  obtain ⟨hpre, hslot, hpost⟩ := hplaced
  have htemp : i ∉ A.flatten ++ (b :: B).flatten ++ us := by
    simp only [List.mem_append, not_or, List.flatten_append, List.flatten_cons] at hnot ⊢
    exact ⟨hnot.1, hnot.2.1.1⟩
  have hcut : (s.m_priority_boundries.take (A ++ b :: B).length).drop A.length =
      ends A.flatten.length (b :: B) := by
    rw [hends, take_ends, drop_ends, Nat.zero_add]
  obtain ⟨c, cs, hole, s₁, hloop, hperm, hpieces₁, hpre₁, hpost₁, hmoves₁⟩ :=
    lowerLoop_spec hline htemp hpre hpost
  obtain ⟨c', cs', hbc, hcs, hcons⟩ := List.forall₂_cons_left_iff.mp hperm
  obtain ⟨rfl, rfl⟩ := List.cons.inj hcons
  obtain ⟨B', us', rfl, hBs, hus⟩ := forall₂_perm_concat hcs
  refine ⟨s₁, _, _, by rw [hcut, List.flatten_append, hloop], ?_, hmoves₁,
    by rw [hmoves₁.isSome, hslot]; rfl⟩
  have hflat : (B' ++ [us']).flatten ++ (vs ++ post.flatten) =
      [] ++ (B' ++ (us' ++ vs) :: post).flatten := by
    simp only [List.flatten_append, List.flatten_cons, List.append_assoc, List.nil_append,
      List.flatten_nil]
  rw [hflat] at hpieces₁ hpost₁
  refine listed_put hpieces₁ hpre₁ hpost₁ ?_ hwithout hnot hnew ?_ ?_
  · rw [List.append_nil, List.append_assoc, List.cons_append]
    exact List.rel_append (forall₂_perm_refl A) (.cons hbc
      (List.rel_append hBs (.cons (hus.append_right vs) (forall₂_perm_refl post))))
  · intro x
    rw [hmoves₁.num_pieces]
    exact hmem x
  · have hfirst : A.flatten.length + 1 + b.length = 0 + A.flatten.length + (c ++ [i]).length := by
      rw [List.length_append, List.length_singleton, hbc.length_eq]
      omega
    have hlast : 0 + (A ++ b :: B).flatten.length + (us ++ i :: vs).length =
        0 + A.flatten.length + (c ++ [i]).length + B'.flatten.length + (us' ++ vs).length := by
      have hflatB := (flatten_perm hBs).length_eq
      have husl := hus.length_eq
      simp only [List.flatten_append, List.flatten_cons, List.length_append, List.length_cons,
        List.length_nil, hbc.length_eq]
      omega
    rw [hends, List.append_assoc A, take_ends, ← List.append_assoc A, drop_ends,
      List.reverse_reverse, ends_append 0 A, ends, ends, ends, hfirst, ends_append _ B', ends,
      ends_perm hBs, hlast, List.append_assoc, List.cons_append]

/-- A piece goes to a bucket behind its own. -/
theorem raise_spec {key : Nat → Option Nat} {i p : Nat} {pre C D : List (List Nat)}
    {us vs d : List Nat} (h : s.Listed (Function.update key i (some p)) s.slot)
    (hpieces : s.m_pieces = (pre ++ (us ++ i :: vs) :: (C ++ d :: D)).flatten)
    (hends : s.m_priority_boundries = ends 0 (pre ++ (us ++ i :: vs) :: (C ++ d :: D)))
    (hkeyed : Keyed (Function.update key i (some p)) 0 (pre ++ (us ++ i :: vs) :: (C ++ d :: D)))
    (hnew : key i = some (pre.length + 1 + C.length)) :
    ∃ s₁ e' ends', raiseLoop ((s.m_priority_boundries.take (pre.length + 1 + C.length)).drop
        pre.length) (pre.flatten ++ us).length i s = some (s₁, e', ends') ∧
      ({ s₁.put e' i with
          m_priority_boundries := s.m_priority_boundries.take pre.length ++ ends' ++
            s.m_priority_boundries.drop (pre.length + 1 + C.length) } : PieceOrder).Listed key
        (s₁.put e' i).slot ∧ s.Moves s₁ ∧ (s₁.slot i).isSome = true := by
  obtain ⟨hwithout, hnot, hmem⟩ := h.others hnew hpieces hkeyed
  have hline : s.m_pieces = pre.flatten ++ us ++ i :: ((vs :: C).flatten ++ (d ++ D.flatten)) := by
    rw [hpieces]
    simp only [List.flatten_append, List.flatten_cons, List.append_assoc, List.cons_append]
  have hplaced := h.placed
  rw [hline, placed_append, placed_cons, Nat.zero_add] at hplaced
  obtain ⟨hpre, hslot, hpost⟩ := hplaced
  have htemp : i ∉ (vs :: C).flatten := by
    simp only [List.mem_append, not_or, List.flatten_append, List.flatten_cons] at hnot ⊢
    exact ⟨hnot.2.1.2, hnot.2.2.1⟩
  -- the boundries are those of the buckets the piece passes
  have hsplit : pre ++ (us ++ i :: vs) :: (C ++ d :: D) =
      pre ++ (us ++ i :: vs) :: C ++ d :: D := by
    rw [List.append_assoc, List.cons_append]
  have hlength : (pre ++ (us ++ i :: vs) :: C).length = pre.length + 1 + C.length := by
    rw [List.length_append, List.length_cons]
    omega
  have hend : pre.flatten.length + (us ++ i :: vs).length =
      (pre.flatten ++ us).length + 1 + vs.length := by
    rw [List.length_append, List.length_append, List.length_cons]
    omega
  have hcut : (s.m_priority_boundries.take (pre.length + 1 + C.length)).drop pre.length =
      ends ((pre.flatten ++ us).length + 1) (vs :: C) := by
    rw [hends, hsplit, ← hlength, take_ends, drop_ends, Nat.zero_add, ends, ends, hend]
  obtain ⟨bs', hole, s₁, hloop, hperm, hpieces₁, hpre₁, hpost₁, hmoves₁⟩ :=
    raiseLoop_spec hline htemp hpre hpost
  obtain ⟨vs', C', hvs, hC, rfl⟩ := List.forall₂_cons_left_iff.mp hperm
  refine ⟨s₁, _, _, by rw [hcut, hloop], ?_, hmoves₁, by rw [hmoves₁.isSome, hslot]; rfl⟩
  have hflat : pre.flatten ++ us ++ (vs' :: C').flatten =
      (pre ++ (us ++ vs') :: C').flatten ++ ([] : List Nat) := by
    simp only [List.flatten_append, List.flatten_cons, List.append_assoc, List.append_nil]
  rw [hflat] at hpieces₁ hpre₁ hpost₁ ⊢
  have hC' : C.length = C'.length := hC.length_eq
  refine listed_put hpieces₁ hpre₁ hpost₁ ?_ hwithout hnot ?_ ?_ ?_
  · rw [List.nil_append, List.append_assoc, List.cons_append]
    exact List.rel_append (forall₂_perm_refl pre)
      (.cons (hvs.append_left us) (List.rel_append hC (forall₂_perm_refl (d :: D))))
  · rw [hnew, List.length_append, List.length_cons, ← hC']
    congr 1
    omega
  · intro x
    rw [hmoves₁.num_pieces]
    exact hmem x
  · have hfirst : (pre.flatten ++ us).length + vs'.length =
        pre.flatten.length + (us ++ vs').length := by
      rw [List.length_append, List.length_append]
      omega
    have hsum : 0 + (pre ++ (us ++ i :: vs) :: C).flatten.length + d.length =
        0 + (pre ++ (us ++ vs') :: C').flatten.length + (i :: d).length := by
      have hflatC := (flatten_perm hC).length_eq
      have hvs' := hvs.length_eq
      simp only [List.flatten_append, List.flatten_cons, List.length_append, List.length_cons]
      omega
    rw [hends, take_ends, hsplit, ← hlength, drop_ends, ends_append 0 (pre ++ (us ++ vs') :: C'),
      ends_append 0 pre, ends, ends, ends, ends, hsum, hfirst, Nat.zero_add, Nat.zero_add,
      List.nil_append]

/-- The piece that has arrived in its bucket is shuffled within it. -/
theorem shuffle_arrived {key : Nat → Option Nat} {i q : Nat} {boundries : List Nat}
    (hi : i < s.num_pieces) (hkey : key i = some q) (hmoves : s.Moves s')
    (hsome : (s'.slot i).isSome = true)
    (hlisted : ({ s'.put e i with m_priority_boundries := boundries } : PieceOrder).Listed key
      (s'.put e i).slot) :
    ∃ t, ({ s'.put e i with m_priority_boundries := boundries } : PieceOrder).shuffle q e =
      some t ∧ t.Listed key t.slot ∧ s.Moves t := by
  have hput := hmoves.trans (moves_put (e := e) hsome)
  have hat : (s'.put e i).slot i = some e := by
    rw [slot_put, Function.update_self]
  obtain ⟨t, ht, hlisted', hmoves'⟩ := shuffle_spec
    (s := { s'.put e i with m_priority_boundries := boundries })
    (by rw [hput.num_pieces]; exact hi) hkey hat hlisted
  exact ⟨t, ht, hlisted', (hput.with_line _ _ _).trans hmoves'⟩

/-- `update` takes a piece to the bucket of its new priority, or out of the line. -/
theorem update_spec {i p : Nat} (hi : i < s.num_pieces) (he : s.slot i = some e)
    (h : s.Listed (Function.update s.priority i (some p)) s.slot) :
    ∃ s', s.update p e = some s' ∧ s'.Listed s.priority s'.slot ∧ s.Moves s' := by
  have hread : s.m_pieces[e]? = some i := by
    refine h.placed.getElem? ?_ he
    rw [h.mem, Function.update_self]
    exact ⟨hi, rfl⟩
  rw [update, hread]
  simp only [Option.bind_eq_bind, Option.bind_some]
  cases hnew : s.priority i with
  | none =>
    refine remove_spec hi hnew ?_
    rwa [← he, Function.update_eq_self]
  | some q =>
    dsimp only
    by_cases hsame : q = p
    · rw [if_pos hsame]
      rw [← hsame, ← hnew, Function.update_eq_self] at h
      exact ⟨s, rfl, h, Moves.refl s⟩
    rw [if_neg hsame]
    have hmoves : s.Moves (s.withBucket q) := (Moves.refl s).with_line _ _ _
    obtain ⟨hlisted, hq⟩ := h.withBucket q
    obtain ⟨t, ht⟩ : ∃ t, t = s.withBucket q := ⟨_, rfl⟩
    have hkey : t.priority = s.priority := by rw [ht, hmoves.priority]
    have hslot : t.slot = s.slot := by rw [ht]; rfl
    have hnum : t.num_pieces = s.num_pieces := by rw [ht, hmoves.num_pieces]
    rw [← ht] at hmoves hlisted hq ⊢
    rw [← hslot] at hlisted he
    obtain ⟨pre, us, vs, post, hpieces, hends, hkeyed, rfl, rfl⟩ :=
      hlisted.at (hnum ▸ hi) (Function.update_self _ _ _) he
    by_cases hlt : q < pre.length
    · obtain ⟨A, B, rfl, rfl⟩ := exists_cut (Nat.le_of_lt hlt)
      have hB : B ≠ [] := by
        rintro rfl
        rw [List.append_nil] at hlt
        exact Nat.lt_irrefl _ hlt
      obtain ⟨s₁, e', ends', hloop, hline, hmoves₁, hsome⟩ :=
        lower_spec hB hlisted hpieces hends hkeyed hnew
      have hsize : (A ++ B).length ≤ t.m_priority_boundries.length := by
        rw [hends, length_ends]
        exact (List.prefix_append _ _).length_le
      rw [if_pos hlt, if_pos hsize, hloop, Option.bind_some]
      obtain ⟨s', hs', hlisted', hmoves'⟩ := shuffle_arrived (hnum ▸ hi) hnew hmoves₁ hsome hline
      exact ⟨s', hs', hlisted', hmoves.trans hmoves'⟩
    · rw [hends, length_ends, List.length_append, List.length_cons] at hq
      obtain ⟨C, D, hpost, hC⟩ := exists_cut (show q - pre.length - 1 ≤ post.length by omega)
      have hDlength : D ≠ [] := by
        rintro rfl
        rw [List.append_nil] at hpost
        rw [hpost] at hq
        omega
      obtain ⟨d, D, rfl⟩ := List.exists_cons_of_ne_nil hDlength
      obtain rfl : q = pre.length + 1 + C.length := by omega
      rw [hpost] at hpieces hends hkeyed
      obtain ⟨s₁, e', ends', hloop, hline, hmoves₁, hsome⟩ :=
        raise_spec hlisted hpieces hends hkeyed hnew
      rw [if_neg hlt, hloop, Option.bind_some]
      obtain ⟨s', hs', hlisted', hmoves'⟩ := shuffle_arrived (hnum ▸ hi) hnew hmoves₁ hsome hline
      exact ⟨s', hs', hlisted', hmoves.trans hmoves'⟩

end PieceOrder

end TorrentApp.Torrent.Picker
