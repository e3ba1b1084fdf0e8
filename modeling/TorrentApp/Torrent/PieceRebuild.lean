import TorrentApp.Torrent.PieceMoves

set_option autoImplicit false

/-!
# Building the order anew

`update_pieces` sorts the pieces by counting: each is numbered within its bucket, the
counts become ends, each is put where its number says, and every bucket is shuffled.
Whatever line was there before, the line it leaves is the sorted one.
-/

namespace TorrentApp.Torrent.Picker

open TorrentApp.Foundation

namespace PieceOrder

/-! ## The buckets -/

/-- The pieces before `n` of a priority. -/
def bucket (key : Nat → Option Nat) (n q : Nat) : List Nat :=
  (List.range n).filter fun i => key i == some q

variable {key : Nat → Option Nat} {n q i : Nat}

theorem bucket_succ : bucket key (n + 1) q =
    bucket key n q ++ if key n = some q then [n] else [] := by
  rw [bucket, List.range_succ, List.filter_append, bucket]
  congr 1
  by_cases hn : key n = some q
  · simp [hn]
  · simp [hn]

theorem mem_bucket {x : Nat} : x ∈ bucket key n q ↔ x < n ∧ key x = some q := by
  rw [bucket, List.mem_filter, List.mem_range, beq_iff_eq]

/-- A piece stands in its bucket behind those before it. -/
theorem placed_bucket (key : Nat → Option Nat) (n q : Nat) :
    Placed (fun x => some (bucket key x q).length) 0 (bucket key n q) := by
  induction n with
  | zero => exact placed_nil _ _
  | succ n ih =>
    rw [bucket_succ]
    split
    · rw [placed_append, placed_cons, Nat.zero_add]
      exact ⟨ih, rfl, placed_nil _ _⟩
    · rwa [List.append_nil]

/-- The first `k` buckets of `n` pieces. -/
def allBuckets (key : Nat → Option Nat) (n k : Nat) : List (List Nat) :=
  (List.range k).map (bucket key n)

theorem keyed_range' (key : Nat → Option Nat) (n k start : Nat) :
    Keyed key start ((List.range' start k).map (bucket key n)) := by
  induction k generalizing start with
  | zero => exact trivial
  | succ k ih =>
    rw [List.range'_succ, List.map_cons]
    exact ⟨fun x hx => (mem_bucket.mp hx).2, ih (start + 1)⟩

theorem keyed_allBuckets (key : Nat → Option Nat) (n k : Nat) :
    Keyed key 0 (allBuckets key n k) := by
  rw [allBuckets, List.range_eq_range']
  exact keyed_range' key n k 0

theorem mem_allBuckets {k x : Nat} (hk : ∀ i < n, ∀ q, key i = some q → q < k) :
    x ∈ (allBuckets key n k).flatten ↔ x < n ∧ (key x).isSome = true := by
  rw [allBuckets, List.mem_flatten]
  constructor
  · rintro ⟨b, hb, hx⟩
    obtain ⟨q, -, rfl⟩ := List.mem_map.mp hb
    obtain ⟨hlt, hq⟩ := mem_bucket.mp hx
    exact ⟨hlt, by rw [hq]; rfl⟩
  · rintro ⟨hlt, hsome⟩
    obtain ⟨q, hq⟩ := Option.isSome_iff_exists.mp hsome
    exact ⟨bucket key n q, List.mem_map_of_mem (List.mem_range.mpr (hk x hlt q hq)),
      mem_bucket.mpr ⟨hlt, hq⟩⟩

/-- The place of a piece in the line of all buckets. -/
def place (key : Nat → Option Nat) (n k x : Nat) : Option Nat :=
  (key x).map fun q => ((allBuckets key n k).take q).flatten.length + (bucket key x q).length

theorem placed_allBuckets (key : Nat → Option Nat) (n k : Nat) :
    Placed (place key n k) 0 (allBuckets key n k).flatten := by
  refine placed_flatten fun q b hb => ?_
  rw [Nat.zero_add]
  obtain ⟨hlt, rfl⟩ := List.getElem?_eq_some_iff.mp hb
  have hbucket : (allBuckets key n k)[q] = bucket key n q := by
    simp only [allBuckets, List.getElem_map, List.getElem_range]
  intro j x hx
  rw [hbucket] at hx
  have hplaced := placed_bucket key n q j x hx
  dsimp only at hplaced
  rw [Nat.zero_add] at hplaced
  rw [place, (mem_bucket.mp (List.mem_of_getElem? hx)).2, Option.map_some,
    Option.some.inj hplaced]

theorem sumUp_eq (base : Nat) (bs : List (List Nat)) :
    sumUp base (bs.map List.length) = ends base bs := by
  induction bs generalizing base with
  | nil => rfl
  | cons b bs ih => rw [List.map_cons, sumUp, ih, ends, Nat.add_comm]

/-! ## Counting -/

/-- What has been counted after the pieces before `m`. -/
structure Counted (s : PieceOrder) (m : Nat) (t : PieceOrder) : Prop where
  moves : s.Moves t
  boundries : ∃ k, 0 < k ∧ t.m_priority_boundries = (allBuckets s.priority m k).map List.length ∧
    ∀ i < m, ∀ q, s.priority i = some q → q < k
  slot : ∀ i < m, ∀ q, s.priority i = some q → t.slot i = some (bucket s.priority i q).length

/-- Counts of empty buckets are added. -/
theorem rightpad_counts {k : Nat} (hk : ∀ i < n, ∀ q, key i = some q → q < k) (q : Nat) :
    ((allBuckets key n k).map List.length).rightpad (q + 1) 0 =
      (allBuckets key n (k + (q + 1 - k))).map List.length := by
  have hzero : (List.range (q + 1 - k)).map (fun j => (bucket key n (k + j)).length) =
      List.replicate (q + 1 - k) 0 := by
    refine List.eq_replicate_iff.mpr ⟨by rw [List.length_map, List.length_range], fun x hx => ?_⟩
    obtain ⟨j, -, rfl⟩ := List.mem_map.mp hx
    rw [List.length_eq_zero_iff, List.eq_nil_iff_forall_not_mem]
    intro i hi
    obtain ⟨hlt, hkey⟩ := mem_bucket.mp hi
    have := hk i hlt _ hkey
    omega
  rw [List.rightpad, List.length_map, allBuckets, List.length_map, List.length_range, ← hzero,
    allBuckets, List.range_add, List.map_append, List.map_append, List.map_map, List.map_map,
    List.map_map]
  rfl

theorem modify_counts {k : Nat} (hn : key n = some q) :
    ((allBuckets key n k).map List.length).modify q (· + 1) =
      (allBuckets key (n + 1) k).map List.length := by
  refine List.ext_getElem? fun j => ?_
  rw [List.getElem?_modify, List.getElem?_map, List.getElem?_map, allBuckets, allBuckets,
    List.getElem?_map, List.getElem?_map]
  by_cases hj : j < k
  · simp only [List.getElem?_range hj, Option.map_some, Option.map_eq_map, bucket_succ, hn]
    by_cases hqj : q = j
    · rw [if_pos hqj, if_pos (by rw [hqj]), List.length_append, List.length_singleton]
    · rw [if_neg hqj, if_neg (fun h => hqj (Option.some.inj h)), List.append_nil]
  · rw [List.getElem?_eq_none (by rw [List.length_range]; omega)]
    rfl

theorem counted_step {s t : PieceOrder} {m : Nat} (h : Counted s m t) :
    Counted s (m + 1) (countStep t m) := by
  obtain ⟨k, hk, hbounds, hlt⟩ := h.boundries
  rw [countStep, h.moves.priority]
  cases hm : s.priority m with
  | none =>
    have hsame : ∀ j, allBuckets s.priority (m + 1) j = allBuckets s.priority m j := by
      intro j
      refine List.map_congr_left fun q _ => ?_
      rw [bucket_succ, hm, if_neg (by simp), List.append_nil]
    refine ⟨h.moves, ⟨k, hk, by rw [hsame, hbounds], fun i hi q hq => ?_⟩, fun i hi q hq => ?_⟩
    · rcases Nat.lt_succ_iff_lt_or_eq.mp hi with hi | rfl
      · exact hlt i hi q hq
      · rw [hm] at hq
        cases hq
    · rcases Nat.lt_succ_iff_lt_or_eq.mp hi with hi | rfl
      · exact h.slot i hi q hq
      · rw [hm] at hq
        cases hq
  | some q =>
    have hpad := rightpad_counts hlt q
    have hget : ((allBuckets s.priority m (k + (q + 1 - k))).map List.length).getD q 0 =
        (bucket s.priority m q).length := by
      rw [List.getD_eq_getElem?_getD, List.getElem?_map, allBuckets, List.getElem?_map,
        List.getElem?_range (by omega)]
      rfl
    have hsome : (t.slot m).isSome = true :=
      isSome_slot_of_priority (by rw [h.moves.priority, hm])
    dsimp only
    rw [hbounds, hpad, hget, modify_counts hm]
    have hput := moves_put (e := (bucket s.priority m q).length) hsome
    refine ⟨(h.moves.trans hput).with_line t.m_pieces _ _, ⟨_, ?_, rfl, fun i hi p hp => ?_⟩,
      fun i hi p hp => ?_⟩
    · omega
    · rcases Nat.lt_succ_iff_lt_or_eq.mp hi with hi | rfl
      · have := hlt i hi p hp
        omega
      · have := Option.some.inj (hm.symm.trans hp)
        omega
    · show (t.put (bucket s.priority m q).length m).slot i = _
      rw [slot_put]
      by_cases him : i = m
      · rw [him, Function.update_self]
        rw [him] at hp
        rw [Option.some.inj (hm.symm.trans hp)]
      · rw [Function.update_of_ne him]
        exact h.slot i (by omega) p hp

theorem counted_all {s t : PieceOrder} (h : Counted s 0 t) (n : Nat) :
    Counted s n ((List.range n).foldl countStep t) := by
  induction n with
  | zero => exact h
  | succ n ih =>
    rw [List.range_succ, List.foldl_concat]
    exact counted_step ih

/-! ## Filling -/

/-- What the first two passes leave. -/
structure Summed (n k : Nat) (s : PieceOrder) : Prop where
  boundries : s.m_priority_boundries = ends 0 (allBuckets s.priority n k)
  lt : ∀ i < n, ∀ q, s.priority i = some q → q < k
  slot : ∀ i < n, ∀ q, s.priority i = some q → s.slot i = some (bucket s.priority i q).length

theorem range_start_eq {bs : List (List Nat)} {s : PieceOrder}
    (hends : s.m_priority_boundries = ends 0 bs) (hq : q ≤ bs.length) :
    s.range_start q = some (bs.take q).flatten.length := by
  rw [range_start]
  split
  · rename_i hzero
    rw [hzero]
    rfl
  · rename_i hne
    rw [hends, getElem?_ends 0 bs (by omega), Nat.sub_add_cancel (Nat.pos_of_ne_zero hne),
      Nat.zero_add]

/-- The line has the pieces before `m` in their places. -/
def FilledTo (s : PieceOrder) (n k m : Nat) (pieces : List Nat) : Prop :=
  pieces.length = (allBuckets s.priority n k).flatten.length ∧
    ∀ i < m, ∀ j, place s.priority n k i = some j → pieces[j]? = some i

theorem Summed.place_eq {s : PieceOrder} {k j : Nat} (h : Summed n k s) (hi : i < n)
    (hj : place s.priority n k i = some j) :
    (allBuckets s.priority n k).flatten[j]? = some i := by
  refine (placed_allBuckets s.priority n k).getElem? ((mem_allBuckets h.lt).mpr ⟨hi, ?_⟩) hj
  rw [place] at hj
  rw [← Option.isSome_map, hj]
  rfl

/-- A piece is written to its own place. -/
theorem fill_step {s : PieceOrder} {k m : Nat} {pieces : List Nat} (h : Summed n k s)
    (hm : m < n) (hfilled : s.FilledTo n k m pieces) :
    ∃ pieces', fillStep { s with m_pieces := pieces } m = some { s with m_pieces := pieces' } ∧
      s.FilledTo n k (m + 1) pieces' := by
  obtain ⟨hlen, hread⟩ := hfilled
  have hpriority : ({ s with m_pieces := pieces } : PieceOrder).priority m = s.priority m := rfl
  rw [fillStep, hpriority]
  cases hkey : s.priority m with
  | none =>
    refine ⟨pieces, rfl, hlen, fun i hi j hj => ?_⟩
    rcases Nat.lt_succ_iff_lt_or_eq.mp hi with hi | rfl
    · exact hread i hi j hj
    · rw [place, hkey] at hj
      cases hj
  | some q =>
    have hq := h.lt m hm q hkey
    have hstart := range_start_eq (s := { s with m_pieces := pieces }) h.boundries
      (show q ≤ (allBuckets s.priority n k).length by
        rw [allBuckets, List.length_map, List.length_range]
        omega)
    have hslot : ({ s with m_pieces := pieces } : PieceOrder).slot m =
        some (bucket s.priority m q).length := h.slot m hm q hkey
    have hplace : place s.priority n k m =
        some (((allBuckets s.priority n k).take q).flatten.length +
          (bucket s.priority m q).length) := by
      rw [place, hkey]
      rfl
    have htarget := h.place_eq hm hplace
    obtain ⟨j, hj⟩ : ∃ j, j = ((allBuckets s.priority n k).take q).flatten.length +
        (bucket s.priority m q).length := ⟨_, rfl⟩
    have hinside : j < pieces.length := by
      rw [hj, hlen]
      exact (List.getElem?_eq_some_iff.mp htarget).1
    dsimp only
    rw [hstart, hslot]
    simp only [Option.bind_eq_bind, Option.bind_some]
    rw [← hj] at hplace htarget ⊢
    rw [if_pos hinside]
    refine ⟨_, rfl, by rw [List.length_set, hlen], fun i hi j' hj' => ?_⟩
    rcases Nat.lt_succ_iff_lt_or_eq.mp hi with hi | rfl
    · -- another piece has another place
      rw [List.getElem?_set_ne, hread i hi j' hj']
      rintro rfl
      have := Option.some.inj (htarget.symm.trans (h.place_eq (by omega) hj'))
      omega
    · obtain rfl := Option.some.inj (hplace.symm.trans hj')
      exact List.getElem?_set_self hinside

theorem fill_run {s : PieceOrder} {k m : Nat} (h : Summed n k s) (hm : m ≤ n)
    (hlength : s.m_pieces.length = (allBuckets s.priority n k).flatten.length) :
    ∃ pieces, (List.range m).foldlM fillStep s = some { s with m_pieces := pieces } ∧
      s.FilledTo n k m pieces := by
  induction m with
  | zero => exact ⟨s.m_pieces, rfl, hlength, fun i hi => by cases hi⟩
  | succ m ih =>
    obtain ⟨pieces, hpieces, hfilled⟩ := ih (by omega)
    rw [List.range_succ, List.foldlM_append, hpieces]
    simp only [Option.bind_eq_bind, Option.bind_some, List.foldlM_cons, List.foldlM_nil,
      Option.pure_def, Option.bind_fun_some]
    exact fill_step h (by omega) hfilled

/-- The third pass puts every piece in its place. -/
theorem fill_all {s : PieceOrder} {k : Nat} (h : Summed n k s)
    (hlength : s.m_pieces.length = (allBuckets s.priority n k).flatten.length) :
    (List.range n).foldlM fillStep s =
      some { s with m_pieces := (allBuckets s.priority n k).flatten } := by
  obtain ⟨pieces, hpieces, hlen, hread⟩ := fill_run h (Nat.le_refl n) hlength
  rw [hpieces]
  congr 2
  refine List.ext_getElem? fun j => ?_
  by_cases hj : j < (allBuckets s.priority n k).flatten.length
  · have hx := List.getElem?_eq_getElem hj
    have hplace := placed_allBuckets s.priority n k j _ hx
    rw [Nat.zero_add] at hplace
    rw [hx, hread _ ((mem_allBuckets h.lt).mp (List.mem_of_getElem? hx)).1 j hplace]
  · rw [List.getElem?_eq_none (by omega), List.getElem?_eq_none (by omega)]

/-! ## Shuffling -/

theorem random_shuffle_perm (n : Nat) (random : Nat → Nat) (xs : List Nat) :
    (random_shuffle n random xs).1.Perm xs := by
  induction n generalizing random xs with
  | zero => exact .refl _
  | succ n ih =>
    cases xs with
    | nil => exact .refl _
    | cons x xs =>
      rw [random_shuffle]
      dsimp only
      obtain ⟨j, hj⟩ : ∃ j, j = random 0 % (xs.length + 1) := ⟨_, rfl⟩
      have hlt : j < xs.length + 1 := by
        rw [hj]
        exact Nat.mod_lt _ (Nat.succ_pos _)
      rw [← hj]
      refine (List.Perm.cons _ (ih _ _)).trans ?_
      cases j with
      | zero => exact .refl _
      | succ j =>
        have hj' : j < xs.length := by omega
        rw [List.getD_cons_succ, List.set_cons_succ, List.drop_one, List.tail_cons,
          List.getD_eq_getElem?_getD, List.getElem?_eq_getElem hj', Option.getD_some]
        refine ((List.set_perm_cons_eraseIdx hj' x).cons _).trans ?_
        refine (List.Perm.swap _ _ _).trans ?_
        exact (List.getElem_cons_eraseIdx_perm hj').cons x

theorem shuffleBuckets_spec (pre : List Nat) {bs : List (List Nat)} {s : PieceOrder}
    (hpieces : s.m_pieces = pre ++ bs.flatten) :
    ∃ bs' random, shuffleBuckets (ends pre.length bs) pre.length s =
        some { s with m_pieces := pre ++ bs'.flatten, random := random } ∧
      List.Forall₂ List.Perm bs bs' := by
  induction bs generalizing pre s with
  | nil => exact ⟨[], s.random, by rw [← hpieces]; rfl, .nil⟩
  | cons b bs ih =>
    rw [ends, shuffleBuckets]
    by_cases hempty : pre.length = pre.length + b.length
    · obtain rfl : b = [] := List.length_eq_zero_iff.mp (by omega)
      obtain ⟨bs', random, hloop, hperm⟩ := ih pre hpieces
      refine ⟨[] :: bs', random, ?_, .cons (.refl _) hperm⟩
      rw [if_pos hempty, List.length_nil, Nat.add_zero, hloop]
      rfl
    · have hinside : pre.length < pre.length + b.length ∧
          pre.length + b.length ≤ s.m_pieces.length := by
        rw [hpieces, List.flatten_cons, List.length_append, List.length_append]
        omega
      rw [if_neg hempty, if_pos hinside]
      have hcut : (s.m_pieces.take (pre.length + b.length)).drop pre.length = b := by
        rw [hpieces, List.flatten_cons, ← List.append_assoc, ← List.length_append, List.take_left,
          List.drop_left]
      have hrest : s.m_pieces.drop (pre.length + b.length) = bs.flatten := by
        rw [hpieces, List.flatten_cons, ← List.append_assoc, List.drop_left']
        exact List.length_append
      have hfirst : s.m_pieces.take pre.length = pre := by
        rw [hpieces, List.take_left']
        rfl
      rw [hcut, hrest, hfirst]
      have hperm := random_shuffle_perm (pre.length + b.length - pre.length) s.random b
      obtain ⟨r, hr⟩ : ∃ r, r = random_shuffle (pre.length + b.length - pre.length) s.random b :=
        ⟨_, rfl⟩
      rw [← hr] at hperm ⊢
      dsimp only
      have hstart : pre.length + b.length = (pre ++ r.1).length := by
        rw [List.length_append, hperm.length_eq]
      obtain ⟨bs', random, hloop, hbs⟩ := ih (pre ++ r.1) (show
        ({ s with m_pieces := pre ++ r.1 ++ bs.flatten, random := r.2 } : PieceOrder).m_pieces =
          pre ++ r.1 ++ bs.flatten from rfl)
      refine ⟨r.1 :: bs', random, ?_, .cons hperm.symm hbs⟩
      rw [hstart, hloop, List.flatten_cons, ← List.append_assoc]

/-! ## The slots -/

/-- The line with the slot of its first piece noted. -/
theorem noteSlots_cons (x : Nat) (l : List Nat) (base : Nat) (s : PieceOrder) :
    noteSlots (x :: l) base s =
      noteSlots l (base + 1) { s with m_piece_map := (s.put base x).m_piece_map } := rfl

theorem slot_noteSlots {l : List Nat} {s : PieceOrder} (base : Nat) {x : Nat} (hx : x ∉ l) :
    (noteSlots l base s).slot x = s.slot x := by
  induction l generalizing base s with
  | nil => rfl
  | cons y l ih =>
    rw [List.mem_cons, not_or] at hx
    rw [noteSlots_cons, ih (base + 1) hx.2]
    show (s.put base y).slot x = s.slot x
    rw [slot_put, Function.update_of_ne hx.1]

theorem noteSlots_spec {l : List Nat} {s : PieceOrder} (base : Nat) (hnodup : l.Nodup)
    (hsome : ∀ x ∈ l, (s.slot x).isSome = true) :
    s.Moves (noteSlots l base s) ∧ (noteSlots l base s).m_pieces = s.m_pieces ∧
      (noteSlots l base s).m_priority_boundries = s.m_priority_boundries ∧
      Placed (noteSlots l base s).slot base l := by
  induction l generalizing base s with
  | nil => exact ⟨Moves.refl s, rfl, rfl, placed_nil _ _⟩
  | cons x l ih =>
    rw [List.nodup_cons] at hnodup
    have hx := moves_put (e := base) (hsome x List.mem_cons_self)
    rw [noteSlots_cons]
    obtain ⟨t, ht⟩ : ∃ t : PieceOrder, t = { s with m_piece_map := (s.put base x).m_piece_map } :=
      ⟨_, rfl⟩
    have hslot : t.slot = (s.put base x).slot := by
      rw [ht]
      rfl
    have hmoves : s.Moves t := by
      rw [ht]
      exact hx.with_line s.m_pieces s.m_priority_boundries s.random
    rw [← ht]
    obtain ⟨htail, hpieces, hbounds, hplaced⟩ := ih (base + 1) hnodup.2 fun y hy => by
      rw [hmoves.isSome]
      exact hsome y (List.mem_cons_of_mem x hy)
    refine ⟨hmoves.trans htail, by rw [hpieces, ht], by rw [hbounds, ht],
      placed_cons.mpr ⟨?_, hplaced⟩⟩
    rw [slot_noteSlots (base + 1) hnodup.1, hslot, slot_put, Function.update_self]

/-! ## The whole -/

/-- Before the first piece nothing is counted. -/
theorem counted_zero (s : PieceOrder) (k : Nat) (hk : 0 < k) :
    Counted s 0 { s with m_priority_boundries := List.replicate k 0 } where
  moves := (Moves.refl s).with_line _ _ _
  boundries := by
    refine ⟨k, hk, (List.eq_replicate_iff.mpr ⟨?_, fun x hx => ?_⟩).symm, fun i hi => ?_⟩
    · rw [List.length_map, allBuckets, List.length_map, List.length_range]
    · obtain ⟨b, hb, rfl⟩ := List.mem_map.mp hx
      obtain ⟨q, -, rfl⟩ := List.mem_map.mp hb
      rfl
    · cases hi
  slot i hi := by cases hi

/-- Whatever the line was, `update_pieces` leaves the sorted one. -/
theorem update_pieces_spec (s : PieceOrder) :
    ∃ s', s.update_pieces = some s' ∧ s'.m_dirty = false ∧ s'.Listed s.priority s'.slot ∧
      ({ s with m_dirty := false } : PieceOrder).Moves s' := by
  obtain ⟨t, ht⟩ : ∃ t, t = (List.range s.num_pieces).foldl countStep
      { s with m_priority_boundries := List.replicate (max 1 s.m_priority_boundries.length) 0 } :=
    ⟨_, rfl⟩
  have hcounted : Counted s s.num_pieces t := by
    rw [ht]
    exact counted_all (counted_zero s _ (by omega)) s.num_pieces
  obtain ⟨k, hk, hbounds, hlt⟩ := hcounted.boundries
  have hsum : t.m_priority_boundries.sum =
      (allBuckets s.priority s.num_pieces k).flatten.length := by
    rw [hbounds, List.length_flatten]
  have hnum := hcounted.moves.num_pieces
  -- the counts have become ends, and the line has its length
  obtain ⟨u, hu⟩ : ∃ u : PieceOrder, u = { t with
      m_priority_boundries := sumUp 0 t.m_priority_boundries
      m_pieces := (t.m_pieces.take t.m_priority_boundries.sum).rightpad
        t.m_priority_boundries.sum 0 } := ⟨_, rfl⟩
  have hmoves : s.Moves u := by
    rw [hu]
    exact hcounted.moves.with_line _ _ t.random
  have hends : u.m_priority_boundries = ends 0 (allBuckets s.priority s.num_pieces k) := by
    rw [hu, hbounds]
    exact sumUp_eq 0 _
  have hlength : u.m_pieces.length = (allBuckets s.priority s.num_pieces k).flatten.length := by
    rw [hu, ← hsum]
    dsimp only
    rw [List.length_rightpad, List.length_take]
    omega
  have hsummed : Summed s.num_pieces k u := by
    constructor
    · rw [hmoves.priority, hends]
    · rw [hmoves.priority]
      exact hlt
    · rw [hmoves.priority, hu]
      exact hcounted.slot
  have hfill := fill_all hsummed (by rw [hmoves.priority, hlength])
  rw [hmoves.priority] at hfill
  obtain ⟨bs, random, hshuffle, hperm⟩ := shuffleBuckets_spec []
    (s := { u with m_pieces := (allBuckets s.priority s.num_pieces k).flatten })
    (List.nil_append _).symm
  obtain ⟨v, hv⟩ : ∃ v : PieceOrder, v = { u with m_pieces := bs.flatten, random := random } :=
    ⟨_, rfl⟩
  rw [List.length_nil, ← hends] at hshuffle
  have hshuffled : shuffleBuckets u.m_priority_boundries 0
      { u with m_pieces := (allBuckets s.priority s.num_pieces k).flatten } = some v := by
    rw [hshuffle, hv]
    rfl
  have hline : v.m_pieces = bs.flatten := by rw [hv]
  have hmovesv : s.Moves v := by
    rw [hv]
    exact hmoves.with_line _ _ _
  have hall : ∀ x, x ∈ bs.flatten ↔ x < s.num_pieces ∧ (s.priority x).isSome = true := by
    intro x
    rw [← (flatten_perm hperm).mem_iff, mem_allBuckets hlt]
  have hnodup : bs.flatten.Nodup :=
    (flatten_perm hperm).nodup_iff.mp (placed_allBuckets s.priority s.num_pieces k).nodup
  have hsome : ∀ x ∈ bs.flatten, (v.slot x).isSome = true := by
    intro x hx
    obtain ⟨q, hq⟩ := Option.isSome_iff_exists.mp ((hall x).mp hx).2
    rw [hmovesv.isSome]
    exact isSome_slot_of_priority hq
  obtain ⟨hnoted, hpieces, hbounds', hplaced⟩ := noteSlots_spec 0 hnodup hsome
  have hbs : bs ≠ [] := by
    rintro rfl
    have hlen := hperm.length_eq
    rw [allBuckets, List.length_map, List.length_range, List.length_nil] at hlen
    omega
  have hwhole : s.update_pieces = some { noteSlots bs.flatten 0 v with m_dirty := false } := by
    rw [update_pieces]
    dsimp only
    rw [← ht, ← hu, hnum, hfill]
    simp only [Option.bind_eq_bind, Option.bind_some]
    rw [hshuffled, Option.bind_some, hline]
  rw [hline] at hpieces
  refine ⟨_, hwhole, rfl, ⟨⟨bs, hbs, hpieces, ?_, (keyed_allBuckets _ _ _).perm hperm⟩, ?_,
    fun x => ?_⟩, ?_⟩
  · dsimp only
    rw [hbounds', hv, ← ends_perm hperm]
    exact hends
  · show Placed (noteSlots bs.flatten 0 v).slot 0 (noteSlots bs.flatten 0 v).m_pieces
    rw [hpieces]
    exact hplaced
  · dsimp only
    rw [hpieces, hall, (hmovesv.trans hnoted).num_pieces]
  · have hlast := hmovesv.trans hnoted
    exact ⟨hlast.num_pieces, hlast.m_seeds, rfl, hlast.map, hlast.isSome⟩

end PieceOrder

end TorrentApp.Torrent.Picker
