import TorrentApp.Torrent.PieceCalls

set_option autoImplicit false

/-!
# The order over whole runs

Every call keeps the line sorted or leaves it stale, none reaches outside of it, and
`update_pieces` makes a stale line new.  So after `update_pieces` the line holds each
piece that may be picked once, in the order of the effective priorities.
-/

namespace TorrentApp.Torrent.Picker

open TorrentApp.Foundation

namespace PieceOrder

/-! ## What a call keeps -/

/-- The line is stale, or it is the sorted one. -/
def Ordered (s : PieceOrder) : Prop := s.m_dirty = false → s.Listed s.priority s.slot

theorem ordered_of_dirty {s : PieceOrder} (h : s.m_dirty = true) : s.Ordered := fun hclean => by
  rw [h] at hclean
  cases hclean

/-- The call is excluded, or what it returns has `P`. -/
def Meets (P : PieceOrder → Prop) : Except Stop PieceOrder → Prop
  | .ok s => P s
  | .error e => e = .excluded

/-- The call keeps the order and the number of the pieces. -/
def Keeps (n : Nat) (r : Except Stop PieceOrder) : Prop :=
  Meets (fun s => s.Ordered ∧ s.num_pieces = n) r

variable {n i q : Nat} {s t : PieceOrder} {p : PiecePos} {P Q : PieceOrder → Prop}

theorem keeps_self (h : s.Ordered) : Keeps s.num_pieces (.ok s) := ⟨h, rfl⟩

theorem Meets.bind {r : Except Stop PieceOrder} {f : PieceOrder → Except Stop PieceOrder}
    (h : Meets P r) (hf : ∀ s, P s → Meets Q (f s)) : Meets Q (r >>= f) := by
  cases r with
  | ok s => exact hf s h
  | error e => exact h

theorem meets_assert {c : Bool} {f : Unit → Except Stop PieceOrder}
    (hf : c = true → Meets P (f ())) : Meets P (torrent_assert c >>= f) := by
  cases c with
  | true => exact hf rfl
  | false => exact rfl

theorem meets_foldlM {f : PieceOrder → Nat → Except Stop PieceOrder} {l : List Nat}
    (hf : ∀ s, P s → ∀ i ∈ l, Meets P (f s i)) (hs : P s) : Meets P (l.foldlM f s) := by
  induction l generalizing s with
  | nil => exact hs
  | cons i l ih =>
    rw [List.foldlM_cons]
    refine (hf s hs i List.mem_cons_self).bind fun t ht => ?_
    exact ih (fun u hu j hj => hf u hu j (List.mem_cons_of_mem i hj)) ht

/-! ## A piece with another field -/

theorem priority_setPiece :
    (s.setPiece i p).priority = Function.update s.priority i (p.priority s.m_seeds) := by
  show PiecePos.priority s.m_seeds ∘ Function.update s.m_piece_map i p = _
  rw [Function.comp_update]
  rfl

theorem slot_setPiece : (s.setPiece i p).slot = Function.update s.slot i p.index := by
  show PiecePos.index ∘ Function.update s.m_piece_map i p = _
  rw [Function.comp_update]
  rfl

/-- `t` is `s` but for a field of piece `i`, which has kept its slot. -/
structure Touched (s t : PieceOrder) (i : Nat) : Prop where
  num_pieces : t.num_pieces = s.num_pieces
  m_dirty : t.m_dirty = s.m_dirty
  slot : t.slot i = s.slot i
  listed : s.m_dirty = false → t.Listed (Function.update t.priority i (s.priority i)) t.slot

theorem touched_setPiece (h : s.Ordered) (hp : p.index = s.slot i) :
    Touched s (s.setPiece i p) i where
  num_pieces := rfl
  m_dirty := rfl
  slot := by rw [slot_setPiece, Function.update_self, hp]
  listed hclean := by
    have hlisted := h hclean
    rw [priority_setPiece, Function.update_idem, Function.update_eq_self, slot_setPiece, hp,
      Function.update_eq_self]
    exact ⟨hlisted.buckets, hlisted.placed, hlisted.mem⟩

/-- A piece that keeps its priority stays where it is. -/
theorem Touched.ordered (h : Touched s t i) (hsame : t.priority i = s.priority i) :
    t.Ordered := fun hclean => by
  have hlisted := h.listed (h.m_dirty.symm.trans hclean)
  rwa [← hsame, Function.update_eq_self] at hlisted

/-- What a move of the piece results in. -/
theorem keeps_within {r : Option PieceOrder} (hnum : t.num_pieces = n)
    (h : ∃ t', r = some t' ∧ t'.Listed t.priority t'.slot ∧ t.Moves t') : Keeps n (within r) := by
  obtain ⟨t', rfl, hlisted, hmoves⟩ := h
  refine ⟨fun _ => ?_, hmoves.num_pieces.trans hnum⟩
  rw [hmoves.priority]
  exact hlisted

theorem Touched.add (h : Touched s t i) (hi : i < s.num_pieces) (hclean : s.m_dirty = false)
    (hprev : s.priority i = none) (hnew : t.priority i = some q) :
    Keeps s.num_pieces (within (t.add i)) := by
  have hlisted := h.listed hclean
  rw [hprev] at hlisted
  exact keeps_within h.num_pieces (add_spec (by rw [h.num_pieces]; exact hi) hnew hlisted)

theorem Touched.updateFrom (h : Touched s t i) (hi : i < s.num_pieces)
    (hclean : s.m_dirty = false) (hprev : s.priority i = some q) :
    Keeps s.num_pieces (t.updateFrom q i) := by
  have hlisted := h.listed hclean
  rw [hprev] at hlisted
  obtain ⟨e, he⟩ := Option.isSome_iff_exists.mp (isSome_slot_of_priority hprev)
  have hslot := h.slot.trans he
  rw [PieceOrder.updateFrom, hslot]
  exact keeps_within h.num_pieces (update_spec (by rw [h.num_pieces]; exact hi) hslot hlisted)

theorem Touched.reposition (h : Touched s t i) (hi : i < s.num_pieces) :
    Keeps s.num_pieces (t.reposition (s.priority i) i) := by
  rw [PieceOrder.reposition.eq_def]
  split
  · rename_i hstop
    refine ⟨?_, h.num_pieces⟩
    rcases hstop with hsame | hdirty
    · exact h.ordered hsame
    · exact ordered_of_dirty hdirty
  · rename_i hgo
    rw [not_or, h.m_dirty, Bool.not_eq_true] at hgo
    cases hprev : s.priority i with
    | none =>
      obtain ⟨q, hq⟩ := Option.ne_none_iff_exists'.mp (hprev ▸ hgo.1)
      exact h.add hi hgo.2 hprev hq
    | some q => exact h.updateFrom hi hgo.2 hprev

theorem Touched.addOrUpdate (h : Touched s t i) (hi : i < s.num_pieces) :
    Keeps s.num_pieces (t.addOrUpdate (s.priority i) i) := by
  rw [PieceOrder.addOrUpdate.eq_def]
  split
  · rename_i hdirty
    exact ⟨ordered_of_dirty hdirty, h.num_pieces⟩
  · rename_i hgo
    rw [h.m_dirty, Bool.not_eq_true] at hgo
    cases hprev : s.priority i with
    | none =>
      dsimp only
      split
      · rename_i hsome
        obtain ⟨q, hq⟩ := Option.isSome_iff_exists.mp hsome
        exact h.add hi hgo hprev hq
      · rename_i hnone
        rw [Option.not_isSome_iff_eq_none] at hnone
        exact ⟨h.ordered (hnone.trans hprev.symm), h.num_pieces⟩
    | some q => exact h.updateFrom hi hgo hprev

theorem Touched.updateListed (h : Touched s t i) (hi : i < s.num_pieces)
    (hnone : s.priority i = none → t.priority i = none) :
    Keeps s.num_pieces (t.updateListed (s.priority i) i) := by
  rw [PieceOrder.updateListed.eq_def]
  split
  · rename_i hdirty
    exact ⟨ordered_of_dirty hdirty, h.num_pieces⟩
  · rename_i hgo
    rw [h.m_dirty, Bool.not_eq_true] at hgo
    cases hprev : s.priority i with
    | none => exact ⟨h.ordered ((hnone hprev).trans hprev.symm), h.num_pieces⟩
    | some q => exact h.updateFrom hi hgo hprev

/-! ## Pieces that are not in the line -/

theorem priority_eq_none_iff {m_seeds : Nat} : p.priority m_seeds = none ↔
    p.piece_priority.val = 0 ∨ p.index = none ∨ p.peer_count + m_seeds = 0 ∨
      p.download_state = .piece_full ∨ p.download_state = .piece_finished := by
  rw [PiecePos.priority]
  split
  · rename_i hstop
    simp only [PiecePos.filtered, PiecePos.have_piece, Bool.or_eq_true, beq_iff_eq,
      Option.isNone_iff_eq_none, or_assoc] at hstop
    exact iff_of_true rfl hstop
  · rename_i hgo
    simp only [PiecePos.filtered, PiecePos.have_piece, Bool.or_eq_true, beq_iff_eq,
      Option.isNone_iff_eq_none, or_assoc] at hgo
    exact iff_of_false (by simp) hgo

/-- The seeds count only as far as there are some. -/
theorem priority_seeds {a b : Nat} (ha : 0 < a) (hb : 0 < b) : p.priority a = p.priority b := by
  have hzero : ∀ c : Nat, 0 < c → (p.peer_count + c == 0) = false := fun c hc =>
    beq_eq_false_iff_ne.mpr (by omega)
  rw [PiecePos.priority, PiecePos.priority, hzero a ha, hzero b hb]

/-- A piece whose other fields bar it is not in the line, whatever its peers are. -/
theorem priority_none_of_peers {m_seeds count : Nat} (h : p.priority m_seeds = none)
    (hpeers : p.peer_count ≠ 0) : ({ p with peer_count := count } : PiecePos).priority m_seeds =
      none := by
  rw [priority_eq_none_iff] at h ⊢
  rcases h with h | h | h | h
  · exact .inl h
  · exact .inr (.inl h)
  · omega
  · exact .inr (.inr (.inr h))

/-! ## The calls for one piece -/

theorem setPiece_reposition (h : s.Ordered) (hi : i < s.num_pieces) (hp : p.index = s.slot i) :
    Keeps s.num_pieces ((s.setPiece i p).reposition (s.priority i) i) :=
  (touched_setPiece h hp).reposition hi

theorem setPiece_addOrUpdate (h : s.Ordered) (hi : i < s.num_pieces) (hp : p.index = s.slot i) :
    Keeps s.num_pieces ((s.setPiece i p).addOrUpdate (s.priority i) i) :=
  (touched_setPiece h hp).addOrUpdate hi

theorem setPiece_updateListed (h : s.Ordered) (hi : i < s.num_pieces) (hp : p.index = s.slot i)
    (hnone : s.priority i = none → p.priority s.m_seeds = none) :
    Keeps s.num_pieces ((s.setPiece i p).updateListed (s.priority i) i) := by
  refine (touched_setPiece h hp).updateListed hi fun hprev => ?_
  rw [priority_setPiece, Function.update_self]
  exact hnone hprev

theorem inc_refcount_keeps (h : s.Ordered) (hi : i < s.num_pieces) :
    Keeps s.num_pieces (s.inc_refcount i) := by
  rw [inc_refcount, countUp]
  exact setPiece_reposition h hi rfl

theorem foldl_num_pieces {f : PieceOrder → Nat → PieceOrder}
    (hf : ∀ s i, (f s i).num_pieces = s.num_pieces) (l : List Nat) (s : PieceOrder) :
    (l.foldl f s).num_pieces = s.num_pieces := by
  induction l generalizing s with
  | nil => rfl
  | cons i l ih => rw [List.foldl_cons, ih, hf]

theorem num_pieces_countUp (l : List Nat) (s : PieceOrder) :
    (l.foldl countUp s).num_pieces = s.num_pieces :=
  foldl_num_pieces (f := countUp) (fun _ _ => rfl) l s

theorem num_pieces_countDown (l : List Nat) (s : PieceOrder) :
    (l.foldl countDown s).num_pieces = s.num_pieces :=
  foldl_num_pieces (f := countDown) (fun _ _ => rfl) l s

/-- Where a seed has been broken up, the line is stale. -/
theorem breakFor_meets (s : PieceOrder) (i : Nat) :
    Meets (fun t => t.num_pieces = s.num_pieces ∧
      (t.m_dirty = true ∨ t = s ∧ (s.m_piece_map i).peer_count ≠ 0)) (s.breakFor i) := by
  rw [breakFor]
  split
  · rw [break_one_seed]
    exact meets_assert fun _ => ⟨num_pieces_countUp _ _, .inl rfl⟩
  · rename_i hpeers
    exact ⟨rfl, .inr ⟨rfl, hpeers⟩⟩

theorem dec_refcount_keeps (h : s.Ordered) (hi : i < s.num_pieces) :
    Keeps s.num_pieces (s.dec_refcount i) := by
  rw [dec_refcount]
  refine (breakFor_meets s i).bind fun t ht => ?_
  obtain ⟨hnum, hdirty | ⟨rfl, hpeers⟩⟩ := ht
  · have hstale : (t.countDown i).m_dirty = true := hdirty
    rw [updateListed.eq_def, if_pos hstale]
    exact ⟨ordered_of_dirty hdirty, hnum⟩
  · exact setPiece_updateListed h hi rfl fun hnone => priority_none_of_peers hnone hpeers

theorem update_piece_state_keeps (h : s.Ordered) (hi : i < s.num_pieces) (dp : DownloadingCounts) :
    Keeps s.num_pieces (s.update_piece_state i dp) := by
  rw [update_piece_state]
  refine meets_assert fun _ => ?_
  dsimp only
  split
  · exact keeps_self h
  · exact setPiece_addOrUpdate h hi rfl

theorem start_download_keeps (h : s.Ordered) (hi : i < s.num_pieces) (reverse : Bool) :
    Keeps s.num_pieces (s.start_download i reverse) := by
  rw [start_download]
  refine meets_assert fun hopen => setPiece_updateListed h hi rfl fun hnone => ?_
  rw [Bool.and_eq_true, beq_iff_eq] at hopen
  rw [priority, priority_eq_none_iff, hopen.1] at hnone
  rw [priority_eq_none_iff]
  rcases hnone with h | h | h | h
  · exact .inl h
  · exact .inr (.inl h)
  · exact .inr (.inr (.inl h))
  · simp at h

/-- A piece stays out of the line where its state changes to one that is no less excluded. -/
theorem priority_none_of_state {m_seeds : Nat} {state : DownloadState}
    (h : p.priority m_seeds = none)
    (hfull : p.download_state = .piece_full → state = .piece_full)
    (hfinished : p.download_state = .piece_finished → state = .piece_finished) :
    ({ p with download_state := state } : PiecePos).priority m_seeds = none := by
  rw [priority_eq_none_iff] at h ⊢
  rcases h with h | h | h | h | h
  · exact .inl h
  · exact .inr (.inl h)
  · exact .inr (.inr (.inl h))
  · exact .inr (.inr (.inr (.inl (hfull h))))
  · exact .inr (.inr (.inr (.inr (hfinished h))))

theorem make_reverse_keeps (h : s.Ordered) (hi : i < s.num_pieces) :
    Keeps s.num_pieces (s.make_reverse i) := by
  rw [make_reverse]
  refine meets_assert fun hfull => setPiece_updateListed h hi rfl fun hnone => ?_
  refine priority_none_of_state hnone (fun h => absurd h (bne_iff_ne.mp hfull)) fun h => ?_
  rw [h]
  rfl

theorem unreverse_keeps (h : s.Ordered) (hi : i < s.num_pieces) :
    Keeps s.num_pieces (s.unreverse i) := by
  rw [unreverse]
  refine setPiece_updateListed h hi rfl fun hnone => ?_
  refine priority_none_of_state hnone (fun h => ?_) fun h => ?_
  · rw [h]
    rfl
  · rw [h]
    rfl

theorem restore_piece_keeps (h : s.Ordered) (hi : i < s.num_pieces) :
    Keeps s.num_pieces (s.restore_piece i) := by
  rw [restore_piece, erase_download_piece]
  exact setPiece_reposition h hi rfl

theorem abort_download_keeps (h : s.Ordered) (hi : i < s.num_pieces) :
    Keeps s.num_pieces (s.abort_download i) := by
  rw [abort_download, erase_download_piece]
  exact setPiece_addOrUpdate h hi rfl

theorem set_piece_priority_keeps (h : s.Ordered) (hi : i < s.num_pieces) (prio : Nat)
    (dp : DownloadingCounts) : Keeps s.num_pieces (s.set_piece_priority i prio dp) := by
  rw [set_piece_priority]
  refine meets_assert fun _ => ?_
  split
  · exact keeps_self h
  · refine Meets.bind (setPiece_reposition h hi rfl) fun t ht => ?_
    split
    · rw [← ht.2]
      exact update_piece_state_keeps ht.1 (by rw [ht.2]; exact hi) dp
    · exact ht

/-- A piece that is not in the line may change in any way but stay out of it. -/
theorem listed_setPiece_outside (h : s.Listed s.priority s.slot) (hprev : s.priority i = none)
    (p : PiecePos) : (s.setPiece i p).Listed (Function.update (s.setPiece i p).priority i none)
      (s.setPiece i p).slot := by
  have hout : i ∉ s.m_pieces := by
    rw [h.mem, hprev]
    simp
  have hkey : Function.update (s.setPiece i p).priority i none = s.priority := by
    rw [← hprev, priority_setPiece, Function.update_idem, Function.update_eq_self]
  have hmoved : s.Listed s.priority (s.setPiece i p).slot := by
    refine h.congr (fun _ _ => rfl) fun x hx => ?_
    rw [slot_setPiece, Function.update_of_ne (fun hxi : x = i => hout (hxi ▸ hx))]
  rw [hkey]
  exact ⟨hmoved.buckets, hmoved.placed, hmoved.mem⟩

/-- A piece that comes into the torrent leaves the line. -/
theorem we_have_keeps (h : s.Ordered) (hi : i < s.num_pieces) :
    Keeps s.num_pieces (s.we_have i) := by
  rw [we_have]
  dsimp only
  split
  · exact keeps_self h
  · obtain ⟨p, hp⟩ : ∃ p : PiecePos,
        p = { s.m_piece_map i with download_state := .piece_open, index := none } := ⟨_, rfl⟩
    rw [← hp]
    have hnone : (s.setPiece i p).priority i = none := by
      rw [priority_setPiece, Function.update_self, priority_eq_none_iff, hp]
      exact .inr (.inl rfl)
    cases hprev : s.priority i with
    | none =>
      refine ⟨fun hclean => ?_, rfl⟩
      have houtside := listed_setPiece_outside (h hclean) hprev p
      rwa [← hnone, Function.update_eq_self] at houtside
    | some q =>
      obtain ⟨e, he⟩ := Option.isSome_iff_exists.mp (isSome_slot_of_priority hprev)
      rw [he]
      dsimp only
      split
      · rename_i hdirty
        exact ⟨ordered_of_dirty hdirty, rfl⟩
      · rename_i hclean
        have hlisted := h (Bool.not_eq_true _ ▸ hclean)
        have hkey : Function.update (s.setPiece i p).priority i (some q) = s.priority := by
          rw [← hprev, priority_setPiece, Function.update_idem, Function.update_eq_self]
        have hslot : Function.update (s.setPiece i p).slot i (some e) = s.slot := by
          rw [← he, slot_setPiece, Function.update_idem, Function.update_eq_self]
        refine keeps_within (t := s.setPiece i p) rfl
          (remove_spec (s := s.setPiece i p) hi hnone ?_)
        rw [hkey, hslot]
        exact ⟨hlisted.buckets, hlisted.placed, hlisted.mem⟩

/-- A piece that is lost comes back into the line. -/
theorem we_dont_have_keeps (h : s.Ordered) (hi : i < s.num_pieces) :
    Keeps s.num_pieces (s.we_dont_have i) := by
  rw [we_dont_have]
  refine meets_assert fun hhave => ?_
  obtain ⟨p, hp⟩ : ∃ p : PiecePos, p = { s.m_piece_map i with index := some 0 } := ⟨_, rfl⟩
  rw [← hp]
  dsimp only
  have hprev : s.priority i = none := by
    rw [priority, priority_eq_none_iff]
    exact .inr (.inl (Option.isNone_iff_eq_none.mp hhave))
  split
  · rename_i hdirty
    exact ⟨ordered_of_dirty hdirty, rfl⟩
  · rename_i hclean
    have houtside := listed_setPiece_outside (h (Bool.not_eq_true _ ▸ hclean)) hprev p
    split
    · rename_i hsome
      obtain ⟨q, hq⟩ := Option.isSome_iff_exists.mp hsome
      exact keeps_within (t := s.setPiece i p) rfl
        (add_spec (s := s.setPiece i p) hi hq houtside)
    · rename_i hnone
      rw [Option.not_isSome_iff_eq_none] at hnone
      rw [← hnone, Function.update_eq_self] at houtside
      exact ⟨fun _ => houtside, rfl⟩

/-! ## All calls -/

theorem callPiece_keeps (h : s.Ordered) (hi : i < s.num_pieces) (c : PieceCall) :
    Keeps s.num_pieces (s.callPiece i c) := by
  cases c with
  | inc_refcount => exact inc_refcount_keeps h hi
  | dec_refcount => exact dec_refcount_keeps h hi
  | update_piece_state dp => exact update_piece_state_keeps h hi dp
  | start_download reverse => exact start_download_keeps h hi reverse
  | make_reverse => exact make_reverse_keeps h hi
  | unreverse => exact unreverse_keeps h hi
  | restore_piece => exact restore_piece_keeps h hi
  | abort_download => exact abort_download_keeps h hi
  | we_have => exact we_have_keeps h hi
  | we_dont_have => exact we_dont_have_keeps h hi
  | set_piece_priority prio dp => exact set_piece_priority_keeps h hi prio dp

/-- Another number of seeds, none of them the first or the last one. -/
theorem ordered_seeds {seeds : Nat} {dirty : Bool} (h : s.Ordered)
    (hseeds : dirty = false → s.m_dirty = false ∧ 0 < s.m_seeds ∧ 0 < seeds) :
    ({ s with m_seeds := seeds, m_dirty := dirty } : PieceOrder).Ordered := by
  intro hclean
  obtain ⟨hbefore, hpos, hpos'⟩ := hseeds hclean
  have hlisted := h hbefore
  have hkey : ({ s with m_seeds := seeds, m_dirty := dirty } : PieceOrder).priority =
      s.priority := funext fun x => priority_seeds hpos' hpos
  rw [hkey]
  exact ⟨hlisted.buckets, hlisted.placed, hlisted.mem⟩

theorem inc_refcount_all_keeps (h : s.Ordered) : Keeps s.num_pieces (.ok s.inc_refcount_all) := by
  refine ⟨ordered_seeds h fun hclean => ?_, rfl⟩
  rw [Bool.or_eq_false_iff, beq_eq_false_iff_ne] at hclean
  exact ⟨hclean.1, by omega, by omega⟩

theorem dec_refcount_all_keeps (h : s.Ordered) : Keeps s.num_pieces (.ok s.dec_refcount_all) := by
  rw [dec_refcount_all]
  split
  · rename_i hpos
    refine ⟨ordered_seeds h fun hclean => ?_, rfl⟩
    rw [Bool.or_eq_false_iff, beq_eq_false_iff_ne] at hclean
    exact ⟨hclean.1, hpos, by omega⟩
  · exact ⟨ordered_of_dirty rfl, num_pieces_countDown _ _⟩

theorem lt_of_mem_set_bits {bitmask : List Bool} (hi : i ∈ set_bits bitmask) :
    i < bitmask.length :=
  List.mem_range.mp (List.mem_filter.mp hi).1

theorem inc_refcount_bits_keeps (h : s.Ordered) {bitmask : List Bool}
    (hlength : bitmask.length ≤ s.num_pieces) :
    Keeps s.num_pieces (s.inc_refcount_bits bitmask) := by
  rw [inc_refcount_bits]
  split
  · exact keeps_self h
  split
  · exact inc_refcount_all_keeps h
  split
  · refine meets_foldlM (fun t ht i hi => ?_) ⟨h, rfl⟩
    rw [← ht.2]
    refine inc_refcount_keeps ht.1 ?_
    rw [ht.2]
    exact Nat.lt_of_lt_of_le (lt_of_mem_set_bits hi) hlength
  · exact ⟨ordered_of_dirty rfl, num_pieces_countUp _ _⟩

theorem dec_refcount_bits_keeps (h : s.Ordered) {bitmask : List Bool}
    (hlength : bitmask.length ≤ s.num_pieces) :
    Keeps s.num_pieces (s.dec_refcount_bits bitmask) := by
  rw [dec_refcount_bits]
  split
  · exact keeps_self h
  split
  · exact dec_refcount_all_keeps h
  split
  · refine meets_foldlM (fun t ht i hi => ?_) ⟨h, rfl⟩
    rw [← ht.2]
    refine dec_refcount_keeps ht.1 ?_
    rw [ht.2]
    exact Nat.lt_of_lt_of_le (lt_of_mem_set_bits hi) hlength
  · refine Meets.bind (P := fun t => t.num_pieces = s.num_pieces)
      (meets_foldlM (fun t ht i _ => ?_) rfl) fun t ht => ⟨ordered_of_dirty rfl, ht⟩
    exact (breakFor_meets t i).bind fun u hu => hu.1.trans ht

/-- After a refresh there is a line, and it is sorted. -/
theorem refresh_spec (h : s.Ordered) : ∃ u, s.refresh = .ok u ∧ u.num_pieces = s.num_pieces ∧
    u.m_dirty = false ∧ u.Listed u.priority u.slot := by
  rw [refresh]
  split
  · obtain ⟨u, hu, hclean, hlisted, hmoves⟩ := update_pieces_spec s
    have hpriority : u.priority = s.priority := hmoves.priority
    rw [← hpriority] at hlisted
    exact ⟨u, by rw [hu]; rfl, hmoves.num_pieces, hclean, hlisted⟩
  · rename_i hclean
    rw [Bool.not_eq_true] at hclean
    exact ⟨s, rfl, rfl, hclean, h hclean⟩

theorem refresh_keeps (h : s.Ordered) : Keeps s.num_pieces s.refresh := by
  obtain ⟨u, hu, hnum, -, hlisted⟩ := refresh_spec h
  rw [hu]
  exact ⟨fun _ => hlisted, hnum⟩

/-- What one call preserves. -/
theorem call_keeps (h : s.Ordered) (c : Call) : Keeps s.num_pieces (s.call c) := by
  cases c with
  | piece i c => exact meets_assert fun hi => callPiece_keeps h (of_decide_eq_true hi) c
  | inc_refcount_bits bitmask =>
    exact meets_assert fun hlength => inc_refcount_bits_keeps h (of_decide_eq_true hlength)
  | dec_refcount_bits bitmask =>
    exact meets_assert fun hlength => dec_refcount_bits_keeps h (of_decide_eq_true hlength)
  | inc_refcount_all => exact inc_refcount_all_keeps h
  | dec_refcount_all => exact dec_refcount_all_keeps h
  | refresh => exact refresh_keeps h

/-! ## Runs -/

/-- What `pick_pieces` relies on after `update_pieces`: the line holds each piece that may be
picked once, sorted by the effective priority, the piece map tells where, and each boundry how
many pieces come up to it. -/
structure InOrder (s : PieceOrder) : Prop where
  nodup : s.m_pieces.Nodup
  mem : ∀ i, i ∈ s.m_pieces ↔ i < s.num_pieces ∧ (s.priority i).isSome = true
  sorted : s.m_pieces.Pairwise fun i j =>
    ∀ p q, s.priority i = some p → s.priority j = some q → p ≤ q
  slots : ∀ i ∈ s.m_pieces, ∃ j, s.slot i = some j ∧ s.m_pieces[j]? = some i
  boundries : ∀ p < s.m_priority_boundries.length, s.m_priority_boundries[p]? =
    some (s.m_pieces.countP fun i => (s.priority i).any (· ≤ p))

theorem Listed.inOrder (h : s.Listed s.priority s.slot) : s.InOrder := by
  obtain ⟨bs, -, hpieces, hends, hkeyed⟩ := h.buckets
  refine ⟨h.placed.nodup, h.mem, ?_, fun i hi => ?_, fun p hp => ?_⟩
  · rw [hpieces]
    exact hkeyed.sorted
  · obtain ⟨j, hj, -, hat⟩ := h.placed.lt hi
    rw [Nat.zero_add] at hj
    exact ⟨j, hj, hat⟩
  · rw [hends, length_ends] at hp
    rw [hends, hpieces]
    exact hkeyed.countP_le hp

theorem run_ordered {total : Nat} {tr : List Call} (hrun : run step (s.init total) tr = some t) :
    t.Ordered := by
  refine run_induction (motive := fun _ t => t.Ordered) (ordered_of_dirty rfl) ?_ hrun
  intro tr u c u' _ hu hstep
  have hkeeps := call_keeps hu c
  rw [step, Except.toOption.eq_def] at hstep
  cases hcall : u.call c with
  | error e =>
    rw [hcall] at hstep
    cases hstep
  | ok v =>
    rw [hcall] at hstep hkeeps
    obtain rfl := Option.some.inj hstep
    exact hkeeps.1

/-- Through every run of calls, in any order and with any random numbers, the line is in order
whenever it is not stale, so always after `update_pieces`, and no call ever reads or writes a slot
outside of it. -/
theorem picker_in_order {s t : PieceOrder} {total : Nat} {tr : List Call}
    (hrun : run step (s.init total) tr = some t) :
    (t.m_dirty = false → t.InOrder) ∧ (∃ u, t.refresh = .ok u ∧ u.InOrder) ∧
      ∀ c, t.call c ≠ .error .out_of_line := by
  have hordered := run_ordered hrun
  refine ⟨fun hclean => (hordered hclean).inOrder, ?_, fun c hcall => ?_⟩
  · obtain ⟨u, hu, -, -, hlisted⟩ := refresh_spec hordered
    exact ⟨u, hu, hlisted.inOrder⟩
  · have hkeeps := call_keeps hordered c
    rw [hcall] at hkeeps
    cases hkeeps

/-- A picker before `init`. -/
def sampleOrder : PieceOrder where
  num_pieces := 0
  m_piece_map _ := ⟨0, .piece_open, priority_bits 4, some 0⟩
  m_seeds := 0
  m_pieces := []
  m_priority_boundries := [0]
  m_dirty := false
  random k := k

def sampleCalls : List Call :=
  [.inc_refcount_bits [true, true, false, false, true], .piece 0 .inc_refcount, .refresh,
    .piece 3 .inc_refcount, .piece 1 (.start_download false), .piece 0 .dec_refcount,
    .piece 4 .we_have, .piece 3 (.set_piece_priority 7 ⟨0, 0, 0, 1⟩)]

theorem sampleCalls_in_order : ∃ t, run step (sampleOrder.init 5) sampleCalls = some t ∧
    t.m_dirty = false ∧ t.m_pieces = [3, 1, 0] ∧ t.InOrder := by
  have hpieces : (run step (sampleOrder.init 5) sampleCalls).map
      (fun t => (t.m_dirty, t.m_pieces)) = some (false, [3, 1, 0]) := by
    decide +kernel
  obtain ⟨t, ht, heq⟩ := Option.map_eq_some_iff.mp hpieces
  obtain ⟨hclean, hline⟩ := Prod.mk.injEq _ _ _ _ ▸ heq
  exact ⟨t, ht, hclean, hline, (picker_in_order ht).1 hclean⟩

end PieceOrder

/-! ## The order of the pieces -/

/-- The order that the line is for: of two pieces that may be picked, one is before the other where
it is at least as much wanted and at most as common, and further on if it is alike in both. -/
def PiecePos.Before (p q : PiecePos) : Prop :=
  q.piece_priority ≤ p.piece_priority ∧ p.peer_count ≤ q.peer_count ∧
    (q.piece_priority = p.piece_priority → p.peer_count = q.peer_count →
      q.download_state.adjustment < p.download_state.adjustment)

theorem DownloadState.adjustment_bounds (state : DownloadState) :
    0 < state.adjustment ∧ state.adjustment ≤ prio_factor := by
  cases state <;> decide

theorem PiecePos.priority_eq {p : PiecePos} {m_seeds a : Nat} (h : p.priority m_seeds = some a) :
    a = (p.peer_count + 1) * (priority_levels - p.piece_priority.val) * prio_factor -
      p.download_state.adjustment := by
  rw [PiecePos.priority] at h
  split at h
  · cases h
  · exact (Option.some.inj h).symm

/-- The effective priorities tell which piece is before the other. -/
theorem PiecePos.Before.priority_lt {p q : PiecePos} {m_seeds a b : Nat} (h : p.Before q)
    (hp : p.priority m_seeds = some a) (hq : q.priority m_seeds = some b) : a < b := by
  obtain ⟨hlevel, hpeers, halike⟩ := h
  rw [PiecePos.priority_eq hp, PiecePos.priority_eq hq]
  obtain ⟨hpos, hle⟩ := p.download_state.adjustment_bounds
  obtain ⟨hpos', hle'⟩ := q.download_state.adjustment_bounds
  have hp8 := p.piece_priority.isLt
  have hq8 := q.piece_priority.isLt
  have hlevel' : p.piece_priority.val ≥ q.piece_priority.val := hlevel
  rw [prio_factor] at *
  obtain ⟨L, hL⟩ : ∃ L, L = priority_levels - p.piece_priority.val := ⟨_, rfl⟩
  obtain ⟨M, hM⟩ : ∃ M, M = priority_levels - q.piece_priority.val := ⟨_, rfl⟩
  rw [← hL, ← hM]
  rw [priority_levels] at hL hM
  have hLpos : 0 < L := by omega
  have hLM : L ≤ M := by omega
  have hfirst : 1 ≤ (p.peer_count + 1) * L := Nat.mul_pos (Nat.succ_pos _) hLpos
  by_cases hequal : q.piece_priority = p.piece_priority ∧ p.peer_count = q.peer_count
  · -- alike: the state of the download decides
    have hadjust := halike hequal.1 hequal.2
    rw [← hequal.2, show M = L by rw [hL, hM, hequal.1]]
    omega
  · -- a step in either direction outweighs every state
    have hstrict : (p.peer_count + 1) * L < (q.peer_count + 1) * M := by
      rcases Nat.lt_or_eq_of_le hpeers with hlt | heq
      · calc (p.peer_count + 1) * L ≤ (p.peer_count + 1) * M := Nat.mul_le_mul_left _ hLM
          _ < (q.peer_count + 1) * M := Nat.mul_lt_mul_of_pos_right (by omega) (by omega)
      · have hlt : L < M := by
          refine Nat.lt_of_le_of_ne hLM fun hsame => hequal ⟨Fin.ext ?_, heq⟩
          omega
        rw [heq]
        exact Nat.mul_lt_mul_of_pos_left hlt (Nat.succ_pos _)
    omega

namespace PieceOrder

theorem InOrder.slot_lt {s : PieceOrder} (h : s.InOrder) {i j : Nat} (hi : i ∈ s.m_pieces)
    (hj : j ∈ s.m_pieces) (hbefore : (s.m_piece_map i).Before (s.m_piece_map j)) :
    ∃ k l, s.slot i = some k ∧ s.slot j = some l ∧ k < l := by
  obtain ⟨k, hk, hatk⟩ := h.slots i hi
  obtain ⟨l, hl, hatl⟩ := h.slots j hj
  obtain ⟨a, ha⟩ := Option.isSome_iff_exists.mp ((h.mem i).mp hi).2
  obtain ⟨b, hb⟩ := Option.isSome_iff_exists.mp ((h.mem j).mp hj).2
  have hab := hbefore.priority_lt ha hb
  refine ⟨k, l, hk, hl, ?_⟩
  rcases Nat.lt_trichotomy k l with hlt | rfl | hgt
  · exact hlt
  · obtain rfl := Option.some.inj (hatk.symm.trans hatl)
    have := Option.some.inj (ha.symm.trans hb)
    omega
  · obtain ⟨hkl, hik⟩ := List.getElem?_eq_some_iff.mp hatk
    obtain ⟨hll, hjl⟩ := List.getElem?_eq_some_iff.mp hatl
    have hsorted := List.pairwise_iff_getElem.mp h.sorted l k hll hkl hgt
    rw [hik, hjl] at hsorted
    have := hsorted b a hb ha
    omega

/-- After any run, in the line as `update_pieces` leaves it a piece that is at least as much wanted
and at most as common as another one comes first. -/
theorem rarest_first {s t : PieceOrder} {total : Nat} {tr : List Call}
    (hrun : run step (s.init total) tr = some t) :
    ∃ u, t.refresh = .ok u ∧ ∀ i ∈ u.m_pieces, ∀ j ∈ u.m_pieces,
      (u.m_piece_map i).Before (u.m_piece_map j) →
        ∃ k l, u.slot i = some k ∧ u.slot j = some l ∧ k < l := by
  obtain ⟨u, hu, -, -, hlisted⟩ := refresh_spec (run_ordered hrun)
  exact ⟨u, hu, fun i hi j hj hbefore => hlisted.inOrder.slot_lt hi hj hbefore⟩

theorem sampleCalls_rarest_first : ∃ t, run step (sampleOrder.init 5) sampleCalls = some t ∧
    ∃ k l, t.slot 1 = some k ∧ t.slot 0 = some l ∧ k < l := by
  have hpieces : (run step (sampleOrder.init 5) sampleCalls).map
      (fun t => (t.m_dirty, t.m_pieces, t.m_piece_map 1, t.m_piece_map 0)) =
        some (false, [3, 1, 0], ⟨1, .piece_downloading, priority_bits 4, some 1⟩,
          ⟨1, .piece_open, priority_bits 4, some 2⟩) := by
    decide +kernel
  obtain ⟨t, ht, heq⟩ := Option.map_eq_some_iff.mp hpieces
  simp only [Prod.mk.injEq] at heq
  obtain ⟨hclean, hline, hone, hzero⟩ := heq
  obtain ⟨u, hu, hfirst⟩ := rarest_first ht
  rw [refresh, hclean] at hu
  obtain rfl : t = u := Except.ok.inj hu
  refine ⟨t, ht, hfirst 1 (by rw [hline]; decide) 0 (by rw [hline]; decide) ?_⟩
  rw [hone, hzero]
  exact ⟨by decide, by decide, fun _ _ => by decide⟩

end PieceOrder

end TorrentApp.Torrent.Picker
