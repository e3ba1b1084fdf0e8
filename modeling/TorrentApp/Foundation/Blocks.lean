import Mathlib.Algebra.GroupWithZero.Nat
import Mathlib.Data.List.Basic
import Mathlib.Order.Interval.Set.Basic
import Mathlib.Order.Nat

set_option autoImplicit false

/-!
# Segments of a line and the blocks they meet

The places of a line are cut two ways: into blocks of one length, and into
segments that follow each other without gaps.  Division finds the blocks that a
segment meets, and what holds of one segment and its successor covers the line.
-/

namespace TorrentApp.Foundation

/-! ## Blocks -/

/-- Block `p` of length `d`. -/
def block (d p : Nat) : Set Nat := Set.Ico (p * d) ((p + 1) * d)

variable {d : Nat}

theorem mem_block_iff (hd : 0 < d) {x p : Nat} : x ∈ block d p ↔ x / d = p := by
  rw [block, Set.mem_Ico, ← Nat.le_div_iff_mul_le hd, ← Nat.div_lt_iff_lt_mul hd]
  omega

/-- A segment that is not empty meets the blocks from that of its first place to
that of its last. -/
theorem block_meets_iff (hd : 0 < d) {lo n : Nat} (hn : 0 < n) (p : Nat) :
    (block d p ∩ Set.Ico lo (lo + n)).Nonempty ↔ lo / d ≤ p ∧ p ≤ (lo + n - 1) / d := by
  constructor
  · rintro ⟨x, hblock, hsegment⟩
    rw [mem_block_iff hd] at hblock
    obtain ⟨hlo, hhi⟩ := Set.mem_Ico.mp hsegment
    rw [← hblock]
    exact ⟨Nat.div_le_div_right hlo, Nat.div_le_div_right (by omega)⟩
  · rintro ⟨hfirst, hlast⟩
    have hstart : p * d ≤ lo + n - 1 := (Nat.le_div_iff_mul_le hd).mp hlast
    -- the block is entered at its own start or at the segment's, whichever is later
    by_cases hinside : lo ≤ p * d
    · refine ⟨p * d, (mem_block_iff hd).mpr (Nat.mul_div_cancel p hd), ?_⟩
      exact Set.mem_Ico.mpr ⟨hinside, by omega⟩
    · refine ⟨lo, (mem_block_iff hd).mpr ?_, Set.mem_Ico.mpr ⟨le_refl lo, by omega⟩⟩
      have hle : p ≤ lo / d := (Nat.le_div_iff_mul_le hd).mpr (by omega)
      omega

/-- The place after a segment lies in the segment's last block or in the next. -/
theorem block_after {lo n : Nat} (hn : 0 < n) :
    (lo + n) / d = (lo + n - 1) / d ∨ (lo + n) / d = (lo + n - 1) / d + 1 := by
  obtain ⟨m, hm⟩ : ∃ m, lo + n = m + 1 := ⟨lo + n - 1, by omega⟩
  rw [hm, Nat.add_sub_cancel, Nat.succ_div]
  split
  · right
    rfl
  · left
    rfl

/-- The number of blocks that a line of `n > 0` places fills or begins. -/
theorem block_count (hd : 0 < d) {n : Nat} (hn : 0 < n) :
    (n + d - 1) / d = (n - 1) / d + 1 := by
  rw [show n + d - 1 = n - 1 + d by omega, Nat.add_div_right _ hd]

theorem div_lt_block_count (hd : 0 < d) {n x : Nat} (hx : x < n) : x / d < (n + d - 1) / d := by
  rw [block_count hd (by omega)]
  exact Nat.lt_succ_of_le (Nat.div_le_div_right (by omega))

/-- Dividing start and length apart finds the last block exactly when the two
remainders fill one block at most and are not both 0. -/
theorem div_add_div_eq_iff (hd : 0 < d) {lo n : Nat} (hn : 0 < n) :
    lo / d + n / d = (lo + n - 1) / d ↔ 0 < lo % d + n % d ∧ lo % d + n % d ≤ d := by
  have hlo := Nat.div_add_mod lo d
  have hsize := Nat.div_add_mod n d
  have hlor := Nat.mod_lt lo hd
  have hnr := Nat.mod_lt n hd
  have hsum : d * (lo / d + n / d) = d * (lo / d) + d * (n / d) := Nat.mul_add _ _ _
  constructor
  · intro h
    have hle : (lo / d + n / d) * d ≤ lo + n - 1 := (Nat.le_div_iff_mul_le hd).mp h.le
    have hlt : lo + n - 1 < (lo / d + n / d + 1) * d :=
      (Nat.div_lt_iff_lt_mul hd).mp (by omega)
    rw [Nat.mul_comm, hsum] at hle
    rw [Nat.add_mul, Nat.one_mul, Nat.mul_comm, hsum] at hlt
    omega
  · rintro ⟨hpos, hle⟩
    symm
    apply Nat.div_eq_of_lt_le
    · rw [Nat.mul_comm, hsum]
      omega
    · rw [Nat.add_mul, Nat.one_mul, Nat.mul_comm, hsum]
      omega

/-! ## Segments that follow each other -/

section Segments

variable {σ : Type*} {lo size : σ → Nat} {start : Nat} {l : List σ}

/-- The segments of `l` lie one behind the other from `start` on. -/
def Abut (lo size : σ → Nat) : Nat → List σ → Prop
  | _, [] => True
  | start, s :: rest => lo s = start ∧ Abut lo size (start + size s) rest

/-- Only the places of the segments count. -/
theorem Abut.of_map_eq {τ : Type*} {lo' size' : τ → Nat} {l' : List τ}
    (h : Abut lo size start l)
    (hmap : l.map (fun s => (lo s, size s)) = l'.map fun t => (lo' t, size' t)) :
    Abut lo' size' start l' := by
  induction l generalizing start l' with
  | nil =>
    cases l' with
    | nil => exact trivial
    | cons t rest => cases hmap
  | cons s rest ih =>
    cases l' with
    | nil => cases hmap
    | cons t rest' =>
      simp only [List.map_cons, List.cons.injEq, Prod.mk.injEq] at hmap
      obtain ⟨⟨hlo, hsize⟩, hrest⟩ := hmap
      refine ⟨hlo ▸ h.1, ?_⟩
      rw [← hsize]
      exact ih h.2 hrest

/-- A segment is put at the end. -/
theorem Abut.append (h : Abut lo size start l) {s : σ}
    (hs : lo s = start + (l.map size).sum) : Abut lo size start (l ++ [s]) := by
  induction l generalizing start with
  | nil => exact ⟨by simpa using hs, trivial⟩
  | cons t rest ih =>
    refine ⟨h.1, ih h.2 ?_⟩
    rw [hs, List.map_cons, List.sum_cons, Nat.add_assoc]

theorem Abut.bounds (h : Abut lo size start l) {s : σ} (hs : s ∈ l) :
    start ≤ lo s ∧ lo s + size s ≤ start + (l.map size).sum := by
  induction l generalizing start with
  | nil => cases hs
  | cons t rest ih =>
    rw [List.map_cons, List.sum_cons]
    rcases List.mem_cons.mp hs with rfl | hrest
    · have := h.1
      omega
    · have := ih h.2 hrest
      omega

/-- The empty segments can be left out. -/
theorem Abut.filter_pos (h : Abut lo size start l) :
    Abut lo size start (l.filter fun s => 0 < size s) := by
  induction l generalizing start with
  | nil => exact trivial
  | cons t rest ih =>
    by_cases hpos : 0 < size t
    · rw [List.filter_cons_of_pos (by simpa using hpos)]
      exact ⟨h.1, ih h.2⟩
    · rw [List.filter_cons_of_neg (by simpa using hpos)]
      have hzero : size t = 0 := by omega
      have hrest := ih h.2
      rwa [hzero, Nat.add_zero] at hrest

theorem sum_filter_pos (l : List σ) :
    ((l.filter fun s => 0 < size s).map size).sum = (l.map size).sum := by
  induction l with
  | nil => rfl
  | cons t rest ih =>
    by_cases hpos : 0 < size t
    · rw [List.filter_cons_of_pos (by simpa using hpos), List.map_cons, List.sum_cons, ih,
        List.map_cons, List.sum_cons]
    · rw [List.filter_cons_of_neg (by simpa using hpos), ih, List.map_cons, List.sum_cons]
      omega

theorem Abut.head (h : Abut lo size start l) {s : σ} (hs : l.head? = some s) : lo s = start := by
  cases l with
  | nil => cases hs
  | cons t rest =>
    cases hs
    exact h.1

theorem Abut.last (h : Abut lo size start l) {s : σ} (hs : l.getLast? = some s) :
    lo s + size s = start + (l.map size).sum := by
  induction l generalizing start with
  | nil => cases hs
  | cons t rest ih =>
    rw [List.map_cons, List.sum_cons]
    cases rest with
    | nil =>
      obtain rfl : t = s := by simpa using hs
      rw [h.1, List.map_nil, List.sum_nil, Nat.add_zero]
    | cons u rest =>
      rw [List.getLast?_cons_cons] at hs
      rw [ih h.2 hs, Nat.add_assoc]

/-- Each segment ends where the next one begins. -/
theorem Abut.next (h : Abut lo size start l) {k : Nat} (hk : k + 1 < l.length) :
    lo l[k + 1] = lo l[k] + size l[k] := by
  induction l generalizing start k with
  | nil => exact absurd hk (by simp)
  | cons t rest ih =>
    cases k with
    | zero =>
      cases rest with
      | nil => exact absurd hk (by simp)
      | cons u rest =>
        have htail := h.2.1
        simp only [List.getElem_cons_succ, List.getElem_cons_zero]
        rw [htail, h.1]
    | succ k =>
      simp only [List.getElem_cons_succ]
      exact ih h.2 (by simpa using hk)

/-- Every place of the line lies in a segment. -/
theorem Abut.covers (h : Abut lo size start l) {x : Nat} (hlo : start ≤ x)
    (hhi : x < start + (l.map size).sum) : ∃ s ∈ l, lo s ≤ x ∧ x < lo s + size s := by
  induction l generalizing start with
  | nil =>
    simp only [List.map_nil, List.sum_nil] at hhi
    omega
  | cons t rest ih =>
    rw [List.map_cons, List.sum_cons] at hhi
    by_cases hfirst : x < start + size t
    · have := h.1
      exact ⟨t, List.mem_cons_self, by omega, by omega⟩
    · obtain ⟨s, hs, hin⟩ := ih h.2 (by omega) (by omega)
      exact ⟨s, List.mem_cons_of_mem t hs, hin⟩

/-- From one of its segments on, a line is a line. -/
theorem Abut.drop (h : Abut lo size start l) {k : Nat} {s : σ} (hk : l[k]? = some s) :
    Abut lo size (lo s) (l.drop k) := by
  induction l generalizing start k with
  | nil => cases hk
  | cons t rest ih =>
    cases k with
    | zero =>
      cases hk
      exact ⟨rfl, h.1 ▸ h.2⟩
    | succ k => exact ih h.2 hk

/-- A place lies in one segment. -/
theorem Abut.unique (h : Abut lo size start l) {i j x : Nat} {s t : σ} (hi : l[i]? = some s)
    (hj : l[j]? = some t) (hs : lo s ≤ x ∧ x < lo s + size s)
    (ht : lo t ≤ x ∧ x < lo t + size t) : i = j := by
  -- a segment ends before any later one begins
  have hbefore : ∀ {a b : Nat} {u v : σ}, a < b → l[a]? = some u → l[b]? = some v →
      lo u + size u ≤ lo v := by
    intro a b u v hab ha hb
    obtain ⟨hlength, hget⟩ := List.getElem?_eq_some_iff.mp ha
    have hdrop := h.drop ha
    rw [List.drop_eq_getElem_cons hlength, hget] at hdrop
    have hmem : v ∈ l.drop (a + 1) := by
      refine List.mem_of_getElem? (i := b - (a + 1)) ?_
      rw [List.getElem?_drop, Nat.add_sub_cancel' hab, hb]
    exact (hdrop.2.bounds hmem).1
  rcases Nat.lt_trichotomy i j with hlt | heq | hgt
  · have := hbefore hlt hi hj
    omega
  · exact heq
  · have := hbefore hgt hj hi
    omega

/-- The first segment that begins behind a place follows the segment the place lies in. -/
theorem Abut.findIdx (h : Abut lo size start l) {x : Nat} (hlo : start ≤ x)
    (hhi : x < start + (l.map size).sum) :
    ∃ k s, l.findIdx (fun s => decide (x < lo s)) = k + 1 ∧ l[k]? = some s ∧ lo s ≤ x ∧
      x < lo s + size s := by
  induction l generalizing start with
  | nil =>
    simp only [List.map_nil, List.sum_nil] at hhi
    omega
  | cons t rest ih =>
    have hstart := h.1
    have hnot : decide (x < lo t) = false := decide_eq_false (by omega)
    rw [List.map_cons, List.sum_cons] at hhi
    rw [List.findIdx_cons, hnot, cond_false]
    by_cases hfirst : x < start + size t
    · refine ⟨0, t, ?_, rfl, by omega, by omega⟩
      cases rest with
      | nil => rfl
      | cons u rest =>
        have hnext : decide (x < lo u) = true := decide_eq_true (by rw [h.2.1]; exact hfirst)
        rw [List.findIdx_cons, hnext, cond_true]
    · obtain ⟨k, s, hk, hs, hin⟩ := ih h.2 (by omega) (by omega)
      exact ⟨k + 1, s, by rw [hk], hs, hin⟩

end Segments

end TorrentApp.Foundation
