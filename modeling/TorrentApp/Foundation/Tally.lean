import Mathlib.Data.List.Basic
import TorrentApp.Foundation.Blocks

set_option autoImplicit false

/-!
# Counting the places of segments

A line of places is cut into segments, and a tally keeps for each segment how
many of its places are marked.  Marking a stretch of unmarked places that lies
in one segment adds the length of the stretch to the count of this segment and
leaves the other counts alone.
-/

namespace TorrentApp.Foundation

/-! ## One segment -/

/-- How many of the `n` places from `start` on are marked. -/
def countIn (marked : Nat → Bool) (start n : Nat) : Nat :=
  (List.range n).countP fun k => marked (start + k)

/-- The places marked, and `k` places from `first` on. -/
def mark (marked : Nat → Bool) (first k : Nat) (x : Nat) : Bool :=
  marked x || (decide (first ≤ x) && decide (x < first + k))

variable {marked marked' : Nat → Bool} {start n first k x : Nat}

theorem mark_eq_true :
    mark marked first k x = true ↔ marked x = true ∨ first ≤ x ∧ x < first + k := by
  simp [mark]

theorem mark_outside (hx : x < first ∨ first + k ≤ x) : mark marked first k x = marked x := by
  rw [Bool.eq_iff_iff, mark_eq_true]
  constructor
  · rintro (h | h)
    · exact h
    · omega
  · exact .inl

theorem mark_zero (marked : Nat → Bool) (first : Nat) : mark marked first 0 = marked :=
  funext fun _ => mark_outside (by omega)

/-- Marking a stretch in two parts. -/
theorem mark_mark (marked : Nat → Bool) (first k m : Nat) :
    mark (mark marked first k) (first + k) m = mark marked first (k + m) := by
  funext x
  rw [Bool.eq_iff_iff, mark_eq_true, mark_eq_true, mark_eq_true, or_assoc]
  refine or_congr_right ?_
  omega

theorem countIn_le (marked : Nat → Bool) (start n : Nat) : countIn marked start n ≤ n := by
  have hle := List.countP_le_length (p := fun k => marked (start + k)) (l := List.range n)
  rwa [List.length_range] at hle

theorem countIn_congr (h : ∀ x, start ≤ x → x < start + n → marked x = marked' x) :
    countIn marked start n = countIn marked' start n := by
  refine List.countP_congr fun i hi => ?_
  have hlt := List.mem_range.mp hi
  rw [h (start + i) (by omega) (by omega)]

theorem countIn_mono (h : ∀ x, marked x = true → marked' x = true) (start n : Nat) :
    countIn marked start n ≤ countIn marked' start n :=
  List.countP_mono_left fun i _ => h (start + i)

theorem countIn_add (marked : Nat → Bool) (start n m : Nat) :
    countIn marked start (n + m) = countIn marked start n + countIn marked (start + n) m := by
  rw [countIn, countIn, countIn, List.range_add, List.countP_append, List.countP_map]
  congr 1
  refine List.countP_congr fun i _ => ?_
  rw [Function.comp_apply, Nat.add_assoc]

theorem countIn_eq_length :
    countIn marked start n = n ↔ ∀ x, start ≤ x → x < start + n → marked x = true := by
  have hlength : (List.range n).length = n := List.length_range
  rw [countIn]
  nth_rewrite 2 [← hlength]
  rw [List.countP_eq_length]
  constructor
  · intro h x hlo hhi
    have hx := h (x - start) (List.mem_range.mpr (by omega))
    rwa [Nat.add_sub_cancel' hlo] at hx
  · intro h i hi
    have hlt := List.mem_range.mp hi
    exact h (start + i) (by omega) (by omega)

theorem countIn_eq_zero (h : ∀ x, start ≤ x → x < start + n → marked x = false) :
    countIn marked start n = 0 := by
  refine List.countP_eq_zero.mpr fun i hi => ?_
  have hlt := List.mem_range.mp hi
  rw [h (start + i) (by omega) (by omega)]
  exact Bool.false_ne_true

/-- A stretch inside a segment adds its length. -/
theorem countIn_mark_inside (hlo : start ≤ first) (hhi : first + k ≤ start + n)
    (hfree : ∀ x, first ≤ x → x < first + k → marked x = false) :
    countIn (mark marked first k) start n = countIn marked start n + k := by
  -- the places before the stretch, the stretch, and the places behind it
  have hsplit : ∀ s : Nat → Bool, countIn s start n = countIn s start (first - start) +
      countIn s first k + countIn s (first + k) (start + n - (first + k)) := by
    intro s
    have hfirst := countIn_add s start (first - start) (start + n - first)
    have hsecond := countIn_add s first k (start + n - (first + k))
    rw [show start + (first - start) = first by omega,
      show first - start + (start + n - first) = n by omega] at hfirst
    rw [show k + (start + n - (first + k)) = start + n - first by omega] at hsecond
    rw [hfirst, hsecond, Nat.add_assoc]
  have hbefore : countIn (mark marked first k) start (first - start) =
      countIn marked start (first - start) :=
    countIn_congr fun x _ hx => mark_outside (by omega)
  have hbehind : countIn (mark marked first k) (first + k) (start + n - (first + k)) =
      countIn marked (first + k) (start + n - (first + k)) :=
    countIn_congr fun x hx _ => mark_outside (by omega)
  have hstretch : countIn (mark marked first k) first k = k :=
    countIn_eq_length.mpr fun x hlo hhi => mark_eq_true.mpr (.inr ⟨hlo, hhi⟩)
  rw [hsplit, hsplit marked, hbefore, hbehind, hstretch, countIn_eq_zero hfree]
  omega

/-- Places marked for two reasons that exclude each other. -/
theorem countIn_or (h : ∀ x, marked x = true → marked' x = false) (start n : Nat) :
    countIn (fun x => marked x || marked' x) start n =
      countIn marked start n + countIn marked' start n := by
  induction n with
  | zero => rfl
  | succ n ih =>
    rw [countIn_add, countIn_add, countIn_add, ih]
    have hlast : ∀ s : Nat → Bool, countIn s (start + n) 1 = if s (start + n) then 1 else 0 := by
      intro s
      rw [countIn, show List.range 1 = [0] from rfl, List.countP_singleton, Nat.add_zero]
    rw [hlast, hlast, hlast]
    cases hmark : marked (start + n) with
    | false =>
      rw [Bool.false_or, if_neg Bool.false_ne_true]
      omega
    | true =>
      rw [h _ hmark, Bool.true_or, if_pos rfl, if_neg Bool.false_ne_true]
      omega

/-- Places marked for several reasons that exclude each other. -/
theorem countIn_sum_le {ι : Type*} {l : List ι} {reason : ι → Nat → Bool}
    (hfirst : ∀ i ∈ l, ∀ x, marked x = true → reason i x = false)
    (hpair : l.Pairwise fun i j => ∀ x, reason i x = true → reason j x = false) (start n : Nat) :
    countIn marked start n + (l.map fun i => countIn (reason i) start n).sum ≤ n := by
  induction l generalizing marked with
  | nil => exact countIn_le marked start n
  | cons i l ih =>
    rw [List.pairwise_cons] at hpair
    have hor := countIn_or (hfirst i List.mem_cons_self) start n
    rw [List.map_cons, List.sum_cons, ← Nat.add_assoc, ← hor]
    refine ih (fun j hj x hx => ?_) hpair.2
    rcases Bool.or_eq_true_iff.mp hx with hold | hnew
    · exact hfirst j (List.mem_cons_of_mem _ hj) x hold
    · exact hpair.1 j hj x hnew

/-! ## All segments -/

section Segments

variable {σ : Type*} {lo size : σ → Nat} {segments : List σ} {counts : List Nat}

/-- The counts of the segments. -/
def Tally (lo size : σ → Nat) (segments : List σ) (marked : Nat → Bool) (counts : List Nat) :
    Prop :=
  counts = segments.map fun s => countIn marked (lo s) (size s)

theorem Tally.getElem? (h : Tally lo size segments marked counts) {i : Nat} {s : σ}
    (hs : segments[i]? = some s) : counts[i]? = some (countIn marked (lo s) (size s)) := by
  rw [h, List.getElem?_map, hs]
  rfl

/-- A stretch inside one segment. -/
theorem Tally.mark (h : Tally lo size segments marked counts) {base i : Nat} {s : σ}
    (habut : Abut lo size base segments) (hs : segments[i]? = some s) (hlo : lo s ≤ first)
    (hhi : first + k ≤ lo s + size s)
    (hfree : ∀ x, first ≤ x → x < first + k → marked x = false) :
    Tally lo size segments (mark marked first k) (counts.modify i (· + k)) := by
  rw [Tally, h]
  refine List.ext_getElem? fun j => ?_
  rw [List.getElem?_modify, List.getElem?_map, List.getElem?_map]
  cases ht : segments[j]? with
  | none => rfl
  | some t =>
    rw [Option.map_some, Option.map_some]
    refine congrArg some ?_
    split
    · rename_i hij
      obtain rfl : s = t := Option.some.inj (hs.symm.trans (hij ▸ ht))
      rw [countIn_mark_inside hlo hhi hfree]
    · rename_i hij
      rcases Nat.eq_zero_or_pos k with rfl | hk
      · rw [mark_zero]
      refine (countIn_congr fun x hx hx' => mark_outside ?_).symm
      by_contra hin
      have hplace : first ≤ x ∧ x < first + k := by omega
      exact hij (habut.unique hs ht ⟨by omega, by omega⟩ ⟨hx, hx'⟩)

end Segments

end TorrentApp.Foundation
