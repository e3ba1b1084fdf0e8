import Mathlib.Data.List.Basic
import Mathlib.Data.List.Perm.Basic
import Mathlib.Data.List.Forall2
import Mathlib.Data.List.Flatten
import Mathlib.Logic.Function.Basic

set_option autoImplicit false

/-!
# Items in numbered buckets, in one line

A line of items is cut into buckets, and only the ends of the buckets are kept.
Bucket `k` holds the items whose key is `k`, in any order, so the line is sorted by
key.  A second table may keep for each item the slot it stands in.
-/

namespace TorrentApp.Foundation

variable {α : Type*}

/-! ## The ends of the buckets -/

/-- Where the buckets end, in a line that starts at `base`. -/
def ends : Nat → List (List α) → List Nat
  | _, [] => []
  | base, b :: bs => (base + b.length) :: ends (base + b.length) bs

@[simp] theorem length_ends (base : Nat) (bs : List (List α)) :
    (ends base bs).length = bs.length := by
  induction bs generalizing base with
  | nil => rfl
  | cons b bs ih => rw [ends, List.length_cons, ih, List.length_cons]

theorem ends_eq_nil {base : Nat} {bs : List (List α)} : ends base bs = [] ↔ bs = [] := by
  rw [← List.length_eq_zero_iff, length_ends, List.length_eq_zero_iff]

theorem ends_append (base : Nat) (bs cs : List (List α)) :
    ends base (bs ++ cs) = ends base bs ++ ends (base + bs.flatten.length) cs := by
  induction bs generalizing base with
  | nil => rfl
  | cons b bs ih =>
    rw [List.cons_append, ends, ends, ih, List.cons_append, List.flatten_cons, List.length_append,
      Nat.add_assoc]

theorem ends_concat (base : Nat) (bs : List (List α)) (b : List α) :
    ends base (bs ++ [b]) = ends base bs ++ [base + bs.flatten.length + b.length] :=
  ends_append base bs [b]

theorem take_ends (base : Nat) (bs cs : List (List α)) :
    (ends base (bs ++ cs)).take bs.length = ends base bs := by
  rw [ends_append, List.take_append_of_le_length (Nat.le_of_eq (length_ends _ _).symm),
    List.take_of_length_le (Nat.le_of_eq (length_ends _ _))]

theorem drop_ends (base : Nat) (bs cs : List (List α)) :
    (ends base (bs ++ cs)).drop bs.length = ends (base + bs.flatten.length) cs := by
  rw [ends_append, List.drop_append_of_le_length (Nat.le_of_eq (length_ends _ _).symm),
    List.drop_of_length_le (Nat.le_of_eq (length_ends _ _)), List.nil_append]

theorem ends_replicate_nil (base n : Nat) :
    ends base (List.replicate n ([] : List α)) = List.replicate n base := by
  induction n with
  | zero => rfl
  | succ n ih =>
    rw [List.replicate_succ, ends, List.length_nil, Nat.add_zero, ih, List.replicate_succ]

/-- Empty buckets added at the end. -/
theorem rightpad_ends (bs : List (List α)) (n : Nat) :
    (ends 0 bs).rightpad n bs.flatten.length =
      ends 0 (bs ++ List.replicate (n - bs.length) []) := by
  rw [List.rightpad, length_ends, ends_append, ends_replicate_nil, Nat.zero_add]

theorem flatten_padded (bs : List (List α)) (n : Nat) :
    (bs ++ List.replicate n []).flatten = bs.flatten := by
  rw [List.flatten_append, List.flatten_replicate_nil, List.append_nil]

theorem getElem?_ends (base : Nat) (bs : List (List α)) {k : Nat} (hk : k < bs.length) :
    (ends base bs)[k]? = some (base + (bs.take (k + 1)).flatten.length) := by
  induction bs generalizing base k with
  | nil => cases hk
  | cons b bs ih =>
    cases k with
    | zero => simp [ends]
    | succ k =>
      rw [ends, List.getElem?_cons_succ, ih _ (Nat.lt_of_succ_lt_succ hk), List.take_succ_cons,
        List.flatten_cons, List.length_append, Nat.add_assoc]

/-- Buckets of the same items have the same ends. -/
theorem ends_perm {bs cs : List (List α)} (h : List.Forall₂ List.Perm bs cs) (base : Nat) :
    ends base bs = ends base cs := by
  induction h generalizing base with
  | nil => rfl
  | cons hb _ ih => rw [ends, ends, hb.length_eq, ih]

theorem flatten_perm {bs cs : List (List α)} (h : List.Forall₂ List.Perm bs cs) :
    bs.flatten.Perm cs.flatten := by
  induction h with
  | nil => exact .refl _
  | cons hb _ ih => exact hb.append ih

theorem flatten_insert (pre post : List (List α)) (us ws : List α) (x : α) :
    (pre ++ (us ++ x :: ws) :: post).flatten.Perm (x :: (pre ++ (us ++ ws) :: post).flatten) := by
  simp only [List.flatten_append, List.flatten_cons, List.append_assoc, List.cons_append]
  rw [← List.append_assoc, ← List.append_assoc pre.flatten]
  exact List.perm_middle

theorem forall₂_perm_refl (bs : List (List α)) : List.Forall₂ List.Perm bs bs :=
  List.forall₂_same.mpr fun b _ => List.Perm.refl b

theorem forall₂_perm_concat {bs cs : List (List α)} {us : List α}
    (h : List.Forall₂ List.Perm (bs ++ [us]) cs) :
    ∃ bs' us', cs = bs' ++ [us'] ∧ List.Forall₂ List.Perm bs bs' ∧ us.Perm us' := by
  induction bs generalizing cs with
  | nil =>
    obtain ⟨us', cs', hus, hnil, rfl⟩ := List.forall₂_cons_left_iff.mp h
    obtain rfl := List.forall₂_nil_left_iff.mp hnil
    exact ⟨[], us', rfl, .nil, hus⟩
  | cons b bs ih =>
    obtain ⟨b', cs', hb, hcs, rfl⟩ := List.forall₂_cons_left_iff.mp h
    obtain ⟨bs', us', rfl, hbs, hus⟩ := ih hcs
    exact ⟨b' :: bs', us', rfl, .cons hb hbs, hus⟩

/-! ## Keys -/

section Keys

variable {key key' : α → Option Nat} {k : Nat} {bs cs : List (List α)}

/-- From bucket `k` on, each bucket holds items of its number. -/
def Keyed (key : α → Option Nat) : Nat → List (List α) → Prop
  | _, [] => True
  | k, b :: bs => (∀ x ∈ b, key x = some k) ∧ Keyed key (k + 1) bs

theorem keyed_append : Keyed key k (bs ++ cs) ↔ Keyed key k bs ∧ Keyed key (k + bs.length) cs := by
  induction bs generalizing k with
  | nil => exact ⟨fun h => ⟨trivial, h⟩, fun h => h.2⟩
  | cons b bs ih =>
    rw [List.cons_append, Keyed, Keyed, ih, List.length_cons, and_assoc,
      show k + 1 + bs.length = k + (bs.length + 1) by omega]

theorem keyed_replicate_nil (key : α → Option Nat) (k n : Nat) :
    Keyed key k (List.replicate n []) := by
  induction n generalizing k with
  | zero => exact trivial
  | succ n ih => exact ⟨fun _ hx => (by cases hx), ih (k + 1)⟩

theorem Keyed.perm (h : Keyed key k bs) (hperm : List.Forall₂ List.Perm bs cs) :
    Keyed key k cs := by
  induction hperm generalizing k with
  | nil => exact h
  | cons hb _ ih => exact ⟨fun x hx => h.1 x (hb.mem_iff.mpr hx), ih h.2⟩

theorem Keyed.congr (h : Keyed key k bs) (hkey : ∀ x ∈ bs.flatten, key x = key' x) :
    Keyed key' k bs := by
  induction bs generalizing k with
  | nil => exact trivial
  | cons b bs ih =>
    refine ⟨fun x hx => ?_, ih h.2 fun x hx => ?_⟩
    · rw [← hkey x (List.mem_append_left _ hx), h.1 x hx]
    · exact hkey x (List.mem_append_right _ hx)

theorem keyed_update [DecidableEq α] {x : α} (hx : x ∉ bs.flatten) (v : Option Nat) :
    Keyed (Function.update key x v) k bs ↔ Keyed key k bs := by
  have hkey : ∀ y ∈ bs.flatten, Function.update key x v y = key y := fun y hy =>
    Function.update_of_ne (fun hyx : y = x => hx (hyx ▸ hy)) v key
  exact ⟨fun h => h.congr hkey, fun h => h.congr fun y hy => (hkey y hy).symm⟩

/-- An item put in a bucket, or taken out of it. -/
theorem keyed_insert {pre post : List (List α)} {us ws : List α} {x : α} :
    Keyed key k (pre ++ (us ++ x :: ws) :: post) ↔
      key x = some (k + pre.length) ∧ Keyed key k (pre ++ (us ++ ws) :: post) := by
  simp only [keyed_append, Keyed, List.mem_append, List.mem_cons]
  constructor
  · rintro ⟨hpre, hb, hpost⟩
    exact ⟨hb x (.inr (.inl rfl)), hpre, fun y hy => hb y (hy.imp_right .inr), hpost⟩
  · rintro ⟨hx, hpre, hb, hpost⟩
    refine ⟨hpre, fun y hy => ?_, hpost⟩
    rcases hy with hus | rfl | hws
    · exact hb y (.inl hus)
    · exact hx
    · exact hb y (.inr hws)

/-- The key of an item is the number of a bucket. -/
theorem Keyed.key_lt (h : Keyed key k bs) {x : α} (hx : x ∈ bs.flatten) :
    ∃ i, key x = some i ∧ k ≤ i ∧ i < k + bs.length := by
  induction bs generalizing k with
  | nil => cases hx
  | cons b bs ih =>
    rcases List.mem_append.mp hx with hb | hbs
    · refine ⟨k, h.1 x hb, Nat.le_refl k, ?_⟩
      rw [List.length_cons]
      omega
    · obtain ⟨i, hi, hle, hlt⟩ := ih h.2 hbs
      refine ⟨i, hi, by omega, ?_⟩
      rw [List.length_cons]
      omega

/-- The items of a key are those of its bucket. -/
theorem Keyed.mem_bucket (h : Keyed key k bs) {x : α} (hx : x ∈ bs.flatten) {i : Nat}
    (hi : key x = some (k + i)) : ∃ b, bs[i]? = some b ∧ x ∈ b := by
  induction bs generalizing k i with
  | nil => cases hx
  | cons b bs ih =>
    rcases List.mem_append.mp hx with hb | hbs
    · have hk := Option.some.inj (hi.symm.trans (h.1 x hb))
      obtain rfl : i = 0 := by omega
      exact ⟨b, rfl, hb⟩
    · obtain ⟨j, hj, hle, -⟩ := h.2.key_lt hbs
      have hij := Option.some.inj (hi.symm.trans hj)
      obtain ⟨i, rfl⟩ : ∃ m, i = m + 1 := ⟨i - 1, by omega⟩
      exact ih h.2 hbs (by rw [hi]; congr 1; omega)

/-- The line is sorted by key. -/
theorem Keyed.sorted (h : Keyed key k bs) :
    bs.flatten.Pairwise fun x y => ∀ i j, key x = some i → key y = some j → i ≤ j := by
  induction bs generalizing k with
  | nil => exact List.Pairwise.nil
  | cons b bs ih =>
    rw [List.flatten_cons, List.pairwise_append]
    refine ⟨?_, ih h.2, fun x hx y hy i j hi hj => ?_⟩
    · refine List.pairwise_of_forall_mem_list fun x hx y hy i j hi hj => ?_
      have hix := Option.some.inj (hi.symm.trans (h.1 x hx))
      have hjy := Option.some.inj (hj.symm.trans (h.1 y hy))
      omega
    · have hix := Option.some.inj (hi.symm.trans (h.1 x hx))
      obtain ⟨m, hm, hle, -⟩ := h.2.key_lt hy
      have hjm := Option.some.inj (hj.symm.trans hm)
      omega

/-- An end tells how many items have a key up to the number of its bucket. -/
theorem Keyed.countP_le (h : Keyed key 0 bs) (hk : k < bs.length) :
    (ends 0 bs)[k]? = some (bs.flatten.countP fun x => (key x).any (· ≤ k)) := by
  have hsplit : bs = bs.take (k + 1) ++ bs.drop (k + 1) := (List.take_append_drop _ _).symm
  have hlength : (bs.take (k + 1)).length = k + 1 := List.length_take_of_le hk
  rw [getElem?_ends 0 bs hk, Nat.zero_add]
  rw [hsplit, keyed_append, Nat.zero_add, hlength] at h
  conv_rhs => rw [hsplit]
  have hfirst : (bs.take (k + 1)).flatten.countP (fun x => (key x).any (· ≤ k)) =
      (bs.take (k + 1)).flatten.length := by
    refine List.countP_eq_length.mpr fun x hx => ?_
    obtain ⟨i, hi, -, hlt⟩ := h.1.key_lt hx
    rw [hi, Option.any_some, decide_eq_true_eq]
    omega
  have hothers : (bs.drop (k + 1)).flatten.countP (fun x => (key x).any (· ≤ k)) = 0 := by
    refine List.countP_eq_zero.mpr fun x hx => ?_
    obtain ⟨i, hi, hle, -⟩ := h.2.key_lt hx
    rw [hi, Option.any_some, decide_eq_true_eq]
    omega
  rw [List.flatten_append, List.countP_append, hfirst, hothers]
  rfl

end Keys

/-! ## The table of slots -/

section Slots

variable {slot slot' : α → Option Nat} {base : Nat} {l m : List α}

/-- The table tells the slots of a line that starts at `base`. -/
def Placed (slot : α → Option Nat) (base : Nat) (l : List α) : Prop :=
  ∀ (j : Nat) (x : α), l[j]? = some x → slot x = some (base + j)

theorem placed_nil (slot : α → Option Nat) (base : Nat) : Placed slot base [] :=
  fun _ _ hx => by cases hx

theorem placed_append :
    Placed slot base (l ++ m) ↔ Placed slot base l ∧ Placed slot (base + l.length) m := by
  constructor
  · refine fun h => ⟨fun j x hx => h j x ?_, fun j x hx => ?_⟩
    · rwa [List.getElem?_append_left (List.getElem?_eq_some_iff.mp hx).1]
    · rw [h (l.length + j) x, Nat.add_assoc]
      rwa [List.getElem?_append_right (Nat.le_add_right _ _), Nat.add_sub_cancel_left]
  · rintro ⟨hl, hm⟩ j x hx
    by_cases hj : j < l.length
    · exact hl j x (by rwa [List.getElem?_append_left hj] at hx)
    · rw [List.getElem?_append_right (by omega)] at hx
      rw [hm _ x hx]
      congr 1
      omega

theorem placed_cons {x : α} :
    Placed slot base (x :: l) ↔ slot x = some base ∧ Placed slot (base + 1) l := by
  constructor
  · refine fun h => ⟨h 0 x rfl, fun j y hy => ?_⟩
    rw [h (j + 1) y hy]
    congr 1
    omega
  · rintro ⟨hx, hl⟩ j y hy
    cases j with
    | zero => rw [← Option.some.inj hy, hx, Nat.add_zero]
    | succ j =>
      rw [hl j y hy]
      congr 1
      omega

/-- A line is placed where each of its buckets is. -/
theorem placed_flatten {bs : List (List α)} (h : ∀ (q : Nat) (b : List α), bs[q]? = some b →
    Placed slot (base + (bs.take q).flatten.length) b) : Placed slot base bs.flatten := by
  induction bs generalizing base with
  | nil => exact placed_nil slot base
  | cons b bs ih =>
    rw [List.flatten_cons, placed_append]
    refine ⟨h 0 b rfl, ih fun q c hc => ?_⟩
    have hplaced := h (q + 1) c hc
    rwa [List.take_succ_cons, List.flatten_cons, List.length_append, ← Nat.add_assoc] at hplaced

theorem Placed.congr (h : Placed slot base l) (hslot : ∀ x ∈ l, slot x = slot' x) :
    Placed slot' base l :=
  fun j x hx => by rw [← hslot x (List.mem_of_getElem? hx), h j x hx]

theorem placed_update [DecidableEq α] {x : α} (hx : x ∉ l) (v : Option Nat) :
    Placed (Function.update slot x v) base l ↔ Placed slot base l := by
  have hslot : ∀ y ∈ l, Function.update slot x v y = slot y := fun y hy =>
    Function.update_of_ne (fun hyx : y = x => hx (hyx ▸ hy)) v slot
  exact ⟨fun h => h.congr hslot, fun h => h.congr fun y hy => (hslot y hy).symm⟩

theorem Placed.lt (h : Placed slot base l) {x : α} (hx : x ∈ l) :
    ∃ j, slot x = some (base + j) ∧ j < l.length ∧ l[j]? = some x := by
  obtain ⟨j, hj, rfl⟩ := List.mem_iff_getElem.mp hx
  exact ⟨j, h j _ (List.getElem?_eq_getElem hj), hj, List.getElem?_eq_getElem hj⟩

/-- The slot of an item is where it stands. -/
theorem Placed.getElem? (h : Placed slot 0 l) {x : α} (hx : x ∈ l) {j : Nat}
    (hj : slot x = some j) : l[j]? = some x := by
  obtain ⟨i, hi, -, hli⟩ := h.lt hx
  rw [Nat.zero_add] at hi
  rwa [Option.some.inj (hj.symm.trans hi)]

/-- A table tells slots of a line without doubles only. -/
theorem Placed.nodup (h : Placed slot base l) : l.Nodup := by
  refine List.pairwise_iff_getElem.mpr fun i j hi hj hij heq => ?_
  have hfirst := h i l[i] (List.getElem?_eq_getElem hi)
  have hsecond := h j l[j] (List.getElem?_eq_getElem hj)
  have hsame := Option.some.inj (hfirst.symm.trans (heq ▸ hsecond))
  omega

end Slots

end TorrentApp.Foundation
