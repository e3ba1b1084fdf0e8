import Mathlib.Data.List.Basic

set_option autoImplicit false

/-!
# What is known of a line of bytes

An image gives the byte at each place of a line, where it is known.  A block that is
written becomes known, a range that may have been damaged is forgotten, and what is
read has to agree with what is known.
-/

namespace TorrentApp.Foundation

variable {α : Type*}

/-- The bytes that are known. -/
abbrev Image (α : Type*) := Nat → Option α

/-- Every byte known to `K` is what `L` has in its place. -/
def Image.Within (K L : Image α) : Prop := ∀ x b, K x = some b → L x = some b

/-- `block` is written at `start`. -/
def Image.put (K : Image α) (start : Nat) (block : List α) : Image α := fun x =>
  if start ≤ x ∧ x < start + block.length then block[x - start]? else K x

/-- The places from `lo` up to `hi` are forgotten. -/
def Image.forget (K : Image α) (lo hi : Nat) : Image α := fun x =>
  if lo ≤ x ∧ x < hi then none else K x

/-- `block` can be read at `start`. -/
def Image.Agrees (K : Image α) (start : Nat) (block : List α) : Prop :=
  ∀ k b c, block[k]? = some b → K (start + k) = some c → b = c

variable {K L : Image α} {start lo hi : Nat} {xs ys : List α}

theorem Image.put_nil : K.put start [] = K := by
  funext x
  rw [Image.put, List.length_nil, if_neg (by omega)]

theorem Image.put_inside {x : Nat} (hlo : start ≤ x) (hhi : x < start + xs.length) :
    K.put start xs x = xs[x - start]? := if_pos ⟨hlo, hhi⟩

theorem Image.put_outside {x : Nat} (hx : x < start ∨ start + xs.length ≤ x) :
    K.put start xs x = K x := if_neg (by omega)

/-- Two blocks, one behind the other. -/
theorem Image.put_append :
    (K.put start xs).put (start + xs.length) ys = K.put start (xs ++ ys) := by
  funext x
  simp only [Image.put, List.length_append]
  by_cases hsecond : start + xs.length ≤ x ∧ x < start + xs.length + ys.length
  · rw [if_pos hsecond, if_pos (by omega), List.getElem?_append_right (by omega)]
    congr 1
    omega
  · rw [if_neg hsecond]
    by_cases hfirst : start ≤ x ∧ x < start + xs.length
    · rw [if_pos hfirst, if_pos (by omega), List.getElem?_append_left (by omega)]
    · rw [if_neg hfirst, if_neg (by omega)]

/-- A write that went wrong leaves its range unknown, whatever part was written. -/
theorem Image.forget_put (hlo : lo ≤ start) (hhi : start + xs.length ≤ hi) :
    (K.put start xs).forget lo hi = K.forget lo hi := by
  funext x
  simp only [Image.forget]
  split
  · rfl
  · exact Image.put_outside (by omega)

theorem Image.forget_within (K : Image α) (lo hi : Nat) : (K.forget lo hi).Within K := by
  intro x b hb
  rw [Image.forget] at hb
  split at hb
  · cases hb
  · exact hb

theorem Image.Within.trans {M : Image α} (hKL : K.Within L) (hLM : L.Within M) : K.Within M :=
  fun x b hb => hLM x b (hKL x b hb)

/-! ## The line as a machine -/

/-- What happens to a line of bytes. -/
inductive LineMove (α : Type*) where
  | put (start : Nat) (block : List α)
  | read (start : Nat) (block : List α)
  | forget (ranges : List (Nat × Nat))

end TorrentApp.Foundation
