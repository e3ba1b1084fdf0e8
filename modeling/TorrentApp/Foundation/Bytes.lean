import Mathlib.Data.List.Basic

set_option autoImplicit false

/-!
# Writing into a file

A file is the list of its bytes.  A write at an offset replaces a range, and past
the end it extends the file, the gap being filled.
-/

namespace TorrentApp.Foundation

variable {α : Type*}

/-- A file after `block` is written at `start`; a gap in front of it is filled
with `fill`. -/
def writeAt (fill : α) (data : List α) (start : Nat) (block : List α) : List α :=
  data.take start ++ List.replicate (start - data.length) fill ++ block ++
    data.drop (start + block.length)

variable {fill : α} {data : List α} {start : Nat} {block : List α}

/-- What lies in front of the block has exactly the block's offset as its length. -/
theorem length_front (fill : α) (data : List α) (start : Nat) :
    (data.take start ++ List.replicate (start - data.length) fill).length = start := by
  rw [List.length_append, List.length_take, List.length_replicate]
  omega

/-- Inside the range the file holds the block. -/
theorem getElem?_writeAt_inside {k : Nat} (hlo : start ≤ k) (hhi : k < start + block.length) :
    (writeAt fill data start block)[k]? = block[k - start]? := by
  have hfront := length_front fill data start
  rw [writeAt, List.getElem?_append_left (by rw [List.length_append, hfront]; exact hhi),
    List.getElem?_append_right (by rw [hfront]; exact hlo), hfront]

/-- Outside the range the file keeps its bytes. -/
theorem getElem?_writeAt_outside {k : Nat} {b : α} (hold : data[k]? = some b)
    (hk : k < start ∨ start + block.length ≤ k) :
    (writeAt fill data start block)[k]? = some b := by
  have hfront := length_front fill data start
  obtain ⟨hlength, -⟩ := List.getElem?_eq_some_iff.mp hold
  rcases hk with hbefore | hafter
  · have htake : k < (data.take start).length := by
      rw [List.length_take]
      omega
    rw [writeAt, List.append_assoc, List.append_assoc, List.getElem?_append_left htake,
      List.getElem?_take_of_lt hbefore, hold]
  · rw [writeAt, List.getElem?_append_right (by rw [List.length_append, hfront]; exact hafter),
      List.length_append, hfront, List.getElem?_drop, Nat.add_sub_cancel' hafter, hold]

/-- A byte of the file survives a write that writes it again or passes it by. -/
theorem getElem?_writeAt_of_agree {k : Nat} {b : α} (hold : data[k]? = some b)
    (hagree : start ≤ k → k < start + block.length → block[k - start]? = some b) :
    (writeAt fill data start block)[k]? = some b := by
  by_cases hin : start ≤ k ∧ k < start + block.length
  · rw [getElem?_writeAt_inside hin.1 hin.2, hagree hin.1 hin.2]
  · exact getElem?_writeAt_outside hold (by omega)

/-! ## Reading -/

/-- Up to `n` bytes of a file from `start` on. -/
def readAt (data : List α) (start n : Nat) : List α := (data.drop start).take n

theorem getElem?_readAt {n k : Nat} (hk : k < n) :
    (readAt data start n)[k]? = data[start + k]? := by
  rw [readAt, List.getElem?_take_of_lt hk, List.getElem?_drop]

theorem length_readAt_le (data : List α) (start n : Nat) : (readAt data start n).length ≤ n :=
  List.length_take_le n _

/-- A file cut or filled up to `n` bytes. -/
def resize (fill : α) (data : List α) (n : Nat) : List α :=
  data.take n ++ List.replicate (n - data.length) fill

theorem getElem?_resize {n k : Nat} {b : α} (hold : data[k]? = some b) (hk : k < n) :
    (resize fill data n)[k]? = some b := by
  obtain ⟨hlength, -⟩ := List.getElem?_eq_some_iff.mp hold
  have htake : k < (data.take n).length := by
    rw [List.length_take]
    omega
  rw [resize, List.getElem?_append_left htake, List.getElem?_take_of_lt hk, hold]

end TorrentApp.Foundation
