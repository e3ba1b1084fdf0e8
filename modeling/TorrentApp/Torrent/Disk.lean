import TorrentApp.Foundation.Bytes
import TorrentApp.Foundation.Image

set_option autoImplicit false

/-!
# Files and the operating system

What a call to the operating system does is decided outside of the program: it may
fail, and it may move fewer bytes than it was asked for.  An `Access` is one such
answer; a read or a write that goes wrong may have moved bytes before.
-/

namespace TorrentApp.Torrent

open TorrentApp.Foundation

/-- The value of an `error_code`. -/
inductive Errno where
  | no_such_file_or_directory
  | other (value : Nat)
  deriving DecidableEq, Repr

/-- How the system answers to one access to a file. -/
structure Access where
  /-- the error of the first attempt to open -/
  opened : Option Errno
  /-- the error of `create_directories` -/
  mkdir : Option Errno
  /-- the error of the second attempt to open -/
  reopened : Option Errno
  /-- the error of `set_size`, and whether the file has its new size in spite of it -/
  sized : Option (Bool × Errno)
  /-- how many bytes are moved at most, if not all -/
  moved : Option Nat
  /-- the error behind the last byte moved -/
  error : Option Errno
  deriving DecidableEq, Repr

/-- The access at which everything goes well. -/
def Access.fine : Access := ⟨none, none, none, none, none, none⟩

/-! ## `file::writev` and `file::readv` -/

/-- The number of bytes moved, out of `n`. -/
def Access.count (a : Access) (n : Nat) : Nat := min (a.moved.getD n) n

/-- What a call that moved `n` bytes answers. -/
def Access.answer (a : Access) (n : Nat) : Except Errno Nat :=
  match a.error with
  | some e => .error e
  | none => .ok n

/-- Bytes that reach a file; no bytes leave it as it is. -/
def written (content : List UInt8) (start : Nat) (block : List UInt8) : List UInt8 :=
  if block = [] then content else writeAt 0 content start block

/-- `file::writev`. -/
def pwrite (content : List UInt8) (start : Nat) (block : List UInt8) (a : Access) :
    Except Errno Nat × List UInt8 :=
  let n := a.count block.length
  (a.answer n, written content start (block.take n))

/-- `file::readv`, with the bytes it stores in the buffers. -/
def pread (content : List UInt8) (start n : Nat) (a : Access) : Except Errno Nat × List UInt8 :=
  let there := readAt content start n
  let block := there.take (a.count there.length)
  (a.answer block.length, block)

theorem Access.count_le (a : Access) (n : Nat) : a.count n ≤ n := Nat.min_le_right _ _

theorem Access.answer_ok {a : Access} {n m : Nat} (h : a.answer n = .ok m) : m = n := by
  rw [Access.answer] at h
  split at h
  · cases h
  · exact (Except.ok.inj h).symm

variable {content block : List UInt8} {start : Nat}

theorem getElem?_written_inside {k : Nat} (hlo : start ≤ k) (hhi : k < start + block.length) :
    (written content start block)[k]? = block[k - start]? := by
  have hne : block ≠ [] := by
    rintro rfl
    simp only [List.length_nil] at hhi
    omega
  rw [written, if_neg hne]
  exact getElem?_writeAt_inside hlo hhi

theorem getElem?_written_outside {k : Nat} {b : UInt8} (hold : content[k]? = some b)
    (hk : k < start ∨ start + block.length ≤ k) : (written content start block)[k]? = some b := by
  rw [written]
  split
  · exact hold
  · exact getElem?_writeAt_outside hold hk

/-- Some first part of the block is written; without an error the answer counts it. -/
theorem pwrite_spec {a : Access} {ret : Except Errno Nat} {content' : List UInt8}
    (h : pwrite content start block a = (ret, content')) :
    ∃ n ≤ block.length, content' = written content start (block.take n) ∧
      ∀ m, ret = .ok m → m = n := by
  cases h
  exact ⟨a.count block.length, a.count_le _, rfl, fun m hm => Access.answer_ok hm⟩

/-- What is read is what is there; without an error the answer counts it. -/
theorem pread_spec {n : Nat} {a : Access} {ret : Except Errno Nat}
    (h : pread content start n a = (ret, block)) :
    block.length ≤ n ∧ (∀ k b, block[k]? = some b → content[start + k]? = some b) ∧
      ∀ m, ret = .ok m → m = block.length := by
  cases h
  refine ⟨?_, ?_, fun m hm => Access.answer_ok hm⟩
  · rw [List.length_take]
    exact Nat.le_trans (Nat.min_le_right _ _) (length_readAt_le content start n)
  · intro k b hb
    obtain ⟨hk, -⟩ := List.getElem?_eq_some_iff.mp hb
    rw [List.length_take] at hk
    have hlen := length_readAt_le content start n
    rw [List.getElem?_take_of_lt (by omega), getElem?_readAt (by omega)] at hb
    exact hb

/-- Where every byte is there, a full read gets them all. -/
theorem length_readAt {n : Nat} (h : ∀ k < n, ∃ b, content[start + k]? = some b) :
    (readAt content start n).length = n := by
  have hle := length_readAt_le content start n
  by_contra hne
  obtain ⟨b, hb⟩ := h (readAt content start n).length (by omega)
  rw [← getElem?_readAt (by omega : (readAt content start n).length < n)] at hb
  obtain ⟨hlt, -⟩ := List.getElem?_eq_some_iff.mp hb
  omega

theorem pread_fine (content : List UInt8) (start n : Nat) :
    pread content start n .fine =
      (.ok (readAt content start n).length, readAt content start n) := by
  have hcount : ∀ m, Access.fine.count m = m := fun m => Nat.min_self m
  simp only [pread, hcount, List.take_length]
  rfl

end TorrentApp.Torrent
