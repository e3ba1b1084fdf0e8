import Mathlib.Algebra.GroupWithZero.Nat
import Mathlib.Data.List.Nodup
import Mathlib.Logic.Function.Basic

set_option autoImplicit false

/-!
# Vectors of buffers

A request names its bytes by a vector of buffers in memory.  `copy_bufs` and
`advance_bufs` cut such a vector at a number of bytes; on the addresses that the
vector covers they are `take` and `drop`.
-/

namespace TorrentApp.Torrent

/-- `file::iovec_t`. -/
structure Iovec where
  iov_base : Nat
  iov_len : Nat
  deriving DecidableEq, Repr

/-- `bufs_size`. -/
def bufs_size (bufs : List Iovec) : Nat := (bufs.map Iovec.iov_len).sum

/-- The loop of `copy_bufs`; `size` bytes are behind it. -/
def copyBufs (size : Nat) : List Iovec → Nat → List Iovec
  | [], _ => []
  | b :: bufs, bytes =>
      if bytes ≤ size + b.iov_len then
        [{ b with iov_len := b.iov_len - (size + b.iov_len - bytes) }]
      else b :: copyBufs (size + b.iov_len) bufs bytes

/-- `copy_bufs`. -/
def copy_bufs (bufs : List Iovec) (bytes : Nat) : List Iovec := copyBufs 0 bufs bytes

/-- The loop of `advance_bufs`. -/
def advanceBufs (size : Nat) : List Iovec → Nat → List Iovec
  | [], _ => []
  | b :: bufs, bytes =>
      if bytes ≤ size + b.iov_len then
        { iov_base := b.iov_base + b.iov_len - (size + b.iov_len - bytes)
          iov_len := size + b.iov_len - bytes } :: bufs
      else advanceBufs (size + b.iov_len) bufs bytes

/-- `advance_bufs`. -/
def advance_bufs (bufs : List Iovec) (bytes : Nat) : List Iovec := advanceBufs 0 bufs bytes

/-- The loop of `count_bufs`. -/
def countBufs (size : Nat) : List Iovec → Nat → Nat
  | [], _ => 0
  | b :: bufs, bytes =>
      if bytes ≤ size + b.iov_len then 1 else countBufs (size + b.iov_len) bufs bytes + 1

/-- `count_bufs`. -/
def count_bufs (bufs : List Iovec) (bytes : Nat) : Nat :=
  if bytes = 0 then 0 else countBufs 0 bufs bytes

/-! ## The addresses of a vector -/

/-- The addresses of the bytes, in order. -/
def addresses (bufs : List Iovec) : List Nat :=
  bufs.flatMap fun b => List.range' b.iov_base b.iov_len

@[simp] theorem addresses_nil : addresses [] = [] := rfl

@[simp] theorem addresses_cons (b : Iovec) (bufs : List Iovec) :
    addresses (b :: bufs) = List.range' b.iov_base b.iov_len ++ addresses bufs := rfl

theorem length_addresses (bufs : List Iovec) : (addresses bufs).length = bufs_size bufs := by
  rw [addresses, List.length_flatMap, bufs_size]
  simp only [List.length_range']

theorem bufs_size_cons (b : Iovec) (bufs : List Iovec) :
    bufs_size (b :: bufs) = b.iov_len + bufs_size bufs := List.sum_cons

theorem addresses_copyBufs {bufs : List Iovec} {size bytes : Nat} (hsize : size ≤ bytes)
    (hbytes : bytes ≤ size + bufs_size bufs) :
    addresses (copyBufs size bufs bytes) = (addresses bufs).take (bytes - size) := by
  induction bufs generalizing size with
  | nil => rw [copyBufs, addresses_nil, List.take_nil]
  | cons b bufs ih =>
    rw [bufs_size_cons] at hbytes
    rw [copyBufs, addresses_cons]
    split
    · rename_i hlast
      have hlen : b.iov_len - (size + b.iov_len - bytes) = bytes - size := by omega
      rw [addresses_cons, addresses_nil, List.append_nil, hlen,
        List.take_append_of_le_length (by rw [List.length_range']; omega),
        List.take_range'_of_length_ge (by omega)]
    · rename_i hmore
      have hlen : (List.range' b.iov_base b.iov_len).length ≤ bytes - size := by
        rw [List.length_range']
        omega
      rw [addresses_cons, ih (by omega) (by omega), List.take_append,
        List.take_of_length_le hlen, List.length_range', Nat.sub_sub]

/-- The copy covers the first `bytes` bytes. -/
theorem addresses_copy_bufs {bufs : List Iovec} {bytes : Nat} (h : bytes ≤ bufs_size bufs) :
    addresses (copy_bufs bufs bytes) = (addresses bufs).take bytes := by
  rw [copy_bufs, addresses_copyBufs (Nat.zero_le bytes) (by omega), Nat.sub_zero]

theorem addresses_advanceBufs {bufs : List Iovec} {size bytes : Nat} (hsize : size ≤ bytes)
    (hbytes : bytes ≤ size + bufs_size bufs) :
    addresses (advanceBufs size bufs bytes) = (addresses bufs).drop (bytes - size) := by
  induction bufs generalizing size with
  | nil => rw [advanceBufs, addresses_nil, List.drop_nil]
  | cons b bufs ih =>
    rw [bufs_size_cons] at hbytes
    rw [advanceBufs, addresses_cons]
    split
    · rename_i hlast
      have hbase : b.iov_base + b.iov_len - (size + b.iov_len - bytes) =
          b.iov_base + (bytes - size) := by omega
      have hlen : size + b.iov_len - bytes = b.iov_len - (bytes - size) := by omega
      rw [addresses_cons, List.drop_append_of_le_length (by rw [List.length_range']; omega)]
      dsimp only
      rw [hbase, hlen, List.drop_range', Nat.mul_one]
    · rename_i hmore
      have hlen : (List.range' b.iov_base b.iov_len).length ≤ bytes - size := by
        rw [List.length_range']
        omega
      rw [ih (by omega) (by omega), List.drop_append, List.drop_of_length_le hlen,
        List.nil_append, List.length_range', Nat.sub_sub]

/-- What is left covers the bytes behind the first `bytes`. -/
theorem addresses_advance_bufs {bufs : List Iovec} {bytes : Nat} (h : bytes ≤ bufs_size bufs) :
    addresses (advance_bufs bufs bytes) = (addresses bufs).drop bytes := by
  rw [advance_bufs, addresses_advanceBufs (Nat.zero_le bytes) (by omega), Nat.sub_zero]

theorem take_countBufs_copyBufs (bufs : List Iovec) {size bytes : Nat} (hsize : size < bytes) :
    (copyBufs size bufs bytes).take (countBufs size (copyBufs size bufs bytes) bytes) =
      copyBufs size bufs bytes := by
  induction bufs generalizing size with
  | nil => rw [copyBufs, List.take_nil]
  | cons b bufs ih =>
    rw [copyBufs]
    split
    · rename_i hlast
      rw [countBufs, if_pos (by dsimp only; omega), List.take_one, List.head?_cons]
      rfl
    · rename_i hmore
      rw [countBufs, if_neg hmore, List.take_succ_cons, ih (by omega)]

/-- `count_bufs` finds all of a copy's buffers. -/
theorem take_count_bufs_copy_bufs (bufs : List Iovec) {bytes : Nat} (h : 0 < bytes) :
    (copy_bufs bufs bytes).take (count_bufs (copy_bufs bufs bytes) bytes) =
      copy_bufs bufs bytes := by
  rw [count_bufs, if_neg (Nat.ne_of_gt h)]
  exact take_countBufs_copyBufs bufs h

/-! ## Memory -/

/-- The memory that the buffers lie in. -/
abbrev Memory := Nat → UInt8

/-- The bytes of the buffers. -/
def gather (mem : Memory) (bufs : List Iovec) : List UInt8 := (addresses bufs).map mem

/-- Bytes are stored at the addresses, as far as there are bytes. -/
def store (mem : Memory) : List Nat → List UInt8 → Memory
  | a :: as, b :: bs => store (Function.update mem a b) as bs
  | _, _ => mem

/-- `clear_bufs`. -/
def clear_bufs (mem : Memory) (bufs : List Iovec) : Memory :=
  store mem (addresses bufs) (List.replicate (bufs_size bufs) 0)

theorem length_gather (mem : Memory) (bufs : List Iovec) :
    (gather mem bufs).length = bufs_size bufs := by
  rw [gather, List.length_map, length_addresses]

theorem gather_copy_bufs (mem : Memory) {bufs : List Iovec} {bytes : Nat}
    (h : bytes ≤ bufs_size bufs) :
    gather mem (copy_bufs bufs bytes) = (gather mem bufs).take bytes := by
  rw [gather, addresses_copy_bufs h, List.map_take]
  rfl

theorem store_of_not_mem {mem : Memory} {as : List Nat} {bs : List UInt8} {a : Nat}
    (h : a ∉ as) : store mem as bs a = mem a := by
  induction as generalizing mem bs with
  | nil =>
    cases bs <;> rfl
  | cons x as ih =>
    cases bs with
    | nil => rfl
    | cons b bs =>
      rw [store, ih fun hmem => h (List.mem_cons_of_mem x hmem)]
      have hne : a ≠ x := by
        rintro rfl
        exact h List.mem_cons_self
      exact Function.update_of_ne hne _ _

/-- What was stored is found, each byte at its own address. -/
theorem store_getElem {mem : Memory} {as : List Nat} {bs : List UInt8} (hnodup : as.Nodup)
    {k a : Nat} {b : UInt8} (ha : as[k]? = some a) (hb : bs[k]? = some b) :
    store mem as bs a = b := by
  induction as generalizing mem bs k with
  | nil => cases ha
  | cons x as ih =>
    obtain ⟨hx, hrest⟩ := List.nodup_cons.mp hnodup
    cases bs with
    | nil => cases hb
    | cons c bs =>
      cases k with
      | zero =>
        cases ha
        cases hb
        rw [store, store_of_not_mem hx]
        exact Function.update_self _ _ _
      | succ k => exact ih hrest ha hb

end TorrentApp.Torrent
