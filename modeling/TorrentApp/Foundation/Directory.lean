import Mathlib.Logic.Function.Basic
import TorrentApp.Foundation.Bytes

set_option autoImplicit false

/-!
# A directory and its open files

A name of the directory leads to an inode, and the inode holds the bytes.  A stream
keeps the inode it was opened on: it writes there whether the name still leads to
it or not.  No two names lead to one inode, so what is written to an inode shows
under one name at most.
-/

namespace TorrentApp.Foundation

variable {ν α : Type*}

/-- A directory without hard links. -/
structure Directory (ν α : Type*) where
  /-- the inode each name leads to -/
  entry : ν → Option Nat
  /-- the bytes of each inode -/
  inode : Nat → List α
  /-- the first inode not used so far -/
  next : Nat
  entry_lt : ∀ x i, entry x = some i → i < next
  entry_inj : ∀ x y i, entry x = some i → entry y = some i → x = y

namespace Directory

/-! ## Operations -/

theorem none_ne_some_lt (x : ν) (i : Nat) (h : (fun _ : ν => (none : Option Nat)) x = some i) :
    i < 0 := by cases h

theorem none_ne_some_inj (x y : ν) (i : Nat) (h : (fun _ : ν => (none : Option Nat)) x = some i)
    (_ : (fun _ : ν => (none : Option Nat)) y = some i) : x = y := by cases h

/-- No names yet. -/
def empty : Directory ν α where
  entry := fun _ => none
  inode := fun _ => []
  next := 0
  entry_lt := none_ne_some_lt
  entry_inj := none_ne_some_inj

/-- The bytes of the file a name leads to. -/
def content (D : Directory ν α) (x : ν) : Option (List α) := (D.entry x).map D.inode

/-- The inode `i` holds `bytes` from now on. -/
def setInode (D : Directory ν α) (i : Nat) (bytes : List α) : Directory ν α :=
  { D with inode := Function.update D.inode i bytes }

variable [DecidableEq ν]

theorem create_lt (D : Directory ν α) (x : ν) (y : ν) (i : Nat)
    (h : Function.update D.entry x (some D.next) y = some i) : i < D.next + 1 := by
  by_cases hy : y = x
  · subst hy
    rw [Function.update_self, Option.some.injEq] at h
    omega
  · rw [Function.update_of_ne hy] at h
    exact Nat.lt_succ_of_lt (D.entry_lt y i h)

theorem create_inj (D : Directory ν α) (x : ν) (y z : ν) (i : Nat)
    (hy : Function.update D.entry x (some D.next) y = some i)
    (hz : Function.update D.entry x (some D.next) z = some i) : y = z := by
  rw [Function.update_apply] at hy hz
  split at hy <;> split at hz
  · next hyx hzx => exact hyx.trans hzx.symm
  · rw [Option.some.injEq] at hy
    exact absurd (D.entry_lt z i hz) (by omega)
  · rw [Option.some.injEq] at hz
    exact absurd (D.entry_lt y i hy) (by omega)
  · exact D.entry_inj y z i hy hz

/-- `x` leads to a new inode that holds `bytes`. -/
def create (D : Directory ν α) (x : ν) (bytes : List α) : Directory ν α where
  entry := Function.update D.entry x (some D.next)
  inode := Function.update D.inode D.next bytes
  next := D.next + 1
  entry_lt := D.create_lt x
  entry_inj := D.create_inj x

/-- The file `x` is opened for truncation: its inode loses its bytes, or there is a
new one.  The second component is the inode the stream is opened on. -/
def openTrunc (D : Directory ν α) (x : ν) : Directory ν α × Nat :=
  match D.entry x with
  | some i => (D.setInode i [], i)
  | none => (D.create x [], D.next)

theorem unlink_of_some {D : Directory ν α} {x y : ν} {i : Nat}
    (h : Function.update D.entry x none y = some i) : D.entry y = some i := by
  rw [Function.update_apply] at h
  split at h
  · cases h
  · exact h

theorem unlink_lt (D : Directory ν α) (x : ν) (y : ν) (i : Nat)
    (h : Function.update D.entry x none y = some i) : i < D.next :=
  D.entry_lt y i (unlink_of_some h)

theorem unlink_inj (D : Directory ν α) (x : ν) (y z : ν) (i : Nat)
    (hy : Function.update D.entry x none y = some i)
    (hz : Function.update D.entry x none z = some i) : y = z :=
  D.entry_inj y z i (unlink_of_some hy) (unlink_of_some hz)

/-- The name `x` leads nowhere; the inode stays with the streams opened on it. -/
def unlink (D : Directory ν α) (x : ν) : Directory ν α where
  entry := Function.update D.entry x none
  inode := D.inode
  next := D.next
  entry_lt := D.unlink_lt x
  entry_inj := D.unlink_inj x

theorem rename_of_some {D : Directory ν α} {x y z : ν} {i : Nat}
    (h : Function.update (Function.update D.entry y (D.entry x)) x none z = some i) :
    z ≠ x ∧ (z = y ∧ D.entry x = some i ∨ z ≠ y ∧ D.entry z = some i) := by
  by_cases hx : z = x
  · subst hx
    rw [Function.update_self] at h
    cases h
  · rw [Function.update_of_ne hx] at h
    refine ⟨hx, ?_⟩
    by_cases hy : z = y
    · subst hy
      rw [Function.update_self] at h
      exact .inl ⟨rfl, h⟩
    · rw [Function.update_of_ne hy] at h
      exact .inr ⟨hy, h⟩

theorem rename_lt (D : Directory ν α) (x y : ν) (z : ν) (i : Nat)
    (h : Function.update (Function.update D.entry y (D.entry x)) x none z = some i) :
    i < D.next := by
  obtain ⟨-, ⟨-, hx⟩ | ⟨-, hz⟩⟩ := rename_of_some h
  · exact D.entry_lt x i hx
  · exact D.entry_lt z i hz

theorem rename_inj (D : Directory ν α) (x y : ν) (z w : ν) (i : Nat)
    (hz : Function.update (Function.update D.entry y (D.entry x)) x none z = some i)
    (hw : Function.update (Function.update D.entry y (D.entry x)) x none w = some i) : z = w := by
  obtain ⟨hzx, ⟨hzy, hzi⟩ | ⟨-, hzi⟩⟩ := rename_of_some hz <;>
    obtain ⟨hwx, ⟨hwy, hwi⟩ | ⟨-, hwi⟩⟩ := rename_of_some hw
  · exact hzy.trans hwy.symm
  · exact absurd (D.entry_inj w x i hwi hzi) hwx
  · exact absurd (D.entry_inj z x i hzi hwi) hzx
  · exact D.entry_inj z w i hzi hwi

/-- `y` leads where `x` led, and `x` nowhere. -/
def rename (D : Directory ν α) (x y : ν) : Directory ν α where
  entry := Function.update (Function.update D.entry y (D.entry x)) x none
  inode := D.inode
  next := D.next
  entry_lt := D.rename_lt x y
  entry_inj := D.rename_inj x y

/-! ## What the names show -/

section Content

variable {D : Directory ν α} {x : ν} {i : Nat} {bytes : List α}

end Content

/-! ## Open streams -/

/-- The inode `i` is that of a stream opened on the file `x`: no other name leads to
it. -/
structure Handle (D : Directory ν α) (i : Nat) (x : ν) : Prop where
  lt : i < D.next
  only : ∀ y, D.entry y = some i → y = x

section Handle

variable {D : Directory ν α} {x y : ν} {i j : Nat} {bytes : List α}

omit [DecidableEq ν] in
theorem Handle.setInode (h : D.Handle i x) : (D.setInode j bytes).Handle i x := ⟨h.lt, h.only⟩

theorem Handle.create (h : D.Handle i x) : (D.create y bytes).Handle i x := by
  refine ⟨Nat.lt_succ_of_lt h.lt, fun z hz => ?_⟩
  have hlt := h.lt
  by_cases hzy : z = y
  · subst hzy
    have hnext : D.next = i := by simpa [Directory.create] using hz
    omega
  · exact h.only z (by simpa [Directory.create, hzy] using hz)

theorem Handle.openTrunc (h : D.Handle i x) : (D.openTrunc y).1.Handle i x := by
  unfold Directory.openTrunc
  split
  · exact h.setInode
  · exact h.create

theorem Handle.unlink (h : D.Handle i x) : (D.unlink y).Handle i x :=
  ⟨h.lt, fun z hz => h.only z (unlink_of_some hz)⟩

theorem Handle.rename_self (h : D.Handle i x) : (D.rename y y).Handle i x := by
  refine ⟨h.lt, fun z hz => ?_⟩
  obtain ⟨hzy, ⟨rfl, -⟩ | ⟨-, hz⟩⟩ := rename_of_some hz
  · exact absurd rfl hzy
  · exact h.only z hz

theorem handle_create (D : Directory ν α) (x : ν) (bytes : List α) :
    (D.create x bytes).Handle D.next x := by
  refine ⟨Nat.lt_succ_self _, fun y hy => ?_⟩
  refine (D.create x bytes).entry_inj y x D.next hy ?_
  exact Function.update_self x _ _

theorem handle_openTrunc (D : Directory ν α) (x : ν) :
    (D.openTrunc x).1.Handle (D.openTrunc x).2 x := by
  unfold Directory.openTrunc
  split
  · next i hx => exact ⟨D.entry_lt x i hx, fun y hy => D.entry_inj y x i hy hx⟩
  · exact D.handle_create x []

end Handle

end Directory

end TorrentApp.Foundation
