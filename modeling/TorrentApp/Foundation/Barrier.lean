import Mathlib.Data.List.Nodup
import TorrentApp.Foundation.Machine

set_option autoImplicit false

/-!
# Fences in a queue

Jobs are issued one behind the other, and some of them are fences: a fence runs
alone, after everything issued before it and before everything issued after it.
Of the jobs that have not finished, those that may run are the first one, if it
is a fence, and else all of them up to the first fence.

The machine of this file issues jobs and finishes jobs that may run, in any
order.  Its invariant is the order fences are for: of two jobs of which one is a
fence, the later does not start before the earlier has finished.
-/

namespace TorrentApp.Foundation

variable {α : Type*} {fence : α → Bool} {l p w xs ys : List α} {x y : α}

/-! ## Cutting a queue -/

/-- The jobs of a queue that may run. -/
def eligible (fence : α → Bool) : List α → List α
  | [] => []
  | x :: xs => if fence x then [x] else (x :: xs).takeWhile fun y => !fence y

/-- The jobs of a queue that have to wait. -/
def waiting (fence : α → Bool) : List α → List α
  | [] => []
  | x :: xs => if fence x then xs else (x :: xs).dropWhile fun y => !fence y

theorem eligible_cons_fence (hx : fence x = true) : eligible fence (x :: xs) = [x] := by
  rw [eligible, if_pos hx]

theorem waiting_cons_fence (hx : fence x = true) : waiting fence (x :: xs) = xs := by
  rw [waiting, if_pos hx]

/-- A queue that does not begin with a fence is cut at its first fence. -/
theorem eligible_eq_takeWhile (hl : ∀ x ∈ l.head?, fence x = false) :
    eligible fence l = l.takeWhile fun y => !fence y := by
  cases l with
  | nil => rfl
  | cons x xs =>
    rw [eligible, if_neg]
    rw [hl x rfl]
    exact Bool.false_ne_true

theorem waiting_eq_dropWhile (hl : ∀ x ∈ l.head?, fence x = false) :
    waiting fence l = l.dropWhile fun y => !fence y := by
  cases l with
  | nil => rfl
  | cons x xs =>
    rw [waiting, if_neg]
    rw [hl x rfl]
    exact Bool.false_ne_true

theorem eligible_append_waiting (fence : α → Bool) (l : List α) :
    eligible fence l ++ waiting fence l = l := by
  cases l with
  | nil => rfl
  | cons x xs =>
    rw [eligible, waiting]
    split
    · rfl
    · exact List.takeWhile_append_dropWhile

theorem eligible_ne_nil (hl : l ≠ []) : eligible fence l ≠ [] := by
  cases l with
  | nil => exact absurd rfl hl
  | cons x xs =>
    rw [eligible]
    split
    · exact List.cons_ne_nil _ _
    · rename_i hx
      rw [List.takeWhile_cons, if_pos (by simpa using hx)]
      exact List.cons_ne_nil _ _

/-- Either a fence runs, alone, or no fence does. -/
theorem eligible_cases (fence : α → Bool) (l : List α) :
    (∃ x xs, l = x :: xs ∧ fence x = true) ∨ ∀ x ∈ eligible fence l, fence x = false := by
  cases l with
  | nil => exact .inr fun x hx => (by cases hx)
  | cons x xs =>
    cases hx : fence x with
    | true => exact .inl ⟨x, xs, rfl, hx⟩
    | false =>
      refine .inr fun y hy => ?_
      rw [eligible, hx, if_neg Bool.false_ne_true] at hy
      simpa using List.all_eq_true.mp List.all_takeWhile y hy

theorem eligible_eq_singleton (hx : x ∈ eligible fence l) (hfence : fence x = true) :
    eligible fence l = [x] ∧ l = x :: waiting fence l := by
  rcases eligible_cases fence l with ⟨y, ys, rfl, hy⟩ | hplain
  · rw [eligible_cons_fence hy, List.mem_singleton] at hx
    rw [hx, eligible_cons_fence hy, waiting_cons_fence hy]
    exact ⟨rfl, rfl⟩
  · rw [hplain x hx] at hfence
    cases hfence

/-- What waits begins with a fence, unless a fence is what it waits for. -/
theorem head_waiting (hplain : ∀ x ∈ eligible fence l, fence x = false) :
    ∀ x ∈ (waiting fence l).head?, fence x = true := by
  intro x hx
  cases l with
  | nil => cases hx
  | cons y ys =>
    have hy : fence y = false := by
      cases hy : fence y with
      | false => rfl
      | true =>
        have hmem : y ∈ eligible fence (y :: ys) := by
          rw [eligible_cons_fence hy]
          exact List.mem_singleton_self y
        rw [← hy, hplain y hmem]
    rw [waiting, hy, if_neg Bool.false_ne_true] at hx
    have hnot := List.head?_dropWhile_not (fun y => !fence y) (y :: ys)
    rw [Option.mem_def.mp hx] at hnot
    simpa using hnot

/-- Jobs without a fence among them, followed by a fence or by nothing, are what may run. -/
theorem eligible_append (fence : α → Bool) (hp : ∀ x ∈ p, fence x = false)
    (hw : ∀ x ∈ w.head?, fence x = true) (hne : p ≠ [] ∨ w = []) :
    eligible fence (p ++ w) = p ∧ waiting fence (p ++ w) = w := by
  have hhead : ∀ x ∈ (p ++ w).head?, fence x = false := by
    intro x hx
    cases p with
    | nil =>
      rw [hne.resolve_left (fun h => h rfl)] at hx
      cases hx
    | cons y ys =>
      rw [List.cons_append, List.head?_cons, Option.mem_some_iff] at hx
      exact hp x (hx ▸ List.mem_cons_self)
  have hall : ∀ x ∈ p, (!fence x) = true := fun x hx => by rw [hp x hx]; rfl
  have htake : (w.takeWhile fun y => !fence y) = [] := by
    cases w with
    | nil => rfl
    | cons z zs => rw [List.takeWhile_cons, hw z rfl]; rfl
  have hdrop : (w.dropWhile fun y => !fence y) = w := by
    cases w with
    | nil => rfl
    | cons z zs => rw [List.dropWhile_cons, hw z rfl]; rfl
  rw [eligible_eq_takeWhile hhead, waiting_eq_dropWhile hhead,
    List.takeWhile_append_of_pos hall, List.dropWhile_append_of_pos hall, htake, hdrop,
    List.append_nil]
  exact ⟨rfl, rfl⟩

theorem eligible_of_plain (fence : α → Bool) (hp : ∀ x ∈ p, fence x = false) :
    eligible fence p = p ∧ waiting fence p = [] := by
  have h := eligible_append fence (w := []) hp (fun x hx => (by cases hx)) (.inr rfl)
  rwa [List.append_nil] at h

/-- Behind a fence a new job only waits. -/
theorem eligible_append_of_fence (hx : x ∈ l) (hfence : fence x = true) (ys : List α) :
    eligible fence (l ++ ys) = eligible fence l ∧
      waiting fence (l ++ ys) = waiting fence l ++ ys := by
  rcases eligible_cases fence l with ⟨y, zs, rfl, hy⟩ | hplain
  · rw [List.cons_append, eligible_cons_fence hy, eligible_cons_fence hy,
      waiting_cons_fence hy, waiting_cons_fence hy]
    exact ⟨rfl, rfl⟩
  · have hcut := eligible_append_waiting fence l
    have hwait : waiting fence l ≠ [] := by
      intro hnil
      rw [hnil, List.append_nil] at hcut
      rw [← hcut] at hx
      rw [hplain x hx] at hfence
      cases hfence
    have hhead : ∀ z ∈ (waiting fence l ++ ys).head?, fence z = true := by
      intro z hz
      rw [List.head?_append_of_ne_nil _ hwait] at hz
      exact head_waiting hplain z hz
    rw [show l ++ ys = eligible fence l ++ (waiting fence l ++ ys) by
      rw [← List.append_assoc, hcut]]
    exact eligible_append fence hplain hhead (.inl (eligible_ne_nil (List.ne_nil_of_mem hx)))

/-- When the last of the jobs before a fence finishes, the fence may run. -/
theorem eligible_erase [BEq α] [LawfulBEq α] (hx : x ∈ eligible fence l)
    (hfence : fence x = false) :
    l.erase x = (eligible fence l).erase x ++ waiting fence l ∧
      ((eligible fence l).erase x ≠ [] → eligible fence (l.erase x) = (eligible fence l).erase x ∧
        waiting fence (l.erase x) = waiting fence l) ∧
      ((eligible fence l).erase x = [] → l.erase x = waiting fence l) := by
  have hplain : ∀ y ∈ eligible fence l, fence y = false := by
    rcases eligible_cases fence l with ⟨y, ys, rfl, hy⟩ | hplain
    · rw [eligible_cons_fence hy, List.mem_singleton] at hx
      rw [hx, hy] at hfence
      cases hfence
    · exact hplain
  have herase : l.erase x = (eligible fence l).erase x ++ waiting fence l := by
    rw [← List.erase_append_left _ hx, eligible_append_waiting]
  refine ⟨herase, fun hne => ?_, fun hnil => ?_⟩
  · rw [herase]
    exact eligible_append fence (fun y hy => hplain y (List.mem_of_mem_erase hy))
      (head_waiting hplain) (.inl hne)
  · rw [herase, hnil, List.nil_append]

/-- In a queue, a job that may run has no fence before it, and is none unless it is the first. -/
theorem pairwise_eligible (fence : α → Bool) (hnodup : l.Nodup) :
    l.Pairwise fun x y => (fence x = true ∨ fence y = true) → y ∉ eligible fence l := by
  have hcut := eligible_append_waiting fence l
  have hdisj : ∀ y ∈ waiting fence l, y ∉ eligible fence l := by
    intro y hy he
    rw [← hcut] at hnodup
    exact List.disjoint_of_nodup_append hnodup he hy
  suffices hpair : (eligible fence l ++ waiting fence l).Pairwise fun x y =>
      (fence x = true ∨ fence y = true) → y ∉ eligible fence l by
    rwa [hcut] at hpair
  refine List.pairwise_append.mpr ⟨?_, ?_, fun x _ y hy _ => hdisj y hy⟩
  · rcases eligible_cases fence l with ⟨z, zs, rfl, hz⟩ | hplain
    · rw [eligible_cons_fence hz]
      exact List.pairwise_singleton _ _
    · refine List.pairwise_of_forall_mem_list fun x hx y hy hor => ?_
      rw [hplain x hx, hplain y hy] at hor
      rcases hor with h | h <;> cases h
  · exact List.pairwise_of_forall_mem_list fun x _ y hy _ => hdisj y hy

/-! ## The machine -/

/-- What has been issued, and what has finished. -/
structure Barrier (α : Type*) where
  issued : List α
  finished : List α

namespace Barrier

variable [DecidableEq α] {b b' : Barrier α}

/-- The jobs that have not finished, in the order they were issued in. -/
def pending (b : Barrier α) : List α := b.issued.filter (· ∉ b.finished)

end Barrier

inductive BarrierMove (α : Type*) where
  | issue (jobs : List α)
  | finish (job : α)

variable [DecidableEq α]

/-- New jobs come last; a job finishes if it may run. -/
def barrierStep (fence : α → Bool) (b : Barrier α) : BarrierMove α → Option (Barrier α)
  | .issue jobs =>
      if (b.issued ++ jobs).Nodup then some { b with issued := b.issued ++ jobs } else none
  | .finish job =>
      if job ∈ eligible fence b.pending then some { b with finished := b.finished ++ [job] }
      else none

namespace Barrier

variable {b b' : Barrier α}

/-- The order that fences keep: of two jobs of which one is a fence, the later has not
finished before the earlier. -/
structure Ordered (fence : α → Bool) (b : Barrier α) : Prop where
  nodup : b.issued.Nodup
  once : b.finished.Nodup
  within : ∀ x ∈ b.finished, x ∈ b.issued
  pairwise : b.issued.Pairwise fun x y =>
    (fence x = true ∨ fence y = true) → y ∈ b.finished → x ∈ b.finished

theorem Ordered.nodup_pending (h : b.Ordered fence) : b.pending.Nodup := h.nodup.filter _

/-- Every job that was issued is pending or has finished, once. -/
theorem Ordered.issued_perm (h : b.Ordered fence) : b.issued.Perm (b.finished ++ b.pending) := by
  refine (List.perm_ext_iff_of_nodup h.nodup ?_).mpr fun x => ?_
  · refine List.nodup_append'.mpr ⟨h.once, h.nodup_pending, fun x hx hpending => ?_⟩
    exact of_decide_eq_true (List.mem_filter.mp hpending).2 hx
  · rw [List.mem_append, pending, List.mem_filter, decide_eq_true_eq]
    constructor
    · intro hx
      by_cases hfinished : x ∈ b.finished
      · exact .inl hfinished
      · exact .inr ⟨hx, hfinished⟩
    · rintro (hfinished | ⟨hx, -⟩)
      · exact h.within x hfinished
      · exact hx

/-- Nor has it started. -/
theorem Ordered.started (h : b.Ordered fence) :
    b.issued.Pairwise fun x y => (fence x = true ∨ fence y = true) →
      y ∈ eligible fence b.pending ∨ y ∈ b.finished → x ∈ b.finished := by
  have hrun := pairwise_eligible fence h.nodup_pending
  rw [pending, List.pairwise_filter] at hrun
  refine (h.pairwise.and hrun).imp fun {x y} hxy hor hstarted => ?_
  rcases hstarted with hrunning | hfinished
  · by_contra hx
    refine hxy.2 (by simpa using hx) ?_ hor hrunning
    have hpending : y ∈ b.pending := by
      rw [← eligible_append_waiting fence b.pending]
      exact List.mem_append_left _ hrunning
    exact (List.mem_filter.mp hpending).2
  · exact hxy.1 hor hfinished

theorem pending_issue (hwithin : ∀ x ∈ b.finished, x ∈ b.issued)
    (hnodup : (b.issued ++ xs).Nodup) :
    ({ b with issued := b.issued ++ xs } : Barrier α).pending = b.pending ++ xs := by
  rw [pending, pending, List.filter_append]
  congr 1
  rw [List.filter_eq_self]
  intro x hx
  rw [decide_eq_true_eq]
  intro hfinished
  exact List.disjoint_of_nodup_append hnodup (hwithin x hfinished) hx

theorem pending_finish [BEq α] [LawfulBEq α] (hnodup : b.issued.Nodup) :
    ({ b with finished := b.finished ++ [x] } : Barrier α).pending = b.pending.erase x := by
  have herase : b.pending.erase x = b.pending.filter (· != x) :=
    (hnodup.filter _ : b.pending.Nodup).erase_eq_filter x
  rw [herase, pending, pending, List.filter_filter]
  refine List.filter_congr fun y _ => ?_
  rw [← Bool.decide_coe (y != x), ← Bool.decide_and, decide_eq_decide]
  simp [not_or, and_comm]

theorem Ordered.step (h : b.Ordered fence) {m : BarrierMove α}
    (hstep : barrierStep fence b m = some b') : b'.Ordered fence := by
  cases m with
  | issue jobs =>
    rw [barrierStep] at hstep
    split at hstep
    · rename_i hnodup
      cases hstep
      refine ⟨hnodup, h.once, fun x hx => List.mem_append_left _ (h.within x hx), ?_⟩
      have hnew : ∀ y ∈ jobs, y ∉ b.finished := fun y hy hfinished =>
        List.disjoint_of_nodup_append hnodup (h.within y hfinished) hy
      exact List.pairwise_append.mpr ⟨h.pairwise,
        List.pairwise_of_forall_mem_list fun x _ y hy _ hfinished =>
          absurd hfinished (hnew y hy),
        fun x _ y hy _ hfinished => absurd hfinished (hnew y hy)⟩
    · cases hstep
  | finish job =>
    rw [barrierStep] at hstep
    split at hstep
    · rename_i hjob
      cases hstep
      have hpending : job ∈ b.pending := by
        rw [← eligible_append_waiting fence b.pending]
        exact List.mem_append_left _ hjob
      refine ⟨h.nodup, ?_, fun x hx => ?_, ?_⟩
      · rw [← List.concat_eq_append]
        exact h.once.concat (of_decide_eq_true (List.mem_filter.mp hpending).2)
      · rcases List.mem_append.mp hx with hold | hnew
        · exact h.within x hold
        · rw [List.mem_singleton.mp hnew]
          exact List.mem_of_mem_filter hpending
      · refine h.started.imp fun {x y} hxy hor hfinished => List.mem_append_left _ (hxy hor ?_)
        rcases List.mem_append.mp hfinished with hold | hnew
        · exact .inr hold
        · rw [List.mem_singleton.mp hnew]
          exact .inl hjob
    · cases hstep

end Barrier

/-! ## The history of a run -/

def BarrierMove.issued : BarrierMove α → List α
  | .issue jobs => jobs
  | .finish _ => []

def BarrierMove.finished : BarrierMove α → List α
  | .issue _ => []
  | .finish job => [job]

namespace Barrier

variable {b : Barrier α}

/-- What a barrier holds is what the moves of its run have issued and finished. -/
theorem history_of_run {ms : List (BarrierMove α)}
    (hrun : run (barrierStep fence) ⟨[], []⟩ ms = some b) :
    b = ⟨ms.flatMap BarrierMove.issued, ms.flatMap BarrierMove.finished⟩ := by
  refine run_induction (motive := fun ms b =>
    b = ⟨ms.flatMap BarrierMove.issued, ms.flatMap BarrierMove.finished⟩) rfl ?_ hrun
  intro ms b m b' _ ih hstep
  rw [ih] at hstep
  rw [List.flatMap_append, List.flatMap_append, List.flatMap_singleton, List.flatMap_singleton]
  cases m with
  | issue jobs =>
    rw [barrierStep] at hstep
    split at hstep
    · cases hstep
      rw [BarrierMove.issued, BarrierMove.finished, List.append_nil]
    · cases hstep
  | finish job =>
    rw [barrierStep] at hstep
    split at hstep
    · cases hstep
      rw [BarrierMove.issued, BarrierMove.finished, List.append_nil]
    · cases hstep

end Barrier

end TorrentApp.Foundation
