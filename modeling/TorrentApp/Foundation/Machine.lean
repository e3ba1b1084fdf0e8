import Mathlib.Data.List.Induction
import Mathlib.Data.Option.Basic

set_option autoImplicit false

/-!
# Labelled machines

A machine is a partial step function `step : σ → ℓ → Option σ`: from a state and
a label it either moves to the next state or is not enabled.  All the
nondeterminism of a system (which thread moves, what the environment answers)
is in the labels, so one list of labels is one run, and a statement about every
run quantifies over every list.

The file fixes the rules every later module uses: induction over a run
together with its history, the same induction when every step meets a
condition, the equivalence of a property of all states passed through with a
condition on all steps taken, and forward simulation between two machines.
-/

namespace TorrentApp.Foundation

variable {σ τ ℓ κ : Type*}

/-! ## Runs -/

/-- The state after executing the labels of `tr` in order, if all were enabled. -/
def run (step : σ → ℓ → Option σ) : σ → List ℓ → Option σ
  | s, [] => some s
  | s, l :: ls =>
      match step s l with
      | some s' => run step s' ls
      | none => none

@[simp] theorem run_nil (step : σ → ℓ → Option σ) (s : σ) : run step s [] = some s := rfl

theorem run_cons {step : σ → ℓ → Option σ} {s t : σ} {l : ℓ} {ls : List ℓ} :
    run step s (l :: ls) = some t ↔ ∃ m, step s l = some m ∧ run step m ls = some t := by
  cases h : step s l <;> simp [run, h]

theorem run_append {step : σ → ℓ → Option σ} {s t : σ} {xs ys : List ℓ} :
    run step s (xs ++ ys) = some t ↔
      ∃ m, run step s xs = some m ∧ run step m ys = some t := by
  induction xs generalizing s with
  | nil => simp
  | cons x xs ih =>
      rw [List.cons_append, run_cons]
      constructor
      · rintro ⟨m, hstep, hrest⟩
        obtain ⟨mid, hxs, hys⟩ := ih.mp hrest
        exact ⟨mid, run_cons.mpr ⟨m, hstep, hxs⟩, hys⟩
      · rintro ⟨mid, hxs, hys⟩
        obtain ⟨m, hstep, hrest⟩ := run_cons.mp hxs
        exact ⟨m, hstep, ih.mpr ⟨mid, hrest, hys⟩⟩

theorem run_cons_of_step {step : σ → ℓ → Option σ} {s m : σ} {l : ℓ} {ls : List ℓ}
    (hstep : step s l = some m) : run step s (l :: ls) = run step m ls := by
  simp [run, hstep]

theorem run_append_of_run {step : σ → ℓ → Option σ} {s m : σ} {xs ys : List ℓ}
    (hrun : run step s xs = some m) : run step s (xs ++ ys) = run step m ys := by
  ext t
  rw [run_append]
  constructor
  · rintro ⟨m', hm', hys⟩
    obtain rfl : m = m' := Option.some.inj (hrun.symm.trans hm')
    exact hys
  · exact fun hys => ⟨m, hrun, hys⟩

theorem run_concat {step : σ → ℓ → Option σ} {s t : σ} {xs : List ℓ} {l : ℓ} :
    run step s (xs ++ [l]) = some t ↔
      ∃ m, run step s xs = some m ∧ step m l = some t := by
  rw [run_append]
  simp only [run_cons, run_nil, Option.some.injEq, exists_eq_right]

/-- Every prefix of a run is a run. -/
theorem run_prefix {step : σ → ℓ → Option σ} {s t : σ} {xs ys : List ℓ}
    (h : run step s (xs ++ ys) = some t) : ∃ m, run step s xs = some m := by
  obtain ⟨m, hm, _⟩ := run_append.mp h
  exact ⟨m, hm⟩

/-- A run that contains a label passes through the step that label took. -/
theorem run_split {step : σ → ℓ → Option σ} {s t : σ} {xs ys : List ℓ} {l : ℓ}
    (h : run step s (xs ++ l :: ys) = some t) :
    ∃ m m', run step s xs = some m ∧ step m l = some m' ∧ run step m' ys = some t := by
  obtain ⟨m, hm, hrest⟩ := run_append.mp h
  obtain ⟨m', hstep, hys⟩ := run_cons.mp hrest
  exact ⟨m, m', hm, hstep, hys⟩

/-! ## Invariants with history

The motive sees the labels executed so far, so facts such as "this block was
queued earlier in the run" need no ghost field in the state. -/

/-- Induction over a run, one executed label at a time. -/
theorem run_induction {step : σ → ℓ → Option σ} {s₀ : σ}
    {motive : List ℓ → σ → Prop} (nil : motive [] s₀)
    (concat : ∀ tr s l s', run step s₀ tr = some s → motive tr s →
      step s l = some s' → motive (tr ++ [l]) s') :
    ∀ {tr s}, run step s₀ tr = some s → motive tr s := by
  intro tr
  induction tr using List.reverseRecOn with
  | nil =>
      intro s h
      rw [run_nil, Option.some.injEq] at h
      subst h
      exact nil
  | append_singleton tr l ih =>
      intro s h
      obtain ⟨m, hm, hstep⟩ := run_concat.mp h
      exact concat tr m l s hm (ih hm) hstep

/-- Every step of the run from `s` meets `good`, judged in the state it starts
from. -/
def AllSteps (step : σ → ℓ → Option σ) (good : σ → ℓ → Prop) : σ → List ℓ → Prop
  | _, [] => True
  | s, l :: ls =>
      good s l ∧
        match step s l with
        | some s' => AllSteps step good s' ls
        | none => True

theorem allSteps_cons {step : σ → ℓ → Option σ} {good : σ → ℓ → Prop} {s s' : σ} {l : ℓ}
    {ls : List ℓ} (hstep : step s l = some s') :
    AllSteps step good s (l :: ls) ↔ good s l ∧ AllSteps step good s' ls := by
  simp only [AllSteps, hstep]

theorem allSteps_append {step : σ → ℓ → Option σ} {good : σ → ℓ → Prop} {s m : σ}
    {xs ys : List ℓ} (hrun : run step s xs = some m) :
    AllSteps step good s (xs ++ ys) ↔
      AllSteps step good s xs ∧ AllSteps step good m ys := by
  induction xs generalizing s with
  | nil =>
      rw [run_nil, Option.some.injEq] at hrun
      subst hrun
      simp [AllSteps]
  | cons x xs ih =>
      obtain ⟨s', hstep, hrest⟩ := run_cons.mp hrun
      simp only [List.cons_append, AllSteps, hstep, ih hrest, and_assoc]

theorem allSteps_concat {step : σ → ℓ → Option σ} {good : σ → ℓ → Prop} {s m : σ}
    {xs : List ℓ} {l : ℓ} (hrun : run step s xs = some m) :
    AllSteps step good s (xs ++ [l]) ↔ AllSteps step good s xs ∧ good m l := by
  rw [allSteps_append hrun]
  cases hstep : step m l <;> simp [AllSteps, hstep]

/-- Induction over a run all of whose steps meet `good`. -/
theorem run_induction_of_allSteps {step : σ → ℓ → Option σ} {good : σ → ℓ → Prop} {s₀ : σ}
    {motive : List ℓ → σ → Prop} (nil : motive [] s₀)
    (concat : ∀ tr s l s', run step s₀ tr = some s → motive tr s → good s l →
      step s l = some s' → motive (tr ++ [l]) s') :
    ∀ {tr s}, run step s₀ tr = some s → AllSteps step good s₀ tr → motive tr s := by
  intro tr s hrun
  refine run_induction (motive := fun tr s => AllSteps step good s₀ tr → motive tr s)
    (fun _ => nil) ?_ hrun
  intro tr s l s' hprefix ih hstep hall
  obtain ⟨hpre, hgood⟩ := (allSteps_concat hprefix).mp hall
  exact concat tr s l s' hprefix (ih hpre) hgood hstep

/-- A condition that follows in every state the run reaches may replace another. -/
theorem AllSteps.imp {step : σ → ℓ → Option σ} {good good' : σ → ℓ → Prop} {s₀ t : σ}
    {tr : List ℓ} (hrun : run step s₀ tr = some t) (hall : AllSteps step good s₀ tr)
    (himp : ∀ xs s l, run step s₀ xs = some s → good s l → good' s l) :
    AllSteps step good' s₀ tr := by
  refine run_induction_of_allSteps (motive := fun xs _ => AllSteps step good' s₀ xs) trivial ?_
    hrun hall
  intro xs s l s' hprefix ih hgood _
  exact (allSteps_concat hprefix).mpr ⟨ih, himp xs s l hprefix hgood⟩

/-- A condition that all labels of a run meet in every state. -/
theorem allSteps_of_forall_mem {step : σ → ℓ → Option σ} {good : σ → ℓ → Prop} {s : σ}
    {tr : List ℓ} (hgood : ∀ l ∈ tr, ∀ s, good s l) : AllSteps step good s tr := by
  induction tr generalizing s with
  | nil => trivial
  | cons l ls ih =>
      obtain ⟨hl, hls⟩ := List.forall_mem_cons.mp hgood
      refine ⟨hl s, ?_⟩
      cases step s l with
      | none => trivial
      | some s' => exact ih hls

/-- When on enabled steps `good` is a property of the label alone, a run meets it
exactly when all its labels do. -/
theorem allSteps_iff_forall_mem {step : σ → ℓ → Option σ} {good : σ → ℓ → Prop} {p : ℓ → Prop}
    (hgood : ∀ s l s', step s l = some s' → (good s l ↔ p l)) {s t : σ} {tr : List ℓ}
    (hrun : run step s tr = some t) : AllSteps step good s tr ↔ ∀ l ∈ tr, p l := by
  induction tr generalizing s with
  | nil => simp [AllSteps]
  | cons l ls ih =>
      obtain ⟨m, hstep, hrest⟩ := run_cons.mp hrun
      simp only [AllSteps, hstep, hgood s l m hstep, ih hrest, List.forall_mem_cons]

/-! ## Properties of every state a run passes through -/

/-- `P` holds in every state the run from `s` passes through, both ends included. -/
def Throughout (step : σ → ℓ → Option σ) (P : σ → Prop) (s : σ) (tr : List ℓ) : Prop :=
  ∀ xs m, xs <+: tr → run step s xs = some m → P m

theorem throughout_concat {step : σ → ℓ → Option σ} {P : σ → Prop} {s₀ s s' : σ}
    {tr : List ℓ} {l : ℓ} (hrun : run step s₀ tr = some s) (hstep : step s l = some s') :
    Throughout step P s₀ (tr ++ [l]) ↔ Throughout step P s₀ tr ∧ P s' := by
  constructor
  · intro h
    exact ⟨fun xs m hxs => h xs m (hxs.trans (List.prefix_append tr [l])),
      h _ s' List.prefix_rfl (run_concat.mpr ⟨s, hrun, hstep⟩)⟩
  · rintro ⟨hbefore, hlast⟩ xs m hxs hm
    rcases List.prefix_concat_iff.mp hxs with rfl | hshort
    · obtain ⟨mid, hmid, hmstep⟩ := run_concat.mp hm
      obtain rfl : s = mid := Option.some.inj (hrun.symm.trans hmid)
      obtain rfl : s' = m := Option.some.inj (hstep.symm.trans hmstep)
      exact hlast
    · exact hbefore xs m hshort hm

/-- When each step out of a state with `P` ends in a state with `P` exactly if the
step meets `good`, a run passes through such states only exactly if all its steps
meet `good`. -/
theorem throughout_iff_allSteps {step : σ → ℓ → Option σ} {P : σ → Prop} {good : σ → ℓ → Prop}
    {s₀ : σ} (hinit : P s₀)
    (hstep : ∀ tr s l s', run step s₀ tr = some s → P s → step s l = some s' → (P s' ↔ good s l))
    {tr : List ℓ} {s : σ} (hrun : run step s₀ tr = some s) :
    Throughout step P s₀ tr ↔ AllSteps step good s₀ tr := by
  refine run_induction
    (motive := fun tr _ => Throughout step P s₀ tr ↔ AllSteps step good s₀ tr) ?_ ?_ hrun
  · refine iff_of_true ?_ trivial
    intro xs m hxs hm
    obtain rfl := List.prefix_nil.mp hxs
    exact Option.some.inj hm ▸ hinit
  · intro tr s l s' hprefix ih hl
    rw [throughout_concat hprefix hl, allSteps_concat hprefix, ih]
    refine and_congr_right fun hall => ?_
    exact hstep tr s l s' hprefix (ih.mpr hall tr s List.prefix_rfl hprefix) hl

/-! ## Forward simulation -/

/-- The concrete state `s'` is matched from the abstract state `a`: by a move
with the given label, or by staying put when there is none. -/
def Matched (abstract : τ → κ → Option τ) (rel : σ → τ → Prop) (a : τ) (s' : σ) :
    Option κ → Prop
  | none => rel s' a
  | some k => ∃ a', abstract a k = some a' ∧ rel s' a'

/-- `concrete` is simulated by `abstract` through `rel`: every concrete step is
matched by the abstract step its label projects to. -/
def Simulation (concrete : σ → ℓ → Option σ) (abstract : τ → κ → Option τ)
    (proj : ℓ → Option κ) (rel : σ → τ → Prop) : Prop :=
  ∀ s s' a l, rel s a → concrete s l = some s' → Matched abstract rel a s' (proj l)

/-- A simulation carries whole runs: the projected labels are an abstract run. -/
theorem Simulation.run {concrete : σ → ℓ → Option σ} {abstract : τ → κ → Option τ}
    {proj : ℓ → Option κ} {rel : σ → τ → Prop} (sim : Simulation concrete abstract proj rel)
    {s₀ : σ} {a₀ : τ} (hinit : rel s₀ a₀) :
    ∀ {tr s}, Foundation.run concrete s₀ tr = some s →
      ∃ a, Foundation.run abstract a₀ (tr.filterMap proj) = some a ∧ rel s a := by
  refine run_induction (motive := fun tr s =>
    ∃ a, Foundation.run abstract a₀ (tr.filterMap proj) = some a ∧ rel s a)
    ⟨a₀, rfl, hinit⟩ ?_
  rintro tr s l s' - ⟨a, harun, hrel⟩ hstep
  rw [List.filterMap_append]
  have hmatched := sim s s' a l hrel hstep
  cases hproj : proj l with
  | none =>
      rw [hproj] at hmatched
      exact ⟨a, by simpa [hproj] using harun, hmatched⟩
  | some k =>
      rw [hproj] at hmatched
      obtain ⟨a', hastep, hrel'⟩ := hmatched
      refine ⟨a', ?_, hrel'⟩
      simpa [hproj] using run_concat.mpr ⟨a, harun, hastep⟩

end TorrentApp.Foundation
