import Mathlib.Data.List.Basic
import TorrentApp.Foundation.Machine

set_option autoImplicit false

/-!
# The root list and its pages

`RootList` keeps the rows shown and the number of the next page in two
properties that two asynchronous completions update: the header's, which puts
the rows of page 1 in the place of everything, and the footer's, which appends
the rows of the page it asked for.  The server is a fixed function from page
numbers to rows; what a load answers is in its completion's label.
-/

namespace TorrentApp.RootList

open TorrentApp.Foundation

variable {α : Type*}

/-! ## The model -/

/-- The properties of a `RootList` and the loads in flight. -/
structure State (α : Type*) where
  /-- the ivar `_rows`, nil until it is set -/
  rows? : Option (List α)
  nextPage : Nat
  /-- a `loadPage:1` of the header is in flight -/
  header : Bool
  /-- the page a `loadPage:` of the footer in flight asked for -/
  footer : Option Nat
  /-- page 1 has been loaded successfully at least once -/
  loaded : Bool

/-- The getter `-[RootList rows]`: nil reads as the empty array. -/
def State.rows (s : State α) : List α := s.rows?.getD []

/-- `-[RootList viewDidLoad]`, up to the first refresh that `beginRefreshing` starts. -/
def viewDidLoad : State α where
  rows? := none
  nextPage := 2
  header := false
  footer := none
  loaded := false

inductive Label where
  /-- the header's refreshing block: `loadPage:1` -/
  | headerRefreshing
  /-- the footer's refreshing block: `loadPage:self.nextPage` -/
  | footerRefreshing (index : Nat)
  /-- the header's completion, with rows or with nil -/
  | headerComplete (success : Bool)
  /-- the footer's completion, with rows or with nil -/
  | footerComplete (success : Bool)
  deriving DecidableEq, Repr

/-- What `loadPage:complete:` passes to its completion. -/
def loadPage (page : Nat → List α) (index : Nat) (success : Bool) : Option (List α) :=
  if success then some (page index) else none

/-- The header's completion: `self.rows = rows`, also when `rows` is nil. -/
def State.headerComplete (s : State α) (rows : Option (List α)) : State α :=
  { s with rows? := rows, header := false, loaded := s.loaded || rows.isSome }

/-- The footer's completion: nothing but the end of the refresh when `rows` is nil. -/
def State.footerComplete (s : State α) : Option (List α) → State α
  | some rows =>
      { s with rows? := some (s.rows ++ rows), nextPage := s.nextPage + 1, footer := none }
  | none => { s with footer := none }

/-- One step; a control that is refreshing does not start a second load. -/
def step (page : Nat → List α) (s : State α) : Label → Option (State α)
  | .headerRefreshing => if s.header then none else some { s with header := true }
  | .footerRefreshing index =>
      if s.footer = none ∧ index = s.nextPage then some { s with footer := some index } else none
  | .headerComplete success =>
      if s.header then some (s.headerComplete (loadPage page 1 success)) else none
  | .footerComplete success =>
      s.footer.map fun index => s.footerComplete (loadPage page index success)

/-! ## The law of paging -/

/-- `page 1 ++ page 2 ++ ... ++ page (n - 1)`. -/
def pagesBefore (page : Nat → List α) (n : Nat) : List α :=
  (List.range' 1 (n - 1)).flatMap page

theorem pagesBefore_succ (page : Nat → List α) {n : Nat} (hn : 1 ≤ n) :
    pagesBefore page (n + 1) = pagesBefore page n ++ page n := by
  obtain ⟨k, rfl⟩ := Nat.exists_eq_add_of_le hn
  have hrange : List.range' 1 (k + 1) = List.range' 1 k ++ [1 + k] := List.range'_1_concat
  simp [pagesBefore, Nat.add_comm 1 k, hrange]

/-- No load is in flight. -/
def State.Idle (s : State α) : Prop := s.header = false ∧ s.footer = none

/-- The rows are the pages before the next one, in order. -/
def State.Aligned (page : Nat → List α) (s : State α) : Prop :=
  s.rows = pagesBefore page s.nextPage

/-- The header's completions that keep rows and page number together: a success
while the pages after the first one have no rows (none was appended yet), a
failure while there is nothing to lose. -/
def KeepsPages (page : Nat → List α) (s : State α) : Label → Prop
  | .headerComplete true => pagesBefore page s.nextPage = page 1
  | .headerComplete false => s.loaded = true → pagesBefore page s.nextPage = []
  | _ => True

/-! ## The law holds exactly under `KeepsPages` -/

/-- The footer in flight asked for the next page, and that is past page 1. -/
theorem footer_of_run {page : Nat → List α} {tr : List Label} {s : State α}
    (hrun : run (step page) viewDidLoad tr = some s) :
    2 ≤ s.nextPage ∧ ∀ index, s.footer = some index → index = s.nextPage := by
  refine run_induction (motive := fun _ s =>
    2 ≤ s.nextPage ∧ ∀ index, s.footer = some index → index = s.nextPage)
    ⟨Nat.le_refl 2, fun _ h => by cases h⟩ ?_ hrun
  rintro tr s l s' - ⟨htwo, hfooter⟩ hstep
  cases l with
  | headerRefreshing =>
      simp only [step, Option.ite_none_left_eq_some, Option.some.injEq] at hstep
      obtain ⟨-, rfl⟩ := hstep
      exact ⟨htwo, hfooter⟩
  | footerRefreshing index =>
      simp only [step, Option.ite_none_right_eq_some, Option.some.injEq] at hstep
      obtain ⟨⟨-, rfl⟩, rfl⟩ := hstep
      exact ⟨htwo, fun i hi => (Option.some.inj hi).symm⟩
  | headerComplete success =>
      simp only [step, Option.ite_none_right_eq_some, Option.some.injEq] at hstep
      obtain ⟨-, rfl⟩ := hstep
      exact ⟨htwo, hfooter⟩
  | footerComplete success =>
      simp only [step, Option.map_eq_some_iff] at hstep
      obtain ⟨index, -, rfl⟩ := hstep
      cases success with
      | false => exact ⟨htwo, fun _ h => by cases h⟩
      | true => exact ⟨Nat.le_succ_of_le htwo, fun _ h => by cases h⟩

/-- A successful footer load appends the next page and nothing else. -/
theorem aligned_footerComplete {page : Nat → List α} {s : State α} (htwo : 2 ≤ s.nextPage)
    (h : s.Aligned page) : (s.footerComplete (some (page s.nextPage))).Aligned page := by
  have hsucc := pagesBefore_succ page (n := s.nextPage) (by omega)
  calc (s.footerComplete (some (page s.nextPage))).rows
      = s.rows ++ page s.nextPage := rfl
    _ = pagesBefore page s.nextPage ++ page s.nextPage := by rw [h]
    _ = pagesBefore page (s.nextPage + 1) := hsucc.symm

/-- Once page 1 is loaded, the rows are aligned after a step exactly when the
step keeps the pages. -/
theorem aligned_step_iff {page : Nat → List α} {tr : List Label} {s s' : State α} {l : Label}
    (hrun : run (step page) viewDidLoad tr = some s)
    (h : s.loaded = true → s.Aligned page) (hstep : step page s l = some s') :
    (s'.loaded = true → s'.Aligned page) ↔ KeepsPages page s l := by
  obtain ⟨htwo, hfooter⟩ := footer_of_run hrun
  cases l with
  | headerRefreshing =>
      simp only [step, Option.ite_none_left_eq_some, Option.some.injEq] at hstep
      obtain ⟨-, rfl⟩ := hstep
      exact iff_of_true h trivial
  | footerRefreshing index =>
      simp only [step, Option.ite_none_right_eq_some, Option.some.injEq] at hstep
      obtain ⟨-, rfl⟩ := hstep
      exact iff_of_true h trivial
  | footerComplete success =>
      simp only [step, Option.map_eq_some_iff] at hstep
      obtain ⟨index, hindex, rfl⟩ := hstep
      obtain rfl := hfooter index hindex
      refine iff_of_true (fun hloaded => ?_) trivial
      cases success with
      | false => exact h hloaded
      | true => exact aligned_footerComplete htwo (h hloaded)
  | headerComplete success =>
      simp only [step, Option.ite_none_right_eq_some, Option.some.injEq] at hstep
      obtain ⟨-, rfl⟩ := hstep
      cases success with
      | true =>
          have hloaded : (s.headerComplete (loadPage page 1 true)).loaded = true := by
            simp [State.headerComplete, loadPage]
          have haligned : (s.headerComplete (loadPage page 1 true)).Aligned page ↔
              page 1 = pagesBefore page s.nextPage := Iff.rfl
          rw [haligned, KeepsPages]
          exact ⟨fun h => (h hloaded).symm, fun hkeeps _ => hkeeps.symm⟩
      | false =>
          have hloaded : (s.headerComplete (loadPage page 1 false)).loaded = s.loaded := by
            simp [State.headerComplete, loadPage]
          have haligned : (s.headerComplete (loadPage page 1 false)).Aligned page ↔
              [] = pagesBefore page s.nextPage := Iff.rfl
          rw [haligned, hloaded, KeepsPages]
          exact ⟨fun h hs => (h hs).symm, fun hkeeps hs => (hkeeps hs).symm⟩

/-- A run keeps the rows aligned with the page number, in all states from the
first success of page 1 on, exactly when all its steps keep the pages; then they
are aligned in every such state in which no load is in flight. -/
theorem rows_aligned_iff (page : Nat → List α) {tr : List Label} {s : State α}
    (hrun : run (step page) viewDidLoad tr = some s) :
    (Throughout (step page) (fun s => s.loaded = true → s.Aligned page) viewDidLoad tr ↔
      AllSteps (step page) (KeepsPages page) viewDidLoad tr) ∧
    (AllSteps (step page) (KeepsPages page) viewDidLoad tr →
      Throughout (step page) (fun s => s.loaded = true → s.Idle → s.Aligned page)
        viewDidLoad tr) := by
  have hiff : Throughout (step page) (fun s => s.loaded = true → s.Aligned page) viewDidLoad tr ↔
      AllSteps (step page) (KeepsPages page) viewDidLoad tr := by
    refine throughout_iff_allSteps (fun h => by cases h) ?_ hrun
    intro tr s l s' hprefix h hstep
    exact aligned_step_iff hprefix h hstep
  refine ⟨hiff, fun hall xs m hxs hm hloaded _ => ?_⟩
  exact hiff.mpr hall xs m hxs hm hloaded

/-- A server whose page `n` is the one row `n`. -/
def numbered (n : Nat) : List Nat := [n]

/-- A first refresh that fails, a second one that succeeds, and two footer loads,
the first of them in flight when page 1 arrives. -/
def scrolling : List Label :=
  [.headerRefreshing, .headerComplete false, .headerRefreshing, .footerRefreshing 2,
    .headerComplete true, .footerComplete true, .footerRefreshing 3, .footerComplete false,
    .footerRefreshing 3, .footerComplete true]

theorem scrolling_aligned : ∃ s, run (step numbered) viewDidLoad scrolling = some s ∧
    s.rows = [1, 2, 3] ∧ Throughout (step numbered)
      (fun s => s.loaded = true → s.Idle → s.Aligned numbered) viewDidLoad scrolling := by
  have hall : AllSteps (step numbered) (KeepsPages numbered) viewDidLoad scrolling :=
    ⟨trivial, Bool.noConfusion, trivial, trivial, rfl, trivial, trivial, trivial, trivial, trivial,
      trivial⟩
  exact ⟨_, rfl, rfl, (rows_aligned_iff numbered rfl).2 hall⟩

/-- Pulling to refresh after one page has been appended. -/
def pullToRefresh : List Label :=
  [.headerRefreshing, .headerComplete true, .footerRefreshing 2, .footerComplete true,
    .headerRefreshing, .headerComplete true]

/-- After that run page 2 is lost: the rows are page 1 and the next page is 3. -/
theorem pullToRefresh_loses_page : ∃ s,
    run (step numbered) viewDidLoad pullToRefresh = some s ∧ s.loaded = true ∧ s.Idle ∧
      s.rows = [1] ∧ s.nextPage = 3 ∧ ¬ s.Aligned numbered := by
  refine ⟨_, rfl, rfl, ⟨rfl, rfl⟩, rfl, rfl, fun h => ?_⟩
  have hlost : [1] = [1, 2] := h
  cases hlost

end TorrentApp.RootList
