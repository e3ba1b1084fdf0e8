import Mathlib.Data.List.Forall2
import TorrentApp.Downloader.Selection

set_option autoImplicit false

/-!
# The downloader in its swarm

The steps of `Downloader.Step` leave libtorrent's answers open.  Here each worker
has a torrent handle with its own set of verified pieces, which only grows, and
`h.is_seed()` and `h.status()` answer by that set at the moment they are asked.
Pieces arrive at any time, also between two questions of the same turn and during
the sleep.  `h.file_progress()` may answer anything: it counts the pieces that are
written, which are not yet all of the verified ones.
-/

namespace TorrentApp.Downloader

open TorrentApp.Foundation

/-! ## What a torrent handle knows -/

section

variable (T : TorrentInfo) (present : Nat → Bool)

/-- All pieces are verified. -/
def AllPresent : Prop := ∀ p < T.piecesCount, present p = true

/-- All bytes of a file lie in verified pieces. -/
def FilePresent (file : BTFile) : Prop :=
  ∀ k < file.size, present ((file.offset + k) / T.pieceSize) = true

/-- How many bytes of a file lie in verified pieces. -/
def verifiedBytes (file : BTFile) : Nat :=
  (List.range file.size).countP fun k => present ((file.offset + k) / T.pieceSize)

/-- All bytes of the files with a non-zero priority are verified. -/
def WantedPresent (prio : Nat → Nat) : Prop :=
  ∀ i < T.count, ∀ file ∈ T.files[i]?, prio i ≠ 0 → FilePresent T present file

/-- A `file_progress` that counts the verified bytes: one entry a file, between
these and its size, since blocks that are written and not verified may be counted. -/
def CountsBytes (progress : List Nat) : Prop :=
  List.Forall₂ (fun file bytes => verifiedBytes T present file ≤ bytes ∧ bytes ≤ file.size)
    T.files progress

instance : Decidable (AllPresent T present) :=
  inferInstanceAs (Decidable (∀ p < T.piecesCount, present p = true))

instance (file : BTFile) : Decidable (FilePresent T present file) :=
  inferInstanceAs (Decidable (∀ k < file.size, present ((file.offset + k) / T.pieceSize) = true))

instance (prio : Nat → Nat) : Decidable (WantedPresent T present prio) :=
  inferInstanceAs (Decidable (∀ i < T.count, ∀ file ∈ T.files[i]?,
    prio i ≠ 0 → FilePresent T present file))

instance (progress : List Nat) : Decidable (CountsBytes T present progress) :=
  inferInstanceAs (Decidable (List.Forall₂ _ T.files progress))

end

/-- All bytes of a file are verified exactly when they all count. -/
theorem verifiedBytes_of_filePresent {T : TorrentInfo} {present : Nat → Bool} {file : BTFile}
    (h : FilePresent T present file) : verifiedBytes T present file = file.size := by
  have hall : (List.range file.size).countP
      (fun k => present ((file.offset + k) / T.pieceSize)) = (List.range file.size).length := by
    rw [List.countP_eq_length]
    intro k hk
    exact h k (List.mem_range.mp hk)
  rw [verifiedBytes, hall, List.length_range]

/-- Such a `file_progress` reports the size of a file whose bytes are all verified. -/
theorem CountsBytes.full {T : TorrentInfo} {present : Nat → Bool} {progress : List Nat}
    (h : CountsBytes T present progress) {i : Nat} {file : BTFile}
    (hfile : T.files[i]? = some file) (hpresent : FilePresent T present file) :
    progress[i]? = some file.size := by
  obtain ⟨hlength, hentry⟩ := List.forall₂_iff_get.mp h
  obtain ⟨hi, rfl⟩ := List.getElem?_eq_some_iff.mp hfile
  have hi' : i < progress.length := hlength ▸ hi
  have hbytes := hentry i hi hi'
  rw [List.getElem?_eq_some_iff]
  refine ⟨hi', le_antisymm hbytes.2 ?_⟩
  rw [← verifiedBytes_of_filePresent hpresent]
  exact hbytes.1

theorem FilePresent.mono {T : TorrentInfo} {present present' : Nat → Bool} {file : BTFile}
    (h : FilePresent T present file) (hle : ∀ p, present p = true → present' p = true) :
    FilePresent T present' file :=
  fun k hk => hle _ (h k hk)

/-! ## The machine -/

/-- A downloader and the handles of its workers. -/
structure Swarm where
  dl : State
  /-- the verified pieces of each worker's handle -/
  present : Nat → Nat → Bool
  /-- the priorities given to each worker's handle -/
  priority : Nat → Nat → Nat
  /-- the `selected` flags at the moment each worker was dispatched -/
  selection : Nat → Nat → Bool

def Swarm.init (T : TorrentInfo) : Swarm where
  dl := initWithTorrent T
  present := fun _ _ => false
  priority := fun _ _ => 4
  selection := fun _ _ => false

inductive SwarmLabel where
  /-- a step of the downloader -/
  | dl (l : Label)
  /-- piece `p` passes its hash check in the session of worker `w` -/
  | arrive (w p : Nat)
  deriving DecidableEq, Repr

/-- What `is_seed` and `status` answer agrees with the verified pieces of the handle
asked. -/
def answers (T : TorrentInfo) (c : Swarm) : Label → Bool
  | .work w (.isSeed answer) => answer == decide (AllPresent T (c.present w))
  | .work w (.status st) =>
      decide (1 ≤ st.progress) == decide (WantedPresent T (c.present w) (c.priority w))
  | _ => true

/-- The priorities after a label. -/
def Swarm.priorityAfter (c : Swarm) : Label → Nat → Nat → Nat
  | .work w (.filePriority i k) =>
      Function.update c.priority w (Function.update (c.priority w) i k)
  | _ => c.priority

/-- The recorded selections after a label. -/
def Swarm.selectionAfter (c : Swarm) (l : Label) : Nat → Nat → Bool :=
  match l.dispatched with
  | some w => Function.update c.selection w c.dl.selected
  | none => c.selection

/-- One step of the downloader in its swarm. -/
def swarmStep (T : TorrentInfo) (c : Swarm) : SwarmLabel → Option Swarm
  | .arrive w p =>
      some { c with present := Function.update c.present w (Function.update (c.present w) p true) }
  | .dl l =>
      if answers T c l then
        (step T c.dl l).map fun dl =>
          { c with dl := dl, priority := c.priorityAfter l, selection := c.selectionAfter l }
      else none

/-- The downloader's label in a label of the swarm. -/
def SwarmLabel.dl? : SwarmLabel → Option Label
  | .dl l => some l
  | .arrive _ _ => none

/-- The downloader's part of a run. -/
def dlTrace (tr : List SwarmLabel) : List Label := tr.filterMap SwarmLabel.dl?

@[simp] theorem dlTrace_concat_dl (tr : List SwarmLabel) (l : Label) :
    dlTrace (tr ++ [.dl l]) = dlTrace tr ++ [l] := by
  simp [dlTrace, SwarmLabel.dl?]

@[simp] theorem dlTrace_concat_arrive (tr : List SwarmLabel) (w p : Nat) :
    dlTrace (tr ++ [.arrive w p]) = dlTrace tr := by
  simp [dlTrace, SwarmLabel.dl?]

theorem swarmStep_dl_iff {T : TorrentInfo} {c c' : Swarm} {l : Label} :
    swarmStep T c (.dl l) = some c' ↔
      answers T c l = true ∧ ∃ dl, step T c.dl l = some dl ∧
        c' = { c with
          dl := dl, priority := c.priorityAfter l, selection := c.selectionAfter l } := by
  simp only [swarmStep, Option.ite_none_right_eq_some, Option.map_eq_some_iff, eq_comm (b := c')]

/-- The swarm restricts the downloader: its runs are runs of the downloader. -/
theorem dl_run {T : TorrentInfo} {tr : List SwarmLabel} {c : Swarm}
    (hrun : run (swarmStep T) (Swarm.init T) tr = some c) :
    run (step T) (initWithTorrent T) (dlTrace tr) = some c.dl := by
  have sim : Simulation (swarmStep T) (step T) SwarmLabel.dl? (fun c dl => c.dl = dl) := by
    rintro c c' - l rfl hstep
    cases l with
    | arrive w p => cases hstep; rfl
    | dl l =>
        obtain ⟨-, dl, hdl, rfl⟩ := swarmStep_dl_iff.mp hstep
        exact ⟨dl, hdl, rfl⟩
  have hinit : (Swarm.init T).dl = initWithTorrent T := rfl
  obtain ⟨dl, hdl, rfl⟩ := sim.run hinit hrun
  exact hdl

/-- A piece once verified stays verified. -/
theorem present_mono {T : TorrentInfo} {c c' : Swarm} {l : SwarmLabel}
    (h : swarmStep T c l = some c') (w p : Nat) (hp : c.present w p = true) :
    c'.present w p = true := by
  cases l with
  | dl l =>
      obtain ⟨-, dl, -, rfl⟩ := swarmStep_dl_iff.mp h
      exact hp
  | arrive v q =>
      cases h
      by_cases hv : w = v
      · subst hv
        by_cases hq : p = q
        · subst hq; simp
        · simpa [hq] using hp
      · simpa [hv] using hp

/-! ## The recorded selection is the one the worker reads -/

/-- A step that does not dispatch a worker keeps what is recorded for it. -/
theorem selectionAfter_of_ne (c : Swarm) {l : Label} {w : Nat} (h : l.dispatched ≠ some w) :
    c.selectionAfter l w = c.selection w := by
  cases hv : l.dispatched with
  | none => simp [Swarm.selectionAfter, hv]
  | some v =>
      have hne : w ≠ v := by
        rintro rfl
        exact h hv
      simp [Swarm.selectionAfter, hv, hne]

theorem selectionAfter_of_some (c : Swarm) {l : Label} {w : Nat} (h : l.dispatched = some w) :
    c.selectionAfter l w = c.dl.selected := by
  simp [Swarm.selectionAfter, h]

/-- While a worker is active no step changes the flags. -/
theorem selected_of_active {T : TorrentInfo} {s s' : State} {ph : Phase} {l : Label} {w : Nat}
    {pc : PC} (htracks : Tracks s ph) (hstep : step T s l = some s')
    (hpc : s.workers w = some pc) (hactive : pc.active = true) : s'.selected = s.selected := by
  cases step_selected hstep with
  | keep hkeep _ => exact hkeep
  | turn indexes i hcall _ _ _ =>
      have hfree := htracks.eq_free_of_selecting hcall
      rw [htracks.holder w pc hpc hactive] at hfree
      cases hfree

/-- The flags stand still from a worker's dispatch to the end of its activity. -/
theorem selection_of_run {T : TorrentInfo} {tr : List SwarmLabel} {c : Swarm}
    (hrun : run (swarmStep T) (Swarm.init T) tr = some c) :
    ∀ w pc, c.dl.workers w = some pc → pc.active = true → c.dl.selected = c.selection w := by
  refine run_induction (motive := fun _ c => ∀ w pc, c.dl.workers w = some pc →
    pc.active = true → c.dl.selected = c.selection w) (fun _ _ h => by cases h) ?_ hrun
  intro tr c l c' hprefix ih hstep w pc hpc hactive
  cases l with
  | arrive v q => cases hstep; exact ih w pc hpc hactive
  | dl l =>
      obtain ⟨ph, -, htracks⟩ := tracks_of_run (dl_run hprefix)
      obtain ⟨-, dl, hdl, rfl⟩ := swarmStep_dl_iff.mp hstep
      change dl.workers w = some pc at hpc
      change dl.selected = c.selectionAfter l w
      cases step_worker hdl hpc with
      | stood hlabel _ hbefore =>
          rw [selectionAfter_of_ne c hlabel, selected_of_active htracks hdl hbefore hactive]
          exact ih w pc hbefore hactive
      | queued hlabel hnew _ =>
          rw [selectionAfter_of_some c hlabel]
          cases step_selected hdl with
          | keep hkeep _ => exact hkeep
          | turn _ _ _ _ _ hsame =>
              rw [hsame, htracks.fresh w hnew.ge] at hpc
              cases hpc
      | moved a qc effect hlabel hqc hnext hafter =>
          subst hlabel hafter
          rw [selectionAfter_of_ne c (by simp [Label.dispatched]), moveWorker_selected]
          exact ih w qc hqc (active_of_workNext hnext hactive)

/-- The recorded selection of a worker that exists never changes again. -/
theorem selection_stable {T : TorrentInfo} {c c' : Swarm} {ph : Phase} {l : SwarmLabel} {w : Nat}
    (htracks : Tracks c.dl ph) (h : swarmStep T c l = some c') (hw : c.dl.workers w ≠ none) :
    c'.selection w = c.selection w := by
  cases l with
  | arrive v q => cases h; rfl
  | dl l =>
      obtain ⟨-, dl, hdl, rfl⟩ := swarmStep_dl_iff.mp h
      change c.selectionAfter l w = c.selection w
      refine selectionAfter_of_ne c fun hlabel => ?_
      cases step_workers hdl with
      | quiet hnone _ _ _ _ => rw [hnone] at hlabel; cases hlabel
      | move v a _ _ _ hmove _ _ _ => subst hmove; cases hlabel
      | dispatch hnew _ _ _ _ _ =>
          rw [hnew, Option.some.injEq] at hlabel
          exact hw (htracks.fresh w hlabel.le)

/-- Only `file_priority(i, …)` on a worker's own handle sets its priority `i`. -/
theorem priorityAfter_of_ne (c : Swarm) {l : Label} {w i : Nat}
    (h : ∀ k, l ≠ .work w (.filePriority i k)) : c.priorityAfter l w i = c.priority w i := by
  cases l with
  | work v a =>
      cases a with
      | filePriority j k =>
          by_cases hv : w = v
          · subst hv
            have hj : i ≠ j := fun hij => h k (by rw [hij])
            simp [Swarm.priorityAfter, hj]
          · simp [Swarm.priorityAfter, hv]
      | _ => rfl
  | _ => rfl

theorem priorityAfter_self (c : Swarm) (w i k : Nat) :
    c.priorityAfter (.work w (.filePriority i k)) w i = k := by
  simp [Swarm.priorityAfter]

/-- Once the priorities are set, they are 7 for the selected files and 0 for all
others. -/
theorem priority_of_run {T : TorrentInfo} {tr : List SwarmLabel} {c : Swarm}
    (hrun : run (swarmStep T) (Swarm.init T) tr = some c) :
    ∀ w pc, c.dl.workers w = some pc → ∀ i < pc.prioritiesSet T,
      c.priority w i = if c.selection w i then 7 else 0 := by
  refine run_induction (motive := fun _ c => ∀ w pc, c.dl.workers w = some pc →
    ∀ i < pc.prioritiesSet T, c.priority w i = if c.selection w i then 7 else 0)
    (fun _ _ h => by cases h) ?_ hrun
  intro tr c l c' hprefix ih hstep w pc hpc i hi
  cases l with
  | arrive v q => cases hstep; exact ih w pc hpc i hi
  | dl l =>
      obtain ⟨-, dl, hdl, rfl⟩ := swarmStep_dl_iff.mp hstep
      change c.priorityAfter l w i = if c.selectionAfter l w i then 7 else 0
      cases step_worker hdl hpc with
      | stood hlabel hnot hbefore =>
          rw [priorityAfter_of_ne c fun k => hnot _, selectionAfter_of_ne c hlabel]
          exact ih w pc hbefore i hi
      | queued _ _ hqueued => subst hqueued; cases hi
      | moved a qc effect hlabel hqc hnext _ =>
          subst hlabel
          rw [selectionAfter_of_ne c (by simp [Label.dispatched])]
          have hrange := inRange_of_run (dl_run hprefix) w qc hqc
          by_cases ha : ∃ k, a = .filePriority i k
          · obtain ⟨k, rfl⟩ := ha
            have hactive : qc.active = true := by
              cases workStep_of_workNext hnext
              rfl
            obtain ⟨-, hk⟩ := workNext_agrees hnext hrange
            have hflags : c.dl.selected i = c.selection w i :=
              congrFun (selection_of_run hprefix w qc hqc hactive) i
            rw [priorityAfter_self, hk, ← hflags]
            rfl
          · rw [priorityAfter_of_ne c fun k h => ha ⟨k, by simpa using h⟩]
            exact ih w qc hqc i ((workNext_prioritiesSet hnext hrange hi).resolve_right ha)

end TorrentApp.Downloader
