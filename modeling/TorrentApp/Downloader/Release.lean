import TorrentApp.Downloader.Slot

set_option autoImplicit false

/-!
# When the download flag comes down again

`downloading` is cleared in one place only: the main-queue block that a worker
queues at its `break`, when the delegate answers to
`btDownloaderDidFinishDownload:`.  The four other ends of the worker keep the
slot, and with it the flag, for good.
-/

namespace TorrentApp.Downloader

open TorrentApp.Foundation

/-! ## Losing the slot -/

/-- The slot is lost exactly when a worker abandoned it. -/
theorem slot_lost_iff {ms : List Move} {ph : Phase}
    (h : run slotStep (.free 0) ms = some ph) :
    (∃ w, ph = .lost w) ↔ ∃ w, .abandon w ∈ ms := by
  refine run_induction (motive := fun ms ph => (∃ w, ph = .lost w) ↔ ∃ w, .abandon w ∈ ms)
    (by simp) ?_ h
  intro ms ph m ph' _ ih hstep
  simp only [List.mem_append, List.mem_singleton]
  cases ph with
  | lost w => rw [slotStep_lost] at hstep; cases hstep
  | free n =>
      have hnot : ¬ ∃ w, .abandon w ∈ ms := by rw [← ih]; simp
      cases m <;> simp [slotStep] at hstep
      obtain ⟨-, rfl⟩ := hstep
      simpa using hnot
  | finishing w =>
      have hnot : ¬ ∃ w, .abandon w ∈ ms := by rw [← ih]; simp
      cases m <;> simp [slotStep] at hstep
      obtain ⟨-, rfl⟩ := hstep
      simpa using hnot
  | running w =>
      have hnot : ¬ ∃ w, .abandon w ∈ ms := by rw [← ih]; simp
      cases m <;> simp [slotStep] at hstep <;> obtain ⟨rfl, rfl⟩ := hstep
      · simpa using hnot
      · simpa using hnot
      · simp

/-- The steps after which the worker still releases the slot: the torrent loads,
it can be added, the torrent is not already complete at a loop head, and at the
`break` the delegate implements `btDownloaderDidFinishDownload:`. -/
def ReleasingStep (s : State) : Label → Prop
  | .work _ (.loadTorrent ok) => ok = true
  | .work _ (.addTorrent ok) => ok = true
  | .work _ (.isSeed answer) => answer = false
  | .work _ (.notifyFinish _) => respondsToFinish s.delegate = true
  | _ => True

theorem queued_of_notifyFinish {T : TorrentInfo} {sh : Shared} {w : Nat} {pc pc' : PC}
    {queued : Bool} {effect : Effect}
    (h : workNext T sh w pc (.notifyFinish queued) = some (pc', effect)) :
    queued = respondsToFinish sh.delegate := by
  cases workStep_of_workNext h with
  | finish hhears => exact hhears.symm
  | noFinish hdeaf => exact hdeaf.symm

/-- A step releases the slot unless it abandons it. -/
theorem releasingStep_iff (T : TorrentInfo) (s : State) (l : Label) (s' : State)
    (hstep : step T s l = some s') : ReleasingStep s l ↔ ∀ w, l.move ≠ some (.abandon w) := by
  cases l with
  | work w a =>
      obtain ⟨pc, pc', effect, -, hnext, -⟩ := step_work_iff.mp hstep
      cases a with
      | loadTorrent ok => cases ok <;> simp [ReleasingStep, Label.move, Work.move]
      | addTorrent ok => cases ok <;> simp [ReleasingStep, Label.move, Work.move]
      | isSeed answer => cases answer <;> simp [ReleasingStep, Label.move, Work.move]
      | notifyFinish queued =>
          have hqueued := queued_of_notifyFinish hnext
          rw [ReleasingStep, show respondsToFinish s.delegate = queued from hqueued.symm]
          cases queued <;> simp [Label.move, Work.move]
      | notifyProgress queued => cases queued <;> simp [ReleasingStep, Label.move, Work.move]
      | _ => simp [ReleasingStep, Label.move, Work.move]
  | startDownload d => cases d <;> simp [ReleasingStep, Label.move]
  | startSelected idx d => cases d <;> simp [ReleasingStep, Label.move]
  | returnBlock b => cases b <;> simp [ReleasingStep, Label.move]
  | _ => simp [ReleasingStep, Label.move]

/-! ## Quiet states -/

/-- No worker block is queued or running, and every block put on the main queue
has run to its end. -/
structure State.Quiescent (s : State) : Prop where
  workers : ∀ w pc, s.workers w = some pc → ∃ exit, pc = .done exit
  mainQueue : s.mainQueue = []
  block : s.block = none

/-- The flag is NO, no call in progress is about to raise it, and so the next
`startDownload` dispatches a worker. -/
structure State.Released (s : State) : Prop where
  downloading : s.downloading = false
  call : s.call ≠ some .startDownload
  dispatches : s.dispatchee = some s.nextWorker

/-- In a quiet state the slot is free or lost. -/
theorem Tracks.free_or_lost {s : State} {ph : Phase} (h : Tracks s ph) (hquiet : s.Quiescent) :
    ph = .free s.nextWorker ∨ ∃ w, ph = .lost w := by
  have hpend : s.pendingBlocks = [] := by
    simp [State.pendingBlocks, hquiet.block, hquiet.mainQueue]
  cases ph with
  | free n => exact Or.inl (by rw [h.phase.1])
  | lost w => exact Or.inr ⟨w, rfl⟩
  | running w =>
      obtain ⟨-, -, -, pc, hpc, hactive⟩ := h.phase
      obtain ⟨exit, rfl⟩ := hquiet.workers w pc hpc
      cases hactive
  | finishing w =>
      obtain ⟨-, -, reports, -, heq⟩ := h.phase
      rw [hpend] at heq
      simp at heq

/-- In a free slot the flag is down; a lost one is guarded for good. -/
theorem Tracks.released_iff {s : State} {ph : Phase} (h : Tracks s ph) (hquiet : s.Quiescent) :
    s.Released ↔ ¬ ∃ w, ph = .lost w := by
  constructor
  · rintro hrel ⟨w, rfl⟩
    cases h.eq_free hrel.downloading hrel.call
  · intro hnot
    rcases h.free_or_lost hquiet with rfl | hlost
    · obtain ⟨-, hdown, -, hcall⟩ := h.phase
      exact ⟨hdown, hcall, by simp [State.dispatchee, hdown]⟩
    · exact absurd hlost hnot

/-- In every quiet state a run reaches, the flag has been released exactly when
every step of the run was a releasing one. -/
theorem released_iff_allSteps (T : TorrentInfo) {tr : List Label} {s : State}
    (hrun : run (step T) (initWithTorrent T) tr = some s) (hquiet : s.Quiescent) :
    s.Released ↔ AllSteps (step T) ReleasingStep (initWithTorrent T) tr := by
  obtain ⟨ph, hslot, htracks⟩ := tracks_of_run hrun
  have hall := allSteps_iff_forall_mem (releasingStep_iff T) hrun
  rw [htracks.released_iff hquiet, slot_lost_iff hslot, hall]
  constructor
  · intro hnone l hl w hmove
    exact hnone ⟨w, List.mem_filterMap.mpr ⟨l, hl, hmove⟩⟩
  · rintro hnone ⟨w, hmem⟩
    obtain ⟨l, hl, hmove⟩ := List.mem_filterMap.mp hmem
    exact hnone l hl w hmove

/-- The download of one file that completes in its first turn. -/
def completedRun : List Label := tapToLoop 0 ++ lastTurn 0 ++ [.work 0 .leave] ++ drainBlocks 0

theorem released_after_completedRun :
    ∃ s, run (step oneFile) (initWithTorrent oneFile) completedRun = some s ∧ s.Released := by
  have hall : AllSteps (step oneFile) ReleasingStep (initWithTorrent oneFile) completedRun := by
    with_unfolding_all
      exact ⟨trivial, trivial, trivial, trivial, trivial, rfl, rfl, trivial, rfl, trivial, trivial,
        trivial, trivial, trivial, trivial, trivial, rfl, trivial, trivial, trivial, trivial,
        trivial, trivial⟩
  obtain ⟨s, hrun, hquiet⟩ : ∃ s,
      run (step oneFile) (initWithTorrent oneFile) completedRun = some s ∧ s.Quiescent := by
    refine ⟨_, by with_unfolding_all rfl, ?_, rfl, rfl⟩
    intro w pc hpc
    cases w with
    | zero => exact ⟨.finished, (Option.some.inj hpc).symm⟩
    | succ w => cases hpc
  exact ⟨s, hrun, (released_iff_allSteps oneFile hrun hquiet).mpr hall⟩

/-- A tap on a file of a torrent whose pieces are all on disk already: `is_seed`
is true at the first loop head. -/
def seedRun : List Label := tapToLoop 0 ++ [.work 0 (.isSeed true), .work 0 .leave]

/-- After that run nothing is queued or running and the flag is still up,
although the delegate implements both methods. -/
theorem seedRun_keeps_flag :
    ∃ s, run (step oneFile) (initWithTorrent oneFile) seedRun = some s ∧ s.Quiescent ∧
      s.delegate = some detailList ∧ ¬ s.downloading = false := by
  refine ⟨_, rfl, ⟨?_, rfl, rfl⟩, rfl, Bool.noConfusion⟩
  intro w pc hpc
  cases w with
  | zero => exact ⟨.seed, (Option.some.inj hpc).symm⟩
  | succ w => cases hpc

end TorrentApp.Downloader
