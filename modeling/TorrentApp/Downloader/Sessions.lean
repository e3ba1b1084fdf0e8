import TorrentApp.Downloader.Slot

set_option autoImplicit false

/-!
# One session at a time

A worker holds the download slot until it queues its finish, but its
`lt::session` lives on until the block's scope ends.  The main thread clears the
flag from the queued block, so the next worker can construct its session before
the previous one's is destroyed.
-/

namespace TorrentApp.Downloader

open TorrentApp.Foundation

/-- At most one worker of the downloader has a live session. -/
def AtMostOneSession (s : State) : Prop :=
  ∀ v w pc qc, s.workers v = some pc → s.workers w = some qc →
    pc.sessionAlive = true → qc.sessionAlive = true → v = w

/-- A worker block starts only when no earlier one stands between the end of its
loop and the end of its scope. -/
def BeginsAlone (s : State) : Label → Prop
  | .work _ .begin => ∀ v exit, s.workers v ≠ some (.leaving exit)
  | _ => True

/-- A live session belongs to an active worker or to one leaving its scope. -/
theorem sessionAlive_cases {pc : PC} (h : pc.sessionAlive = true) :
    pc.active = true ∨ ∃ exit, pc = .leaving exit := by
  cases pc with
  | done exit => cases h
  | leaving exit => exact Or.inr ⟨exit, rfl⟩
  | _ => exact Or.inl rfl

/-- A worker that takes a step has a live session or is about to construct it. -/
theorem sessionAlive_or_begin {T : TorrentInfo} {sh : Shared} {w : Nat} {pc pc' : PC}
    {a : Work} {effect : Effect} (h : workNext T sh w pc a = some (pc', effect)) :
    pc.sessionAlive = true ∨ (pc = .queued ∧ a = .begin) := by
  cases workStep_of_workNext h with
  | begin => exact Or.inr ⟨rfl, rfl⟩
  | _ => exact Or.inl rfl

theorem begin_cases {T : TorrentInfo} {sh : Shared} {w : Nat} {pc pc' : PC} {effect : Effect}
    (h : workNext T sh w pc .begin = some (pc', effect)) :
    pc = .queued ∧ pc'.sessionAlive = true := by
  cases workStep_of_workNext h
  exact ⟨rfl, rfl⟩

/-- A step other than a `begin` constructs no session. -/
theorem atMostOneSession_of_ne_begin {T : TorrentInfo} {s s' : State} {l : Label}
    (hone : AtMostOneSession s) (hstep : step T s l = some s') (hnot : ∀ w, l ≠ .work w .begin) :
    AtMostOneSession s' := by
  have hback : ∀ v qc, s'.workers v = some qc → qc.sessionAlive = true →
      ∃ rc, s.workers v = some rc ∧ rc.sessionAlive = true := by
    intro v qc hqc hqa
    cases step_worker hstep hqc with
    | stood _ _ hbefore => exact ⟨qc, hbefore, hqa⟩
    | queued _ _ hqueued => subst hqueued; cases hqa
    | moved a pc effect hlabel hpc hnext _ =>
        refine ⟨pc, hpc, (sessionAlive_or_begin hnext).resolve_right ?_⟩
        rintro ⟨-, rfl⟩
        exact hnot v hlabel
  intro v u rc qc hv hu hrc hqc
  obtain ⟨rc₀, hv₀, hrc₀⟩ := hback v rc hv hrc
  obtain ⟨qc₀, hu₀, hqc₀⟩ := hback u qc hu hqc
  exact hone v u rc₀ qc₀ hv₀ hu₀ hrc₀ hqc₀

/-- A `begin` gives the only session exactly when no other worker is leaving:
the slot already keeps every other worker from being active. -/
theorem atMostOneSession_begin_iff {s : State} {ph : Phase} {w : Nat} {pc' : PC}
    {effect : Effect} (htracks : Tracks s ph) (hpc : s.workers w = some .queued)
    (halive : pc'.sessionAlive = true) :
    AtMostOneSession (s.moveWorker w pc' effect) ↔
      ∀ v exit, s.workers v ≠ some (.leaving exit) := by
  have hself : (s.moveWorker w pc' effect).workers w = some pc' := by simp
  constructor
  · intro hone v exit hv
    have hne : v ≠ w := by
      rintro rfl
      rw [hpc] at hv
      cases hv
    exact hne (hone v w (.leaving exit) pc' (by simpa [hne] using hv) hself rfl halive)
  · intro hnone
    have honly : ∀ v qc, (s.moveWorker w pc' effect).workers v = some qc →
        qc.sessionAlive = true → v = w := by
      intro v qc hqc hqa
      by_contra hv
      rw [moveWorker_workers, Function.update_of_ne hv] at hqc
      rcases sessionAlive_cases hqa with hactive | ⟨exit, rfl⟩
      · have hholder := htracks.holder v qc hqc hactive
        rw [htracks.holder w .queued hpc rfl] at hholder
        exact hv (Phase.running.inj hholder).symm
      · exact hnone v exit hqc
    intro v u rc qc hv hu hrc hqc
    rw [honly v rc hv hrc, honly u qc hu hqc]

/-- Throughout a run at most one session is alive exactly when every worker block
of the run began alone. -/
theorem oneSession_iff_beginsAlone (T : TorrentInfo) {tr : List Label} {s : State}
    (hrun : run (step T) (initWithTorrent T) tr = some s) :
    Throughout (step T) AtMostOneSession (initWithTorrent T) tr ↔
      AllSteps (step T) BeginsAlone (initWithTorrent T) tr := by
  refine throughout_iff_allSteps (fun _ _ _ _ h => by cases h) ?_ hrun
  intro tr s l s' hprefix hone hstep
  obtain ⟨ph, -, htracks⟩ := tracks_of_run hprefix
  by_cases hbegin : ∃ w, l = .work w .begin
  · obtain ⟨w, rfl⟩ := hbegin
    obtain ⟨pc, pc', effect, hpc, hnext, rfl⟩ := step_work_iff.mp hstep
    obtain ⟨rfl, halive⟩ := begin_cases hnext
    exact atMostOneSession_begin_iff htracks hpc halive
  · have hnot : ∀ w, l ≠ .work w .begin := fun w h => hbegin ⟨w, h⟩
    refine iff_of_true (atMostOneSession_of_ne_begin hone hstep hnot) ?_
    cases l with
    | work w a =>
        cases a with
        | begin => exact absurd rfl (hnot w)
        | _ => trivial
    | _ => trivial

/-- The first download's block leaves its scope before the second one begins. -/
def oneAfterTheOther : List Label :=
  tapToLoop 0 ++ lastTurn 0 ++ [.work 0 .leave] ++ drainBlocks 0 ++ tapToLoop 1

theorem oneSession_of_oneAfterTheOther :
    Throughout (step oneFile) AtMostOneSession (initWithTorrent oneFile) oneAfterTheOther := by
  have hfirst : ∀ v exit,
      Function.update (fun _ => none) 0 (some PC.queued) v ≠ some (.leaving exit) := by
    rintro (_ | v) exit h <;> cases h
  refine (oneSession_iff_beginsAlone oneFile (by with_unfolding_all rfl)).mpr ?_
  with_unfolding_all
    exact ⟨trivial, trivial, trivial, trivial, hfirst, trivial, trivial, trivial, trivial,
      trivial, trivial, trivial, trivial, trivial, trivial, trivial, trivial, trivial,
      trivial, trivial, trivial, trivial, trivial, trivial, trivial, trivial,
      (by rintro (_ | _ | v) exit h <;> cases h), trivial, trivial, trivial, trivial⟩

/-- The second tap comes after the finish was delivered and before the first
block's scope ended. -/
def twoAtOnce : List Label :=
  tapToLoop 0 ++ lastTurn 0 ++ drainBlocks 0 ++ tapToLoop 1

/-- After that run two sessions of the downloader are alive. -/
theorem twoAtOnce_two_sessions :
    ∃ s, run (step oneFile) (initWithTorrent oneFile) twoAtOnce = some s ∧
      ¬ AtMostOneSession s := by
  refine ⟨_, by with_unfolding_all rfl, fun hone => ?_⟩
  have h := hone 0 1 (.leaving .finished) .loopHead rfl rfl rfl rfl
  cases h

end TorrentApp.Downloader
