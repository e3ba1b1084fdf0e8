import TorrentApp.Downloader.Step

set_option autoImplicit false

/-!
# The download slot

What the `downloading` flag is for, stated without threads or queues: one slot
that a worker takes when it is dispatched, reports through while it runs, hands
back by finishing, and that becomes free again when the finish has been
delivered.  A worker that ends without finishing loses the slot for good.

The section after that proves that the downloader of `Downloader.Step` refines
this protocol: `Tracks` relates its states to phases of the slot, and every
label is a move of the slot or leaves the phase alone.
-/

namespace TorrentApp.Downloader

open TorrentApp.Foundation

/-! ## The protocol -/

/-- Who holds the slot. -/
inductive Phase where
  /-- nobody; the next worker will be number `next` -/
  | free (next : Nat)
  /-- worker `w` runs: it may report and finish -/
  | running (w : Nat)
  /-- worker `w` has finished; the finish is not delivered yet -/
  | finishing (w : Nat)
  /-- worker `w` ended without finishing -/
  | lost (w : Nat)
  deriving DecidableEq, Repr

/-- The moves of the slot. -/
inductive Move where
  | start (w : Nat)
  | report (w : Nat)
  | finish (w : Nat)
  | abandon (w : Nat)
  | release (w : Nat)
  deriving DecidableEq, Repr

/-- One move of the slot; all others are refused. -/
def slotStep : Phase → Move → Option Phase
  | .free n, .start w => if w = n then some (.running w) else none
  | .running w, .report w' => if w' = w then some (.running w) else none
  | .running w, .finish w' => if w' = w then some (.finishing w) else none
  | .running w, .abandon w' => if w' = w then some (.lost w) else none
  | .finishing w, .release w' => if w' = w then some (.free (w + 1)) else none
  | _, _ => none

/-- A lost slot admits no move. -/
theorem slotStep_lost (w : Nat) (m : Move) : slotStep (.lost w) m = none := by
  cases m <;> rfl

/-! ## The moves a label makes -/

/-- The slot move of a worker step. -/
def Work.move (w : Nat) : Work → Option Move
  | .loadTorrent false => some (.abandon w)
  | .addTorrent false => some (.abandon w)
  | .isSeed true => some (.abandon w)
  | .notifyProgress true => some (.report w)
  | .notifyFinish true => some (.finish w)
  | .notifyFinish false => some (.abandon w)
  | _ => none

/-- The slot move of a label. -/
def Label.move : Label → Option Move
  | .startDownload (some w) => some (.start w)
  | .startSelected _ (some w) => some (.start w)
  | .returnBlock (.didFinish w) => some (.release w)
  | .work w a => a.move w
  | _ => none

/-- What a worker step does to the slot, by its move: a report queues a progress
block and goes on, a finish queues the finish block and leaves, an abandoning
step leaves without a block, and every other step queues nothing. -/
def MoveEffect (w : Nat) (pc pc' : PC) (effect : Effect) : Option Move → Prop
  | some (.report _) =>
      pc.active = true ∧ pc'.active = true ∧
        ∃ info, effect.blocks = [.progressDidUpdate w info]
  | some (.finish _) =>
      pc.active = true ∧ pc'.active = false ∧ effect.blocks = [.didFinish w]
  | some (.abandon _) => pc.active = true ∧ pc'.active = false ∧ effect.blocks = []
  | _ => pc'.active = pc.active ∧ effect.blocks = []

@[simp] theorem nextPriority_active (T : TorrentInfo) (i : Nat) :
    (nextPriority T i).active = true := by
  unfold nextPriority; split <;> rfl

@[simp] theorem nextPoll_active (T : TorrentInfo) (st : TorrentStatus) (progress : List Nat)
    (i : Nat) : (nextPoll T st progress i).active = true := by
  unfold nextPoll; split <;> rfl

@[simp] theorem nextPrint_active (T : TorrentInfo) (st : TorrentStatus) (i : Nat) :
    (nextPrint T st i).active = true := by
  unfold nextPrint; split <;> rfl

theorem workNext_moveEffect {T : TorrentInfo} {sh : Shared} {w : Nat} {pc pc' : PC} {a : Work}
    {effect : Effect} (h : workNext T sh w pc a = some (pc', effect)) :
    MoveEffect w pc pc' effect (a.move w) := by
  cases workStep_of_workNext h with
  | loadFailed => exact ⟨rfl, rfl, rfl⟩
  | added => exact ⟨nextPriority_active T 0, rfl⟩
  | addFailed => exact ⟨rfl, rfl, rfl⟩
  | filePriority i => exact ⟨nextPriority_active T (i + 1), rfl⟩
  | seed => exact ⟨rfl, rfl, rfl⟩
  | fileProgress st progress => exact ⟨nextPoll_active T st progress 0, rfl⟩
  | writeFile st progress i value => exact ⟨nextPoll_active T st progress (i + 1), rfl⟩
  | passFile st progress i => exact ⟨nextPoll_active T st progress (i + 1), rfl⟩
  | print st => exact ⟨nextPrint_active T st 0, rfl⟩
  | printFile st i => exact ⟨nextPrint_active T st (i + 1), rfl⟩
  | report st => exact ⟨rfl, rfl, _, rfl⟩
  | finish => exact ⟨rfl, rfl, rfl⟩
  | noFinish => exact ⟨rfl, rfl, rfl⟩
  | _ => exact ⟨rfl, rfl⟩

/-! ## The downloader refines the slot -/

/-- The main-queue blocks that have not run to their end, the running one first. -/
def State.pendingBlocks (s : State) : List Block := s.block.toList ++ s.mainQueue

/-- All blocks of the list are progress blocks of worker `w`. -/
def Reports (w : Nat) (blocks : List Block) : Prop :=
  ∀ b ∈ blocks, ∃ info, b = .progressDidUpdate w info

/-- The slot is guarded: the flag is up, or the `startDownload` that dispatched
the worker has not yet reached its assignment. -/
def State.Guarded (s : State) : Prop :=
  (s.downloading = true ∧ ∀ indexes i, s.call ≠ some (.selecting indexes i)) ∨
    (s.call = some .startDownload ∧ s.block = none)

/-- What a phase of the slot means for the flag, the blocks and the workers. -/
def State.InPhase (s : State) : Phase → Prop
  | .free n =>
      n = s.nextWorker ∧ s.downloading = false ∧ s.pendingBlocks = [] ∧
        s.call ≠ some .startDownload
  | .running w =>
      w + 1 = s.nextWorker ∧ s.Guarded ∧ Reports w s.pendingBlocks ∧
        ∃ pc, s.workers w = some pc ∧ pc.active = true
  | .finishing w =>
      w + 1 = s.nextWorker ∧ s.Guarded ∧
        ∃ reports, Reports w reports ∧ s.pendingBlocks = reports ++ [.didFinish w]
  | .lost w => w + 1 = s.nextWorker ∧ s.Guarded ∧ Reports w s.pendingBlocks

/-- The downloader's state `s` is in phase `ph` of the slot. -/
structure Tracks (s : State) (ph : Phase) : Prop where
  fresh : ∀ w, s.nextWorker ≤ w → s.workers w = none
  holder : ∀ w pc, s.workers w = some pc → pc.active = true → ph = .running w
  phase : s.InPhase ph

theorem tracks_init (T : TorrentInfo) : Tracks (initWithTorrent T) (.free 0) where
  fresh := fun _ _ => rfl
  holder := fun _ _ h => by simp [initWithTorrent] at h
  phase := ⟨rfl, rfl, rfl, by simp [initWithTorrent]⟩

/-- A slot that is not guarded is free. -/
theorem Tracks.eq_free_of_not_guarded {s : State} {ph : Phase} (h : Tracks s ph)
    (hguard : ¬ s.Guarded) : ph = .free s.nextWorker := by
  cases ph with
  | free n => rw [h.phase.1]
  | running w => exact absurd h.phase.2.1 hguard
  | finishing w => exact absurd h.phase.2.1 hguard
  | lost w => exact absurd h.phase.2.1 hguard

/-- With the flag down and nobody about to raise it, the slot is free. -/
theorem Tracks.eq_free {s : State} {ph : Phase} (h : Tracks s ph) (hflag : s.downloading = false)
    (hcall : s.call ≠ some .startDownload) : ph = .free s.nextWorker := by
  refine h.eq_free_of_not_guarded ?_
  rintro (⟨hup, -⟩ | ⟨hstart, -⟩)
  · rw [hflag] at hup; cases hup
  · exact hcall hstart

/-- Inside the selection loop the slot is free. -/
theorem Tracks.eq_free_of_selecting {s : State} {ph : Phase} {indexes : List Nat} {i : Nat}
    (h : Tracks s ph) (hcall : s.call = some (.selecting indexes i)) :
    ph = .free s.nextWorker := by
  refine h.eq_free_of_not_guarded ?_
  rintro (⟨-, hsel⟩ | ⟨hstart, -⟩)
  · exact hsel _ _ hcall
  · rw [hcall] at hstart; cases hstart

/-- Fields a phase does not mention may change; the rest decides the phase. -/
theorem Tracks.congr {s s' : State} {ph : Phase} (h : Tracks s ph)
    (hworkers : s'.workers = s.workers) (hnext : s'.nextWorker = s.nextWorker)
    (hflag : s'.downloading = s.downloading) (hblocks : s'.pendingBlocks = s.pendingBlocks)
    (hstart : s'.call = some .startDownload →
      s.call = some .startDownload ∨ s.downloading = true)
    (hguard : s.Guarded → s'.Guarded) : Tracks s' ph where
  fresh := by rw [hworkers, hnext]; exact h.fresh
  holder := by rw [hworkers]; exact h.holder
  phase := by
    have hp := h.phase
    cases ph with
    | free n =>
        obtain ⟨hn, hdown, hpend, hnone⟩ := hp
        refine ⟨hn.trans hnext.symm, hflag.trans hdown, hblocks.trans hpend, ?_⟩
        intro hcall
        rcases hstart hcall with hold | hup
        · exact hnone hold
        · rw [hup] at hdown; cases hdown
    | running w =>
        obtain ⟨hw, hg, hrep, hpc⟩ := hp
        exact ⟨hw.trans hnext.symm, hguard hg, hblocks ▸ hrep, by rw [hworkers]; exact hpc⟩
    | finishing w =>
        obtain ⟨hw, hg, hrep⟩ := hp
        exact ⟨hw.trans hnext.symm, hguard hg, by rw [hblocks]; exact hrep⟩
    | lost w =>
        obtain ⟨hw, hg, hrep⟩ := hp
        exact ⟨hw.trans hnext.symm, hguard hg, hblocks ▸ hrep⟩

/-- A call of `startDownload` with the flag up changes no phase. -/
theorem Tracks.startDownload_up {s : State} {ph : Phase} (h : Tracks s ph)
    (hup : s.downloading = true) : Tracks { s with call := some .startDownload } ph :=
  h.congr rfl rfl rfl rfl (fun _ => Or.inr hup) fun _ => Or.inl ⟨hup, by simp⟩

/-- A call of `startDownload` with the flag down hands the free slot to the
worker it dispatches. -/
theorem Tracks.startDownload_down {s : State} (h : Tracks s (.free s.nextWorker)) :
    Tracks { s.dispatchWorker with call := some .startDownload } (.running s.nextWorker) where
  fresh := by
    intro w hw
    have hne : w ≠ s.nextWorker := by
      have : s.nextWorker + 1 ≤ w := hw
      omega
    simpa [State.dispatchWorker, hne] using h.fresh w (by
      have : s.nextWorker + 1 ≤ w := hw
      omega)
  holder := by
    intro w pc hpc hactive
    by_cases hw : w = s.nextWorker
    · rw [hw]
    · have hold : s.workers w = some pc := by simpa [State.dispatchWorker, hw] using hpc
      cases h.holder w pc hold hactive
  phase := by
    obtain ⟨-, -, hpend, -⟩ := h.phase
    have hblock : s.block = none := by
      cases hb : s.block with
      | none => rfl
      | some b => simp [State.pendingBlocks, hb] at hpend
    refine ⟨rfl, Or.inr ⟨rfl, hblock⟩, ?_, .queued, by simp [State.dispatchWorker], rfl⟩
    have hsame : State.pendingBlocks { s.dispatchWorker with call := some .startDownload }
        = s.pendingBlocks := rfl
    rw [hsame, hpend]
    intro b hb
    cases hb

/-- Raising the flag at the end of `startDownload` changes no phase. -/
theorem Tracks.setDownloading {s : State} {ph : Phase} (h : Tracks s ph)
    (hcall : s.call = some .startDownload) :
    Tracks { s with downloading := true, call := none } ph where
  fresh := h.fresh
  holder := h.holder
  phase := by
    have hp := h.phase
    have hguard : State.Guarded { s with downloading := true, call := none } :=
      Or.inl ⟨rfl, by simp⟩
    cases ph with
    | free n => exact absurd hcall hp.2.2.2
    | running w => exact ⟨hp.1, hguard, hp.2.2⟩
    | finishing w => exact ⟨hp.1, hguard, hp.2.2⟩
    | lost w => exact ⟨hp.1, hguard, hp.2.2⟩

/-- Between blocks and outside calls, a guarded slot has its flag up. -/
theorem State.Guarded.up {s : State} (h : s.Guarded) (hcall : s.call = none) :
    s.downloading = true := by
  rcases h with ⟨hup, -⟩ | ⟨hstart, -⟩
  · exact hup
  · rw [hcall] at hstart; cases hstart

/-- A progress block that returns leaves the phase alone. -/
theorem Tracks.return_progress {s : State} {ph : Phase} {w : Nat} {info : BTDownloadInfo}
    (h : Tracks s ph) (hblock : s.block = some (.progressDidUpdate w info))
    (hcall : s.call = none) : Tracks { s with block := none } ph where
  fresh := h.fresh
  holder := h.holder
  phase := by
    have hpend : s.pendingBlocks = .progressDidUpdate w info :: s.mainQueue := by
      simp [State.pendingBlocks, hblock]
    have hpend' : State.pendingBlocks { s with block := none } = s.mainQueue := rfl
    have hp := h.phase
    have hguard : s.Guarded → State.Guarded { s with block := none } := fun hg =>
      Or.inl ⟨hg.up hcall, by simp [hcall]⟩
    cases ph with
    | free n =>
        have hnil := hp.2.2.1
        rw [hpend] at hnil
        cases hnil
    | running v =>
        obtain ⟨hv, hg, hrep, hpc⟩ := hp
        rw [hpend] at hrep
        exact ⟨hv, hguard hg, fun b hb => hrep b (by rw [hpend'] at hb; simp [hb]), hpc⟩
    | finishing v =>
        obtain ⟨hv, hg, reports, hrep, heq⟩ := hp
        rw [hpend] at heq
        cases reports with
        | nil => cases heq
        | cons b reports =>
            obtain ⟨-, htail⟩ := List.cons.inj heq
            exact ⟨hv, hguard hg, reports, fun c hc => hrep c (by simp [hc]), htail⟩
    | lost v =>
        obtain ⟨hv, hg, hrep⟩ := hp
        rw [hpend] at hrep
        exact ⟨hv, hguard hg, fun b hb => hrep b (by rw [hpend'] at hb; simp [hb])⟩

/-- The finish block that returns frees the slot: it was its worker's last
block, and no other block was behind it. -/
theorem Tracks.return_finish {s : State} {ph : Phase} {w : Nat} (h : Tracks s ph)
    (hblock : s.block = some (.didFinish w)) (hcall : s.call = none) :
    ph = .finishing w ∧ Tracks { s with block := none, downloading := false } (.free (w + 1)) := by
  have hpend : s.pendingBlocks = .didFinish w :: s.mainQueue := by
    simp [State.pendingBlocks, hblock]
  have hnoreport : ∀ v, ¬ Reports v s.pendingBlocks := by
    intro v hrep
    obtain ⟨info, hb⟩ := hrep (.didFinish w) (by simp [hpend])
    cases hb
  cases ph with
  | free n => have hnil := h.phase.2.2.1; rw [hpend] at hnil; cases hnil
  | running v => exact absurd h.phase.2.2.1 (hnoreport v)
  | lost v => exact absurd h.phase.2.2 (hnoreport v)
  | finishing v =>
      obtain ⟨hv, hg, reports, hrep, heq⟩ := h.phase
      rw [hpend] at heq
      cases reports with
      | cons b reports =>
          obtain ⟨hb, -⟩ := List.cons.inj heq
          obtain ⟨info, hb'⟩ := hrep b (by simp)
          rw [← hb] at hb'
          cases hb'
      | nil =>
          simp only [List.nil_append, List.cons.injEq, Block.didFinish.injEq] at heq
          obtain ⟨rfl, hqueue⟩ := heq
          refine ⟨rfl, h.fresh, fun v pc hpc hactive => ?_, hv, rfl, ?_, ?_⟩
          · cases h.holder v pc hpc hactive
          · simp [State.pendingBlocks, hqueue]
          · simp [hcall]

/-- Appending a worker's blocks to the main queue appends them to the pending
ones. -/
theorem pendingBlocks_moveWorker (s : State) (w : Nat) (pc : PC) (effect : Effect) :
    (s.moveWorker w pc effect).pendingBlocks = s.pendingBlocks ++ effect.blocks := by
  simp [State.pendingBlocks]

/-- What remains of `Tracks` after a worker step, given the new phase. -/
theorem Tracks.moveWorker {s : State} {ph ph' : Phase} {w : Nat} {pc pc' : PC} {effect : Effect}
    (h : Tracks s ph) (hpc : s.workers w = some pc)
    (hactive : pc'.active = true → ph' = .running w)
    (hothers : ∀ v, v ≠ w → ph = .running v → ph' = .running v)
    (hphase : (s.moveWorker w pc' effect).InPhase ph') :
    Tracks (s.moveWorker w pc' effect) ph' where
  fresh := by
    intro v hv
    rw [moveWorker_nextWorker] at hv
    have hne : v ≠ w := by
      rintro rfl
      rw [h.fresh v hv] at hpc
      cases hpc
    simpa [hne] using h.fresh v hv
  holder := by
    intro v qc hqc hv
    by_cases hvw : v = w
    · subst hvw
      rw [moveWorker_workers, Function.update_self, Option.some.injEq] at hqc
      exact hactive (hqc ▸ hv)
    · rw [moveWorker_workers, Function.update_of_ne hvw] at hqc
      exact hothers v hvw (h.holder v qc hqc hv)
  phase := hphase

/-- A worker step guards the slot as before. -/
theorem guarded_moveWorker {s : State} {w : Nat} {pc : PC} {effect : Effect} (h : s.Guarded) :
    (s.moveWorker w pc effect).Guarded := by
  simpa [State.Guarded] using h

/-- A worker step that queues nothing and keeps its activity keeps the phase. -/
theorem Tracks.work_quiet {s : State} {ph : Phase} {w : Nat} {pc pc' : PC} {effect : Effect}
    (h : Tracks s ph) (hpc : s.workers w = some pc) (hactive : pc'.active = pc.active)
    (hblocks : effect.blocks = []) : Tracks (s.moveWorker w pc' effect) ph := by
  refine h.moveWorker hpc (fun ha => h.holder w pc hpc (hactive ▸ ha)) (fun _ _ hv => hv) ?_
  have hpend : (s.moveWorker w pc' effect).pendingBlocks = s.pendingBlocks := by
    rw [pendingBlocks_moveWorker, hblocks, List.append_nil]
  have hp := h.phase
  cases ph with
  | free n =>
      obtain ⟨hn, hdown, hnil, hcall⟩ := hp
      exact ⟨by simpa using hn, by simpa using hdown, hpend.trans hnil, by simpa using hcall⟩
  | running v =>
      obtain ⟨hv, hg, hrep, qc, hqc, hqa⟩ := hp
      refine ⟨by simpa using hv, guarded_moveWorker hg, hpend ▸ hrep, ?_⟩
      by_cases hvw : v = w
      · subst hvw
        rw [hpc, Option.some.injEq] at hqc
        exact ⟨pc', by simp, by rw [hactive, hqc, hqa]⟩
      · exact ⟨qc, by simpa [hvw] using hqc, hqa⟩
  | finishing v =>
      obtain ⟨hv, hg, hrep⟩ := hp
      exact ⟨by simpa using hv, guarded_moveWorker hg, by rw [hpend]; exact hrep⟩
  | lost v =>
      obtain ⟨hv, hg, hrep⟩ := hp
      exact ⟨by simpa using hv, guarded_moveWorker hg, hpend ▸ hrep⟩

/-- Every worker step is a move of the slot or leaves the phase alone. -/
theorem Tracks.work {s : State} {ph : Phase} {w : Nat} {pc pc' : PC} {effect : Effect}
    {m : Option Move} (h : Tracks s ph) (hpc : s.workers w = some pc)
    (heff : MoveEffect w pc pc' effect m)
    (hmove : ∀ k, m = some k → k = .report w ∨ k = .finish w ∨ k = .abandon w) :
    Matched slotStep Tracks ph (s.moveWorker w pc' effect) m := by
  cases m with
  | none => exact h.work_quiet hpc heff.1 heff.2
  | some k =>
      rcases hmove k rfl with rfl | rfl | rfl
      · obtain ⟨hactive, hactive', info, hblocks⟩ := heff
        obtain rfl := h.holder w pc hpc hactive
        obtain ⟨hw, hg, hrep, -⟩ := h.phase
        refine ⟨.running w, by simp [slotStep],
          h.moveWorker hpc (fun _ => rfl) (fun _ _ hv => hv)
            ⟨by simpa using hw, guarded_moveWorker hg, ?_, pc', by simp, hactive'⟩⟩
        rw [pendingBlocks_moveWorker, hblocks]
        intro b hb
        rcases List.mem_append.mp hb with hold | hnew
        · exact hrep b hold
        · exact ⟨info, List.mem_singleton.mp hnew⟩
      · obtain ⟨hactive, hactive', hblocks⟩ := heff
        obtain rfl := h.holder w pc hpc hactive
        obtain ⟨hw, hg, hrep, -⟩ := h.phase
        refine ⟨.finishing w, by simp [slotStep],
          h.moveWorker hpc (fun ha => by rw [hactive'] at ha; cases ha)
            (fun v hv hrun => absurd (Phase.running.inj hrun).symm hv)
            ⟨by simpa using hw, guarded_moveWorker hg, s.pendingBlocks, hrep, ?_⟩⟩
        rw [pendingBlocks_moveWorker, hblocks]
      · obtain ⟨hactive, hactive', hblocks⟩ := heff
        obtain rfl := h.holder w pc hpc hactive
        obtain ⟨hw, hg, hrep, -⟩ := h.phase
        refine ⟨.lost w, by simp [slotStep],
          h.moveWorker hpc (fun ha => by rw [hactive'] at ha; cases ha)
            (fun v hv hrun => absurd (Phase.running.inj hrun).symm hv)
            ⟨by simpa using hw, guarded_moveWorker hg, ?_⟩⟩
        rw [pendingBlocks_moveWorker, hblocks, List.append_nil]
        exact hrep

theorem work_move_kind (w : Nat) (a : Work) (k : Move) (h : a.move w = some k) :
    k = .report w ∨ k = .finish w ∨ k = .abandon w := by
  unfold Work.move at h
  split at h <;> simp_all

/-- A call of `startDownload`, from user code or from the selection loop. -/
theorem Tracks.startDownload {s : State} {ph : Phase} {dispatched : Option Nat}
    (h : Tracks s ph) (hd : dispatched = s.dispatchee)
    (hcall : s.call ≠ some .startDownload) :
    Matched slotStep Tracks ph s.startDownload (dispatched.map .start) := by
  subst hd
  rcases startDownload_cases s with ⟨hup, hd, heq⟩ | ⟨hdown, hd, heq⟩
  · rw [hd, heq]
    exact h.startDownload_up hup
  · obtain rfl := h.eq_free hdown hcall
    rw [hd, heq]
    exact ⟨_, by simp [slotStep], h.startDownload_down⟩

/-- One step of the downloader is one move of the slot, or none. -/
theorem Tracks.step {T : TorrentInfo} {s s' : State} {ph : Phase} {l : Label}
    (h : Tracks s ph) (hstep : step T s l = some s') :
    Matched slotStep Tracks ph s' l.move := by
  cases l with
  | startDownload dispatched =>
      simp only [Downloader.step, Option.ite_none_right_eq_some, Option.some.injEq] at hstep
      obtain ⟨⟨hcall, hd⟩, rfl⟩ := hstep
      have hnone : s.call ≠ some .startDownload := by rw [hcall]; simp
      have hs := h.startDownload hd hnone
      cases dispatched with
      | none => exact hs
      | some w => exact hs
  | setDownloading =>
      simp only [Downloader.step, Option.ite_none_right_eq_some, Option.some.injEq] at hstep
      obtain ⟨hcall, rfl⟩ := hstep
      exact h.setDownloading hcall
  | downloadFileAtIndexes indexes =>
      simp only [Downloader.step, Option.ite_none_right_eq_some, Option.some.injEq] at hstep
      obtain ⟨hcall, rfl⟩ := hstep
      by_cases hflag : s.downloading = true
      · rw [if_pos hflag]
        exact h
      · rw [if_neg hflag]
        exact h.congr rfl rfl rfl rfl (by simp) fun hg => absurd (hg.up hcall) hflag
  | selectFile i value =>
      simp only [Downloader.step] at hstep
      split at hstep
      · next indexes j hcall =>
          simp only [Option.ite_none_right_eq_some, Option.some.injEq] at hstep
          obtain ⟨-, rfl⟩ := hstep
          have hfree := h.eq_free_of_selecting hcall
          refine h.congr rfl rfl rfl rfl (by simp) ?_
          rintro (⟨-, hsel⟩ | ⟨hstart, -⟩)
          · exact absurd hcall (hsel _ _)
          · rw [hcall] at hstart; cases hstart
      · cases hstep
  | startSelected indexes dispatched =>
      simp only [Downloader.step] at hstep
      split at hstep
      · next indexes' j hcall =>
          simp only [Option.ite_none_right_eq_some, Option.some.injEq] at hstep
          obtain ⟨⟨-, -, hd⟩, rfl⟩ := hstep
          have hdelegate : Tracks { s with delegate := some detailList } ph :=
            h.congr rfl rfl rfl rfl (by simp [hcall]) id
          have hnone : ({ s with delegate := some detailList } : State).call
              ≠ some .startDownload := by simp [hcall]
          have hs := hdelegate.startDownload hd hnone
          cases dispatched with
          | none => exact hs
          | some w => exact hs
      · cases hstep
  | runBlock block delivered =>
      simp only [Downloader.step] at hstep
      split at hstep
      · next oldest rest hqueue =>
          simp only [Option.ite_none_right_eq_some, Option.some.injEq] at hstep
          obtain ⟨⟨hblock, hcall, rfl, -⟩, rfl⟩ := hstep
          refine h.congr rfl rfl rfl ?_ (by simp [hcall]) fun hg =>
            Or.inl ⟨hg.up hcall, by simp [hcall]⟩
          simp [State.pendingBlocks, hblock, hqueue]
      · cases hstep
  | returnBlock block =>
      simp only [Downloader.step, Option.ite_none_right_eq_some, Option.some.injEq] at hstep
      obtain ⟨⟨hblock, hcall⟩, rfl⟩ := hstep
      cases block with
      | progressDidUpdate w info => exact h.return_progress hblock hcall
      | didFinish w =>
          obtain ⟨rfl, hfree⟩ := h.return_finish hblock hcall
          exact ⟨_, by simp [slotStep], hfree⟩
  | setDelegate delegate =>
      simp only [Downloader.step, Option.some.injEq] at hstep
      obtain rfl := hstep
      exact h.congr rfl rfl rfl rfl Or.inl id
  | work w a =>
      obtain ⟨pc, pc', effect, hpc, hnext, rfl⟩ := step_work_iff.mp hstep
      exact h.work hpc (workNext_moveEffect hnext) (work_move_kind w a)

/-- The downloader refines the slot: its runs are runs of the protocol. -/
theorem slot_refinement (T : TorrentInfo) :
    Simulation (step T) slotStep Label.move Tracks :=
  fun _ _ _ _ h hstep => h.step hstep

/-- Every reachable state of the downloader is in a phase its moves lead to. -/
theorem tracks_of_run {T : TorrentInfo} {tr : List Label} {s : State}
    (hrun : run (step T) (initWithTorrent T) tr = some s) :
    ∃ ph, run slotStep (.free 0) (tr.filterMap Label.move) = some ph ∧ Tracks s ph :=
  (slot_refinement T).run (tracks_init T) hrun

end TorrentApp.Downloader
