import TorrentApp.Downloader.Slot

set_option autoImplicit false

/-!
# The order of the delegate callbacks

`Scan` reads a sequence of callbacks and refuses the first one that is out of
order: it is the order a delegate may rely on, stated without threads.  The first
two sections say what an accepted sequence looks like; the rest shows that the
blocks started on the main queue, followed by those still waiting there, are
always accepted.
-/

namespace TorrentApp.Downloader

open TorrentApp.Foundation

/-! ## Accepted sequences -/

/-- The worker that queued a block. -/
def Block.worker : Block → Nat
  | .progressDidUpdate w _ => w
  | .didFinish w => w

/-- What a reader of callbacks has seen last. -/
inductive Scan where
  /-- no worker is half way; the next one is numbered `next` or higher -/
  | closed (next : Nat)
  /-- worker `w` has reported and not finished -/
  | opened (w : Nat)
  deriving DecidableEq, Repr

/-- One callback; out of order it is refused. -/
def scanStep : Scan → Block → Option Scan
  | .closed next, .progressDidUpdate w _ => if next ≤ w then some (.opened w) else none
  | .opened w, .progressDidUpdate w' _ => if w' = w then some (.opened w) else none
  | .opened w, .didFinish w' => if w' = w then some (.closed (w + 1)) else none
  | .closed _, .didFinish _ => none

/-- No worker numbered below it is heard of any more. -/
def Scan.floor : Scan → Nat
  | .closed next => next
  | .opened w => w

/-- What one accepted callback tells: the floor rises to its worker, and past it
when the callback was the finish of the worker that was open. -/
theorem scanStep_some {sc sc' : Scan} {b : Block} (h : scanStep sc b = some sc') :
    sc.floor ≤ b.worker ∧ b.worker ≤ sc'.floor ∧
      ∀ w, b = .didFinish w → sc = .opened w ∧ sc' = .closed (w + 1) := by
  cases sc <;> cases b <;> simp [scanStep] at h <;> obtain ⟨hw, rfl⟩ := h <;>
    simp [Scan.floor, Block.worker, hw]

theorem scan_floor_le {bs : List Block} {sc sc' : Scan} (h : run scanStep sc bs = some sc') :
    ∀ b ∈ bs, sc.floor ≤ b.worker := by
  induction bs generalizing sc with
  | nil => simp
  | cons b bs ih =>
      obtain ⟨mid, hstep, hrest⟩ := run_cons.mp h
      obtain ⟨hlow, hhigh, -⟩ := scanStep_some hstep
      intro c hc
      rcases List.mem_cons.mp hc with rfl | hc
      · exact hlow
      · exact hlow.trans (hhigh.trans (ih hrest c hc))

/-- Workers never step back in the sequence, and after the finish of a worker
only later ones follow. -/
theorem scan_pairwise {bs : List Block} {sc sc' : Scan} (h : run scanStep sc bs = some sc') :
    bs.Pairwise fun b c =>
      b.worker ≤ c.worker ∧ (b = .didFinish b.worker → b.worker < c.worker) := by
  induction bs generalizing sc with
  | nil => exact List.Pairwise.nil
  | cons b bs ih =>
      obtain ⟨mid, hstep, hrest⟩ := run_cons.mp h
      obtain ⟨-, hhigh, hfinish⟩ := scanStep_some hstep
      refine List.Pairwise.cons (fun c hc => ?_) (ih hrest)
      have hfloor := scan_floor_le hrest c hc
      refine ⟨hhigh.trans hfloor, fun hb => ?_⟩
      obtain ⟨-, rfl⟩ := hfinish _ hb
      exact hfloor

/-- A worker that is open has reported. -/
theorem scan_reported {bs : List Block} {n w : Nat}
    (h : run scanStep (.closed n) bs = some (.opened w)) :
    ∃ info, .progressDidUpdate w info ∈ bs := by
  refine run_induction (motive := fun bs sc =>
    ∀ w, sc = .opened w → ∃ info, .progressDidUpdate w info ∈ bs) (by simp) ?_ h w rfl
  intro bs sc b sc' _ ih hstep w hw
  subst hw
  cases sc <;> cases b <;> simp [scanStep] at hstep
  case closed.progressDidUpdate next v info => exact ⟨info, by simp [hstep.2]⟩
  case opened.progressDidUpdate v v' info => exact ⟨info, by simp [hstep.1, hstep.2]⟩

/-- In an accepted sequence a worker finishes after it has reported. -/
theorem scan_finish_reported {bs xs ys : List Block} {n w : Nat} {sc : Scan}
    (h : run scanStep (.closed n) bs = some sc) (hbs : bs = xs ++ .didFinish w :: ys) :
    ∃ info, .progressDidUpdate w info ∈ xs := by
  subst hbs
  obtain ⟨mid, mid', hxs, hstep, -⟩ := run_split h
  obtain ⟨-, -, hfinish⟩ := scanStep_some hstep
  obtain ⟨rfl, -⟩ := hfinish w rfl
  exact scan_reported hxs

/-- In an accepted sequence a worker finishes at most once. -/
theorem scan_count_finish {bs : List Block} {sc sc' : Scan}
    (h : run scanStep sc bs = some sc') (w : Nat) : bs.count (.didFinish w) ≤ 1 := by
  induction bs generalizing sc with
  | nil => simp
  | cons b bs ih =>
      obtain ⟨mid, hstep, hrest⟩ := run_cons.mp h
      by_cases hb : b = .didFinish w
      · obtain ⟨-, -, hfinish⟩ := scanStep_some hstep
        obtain ⟨-, rfl⟩ := hfinish w hb
        have hnone : .didFinish w ∉ bs := by
          intro hmem
          have hfloor : w + 1 ≤ w := scan_floor_le hrest _ hmem
          omega
        rw [hb, List.count_cons_self, List.count_eq_zero_of_not_mem hnone]
      · rw [List.count_cons_of_ne hb]
        exact ih hrest

/-! ## The groups of an accepted sequence -/

/-- The callbacks of one worker: its reports, then its finish. -/
structure Group where
  worker : Nat
  reports : List BTDownloadInfo
  reported : reports ≠ []

def Group.callbacks (g : Group) : List Block :=
  g.reports.map (.progressDidUpdate g.worker) ++ [.didFinish g.worker]

/-- The accepted sequence `bs` in groups: complete ones, and when a worker is
open its reports so far. -/
def Grouped (bs : List Block) : Scan → Prop
  | .closed next =>
      ∃ groups : List Group, bs = groups.flatMap Group.callbacks ∧
        (groups.map Group.worker).Pairwise (· < ·) ∧ ∀ g ∈ groups, g.worker < next
  | .opened w =>
      ∃ groups : List Group, ∃ reports : List BTDownloadInfo, reports ≠ [] ∧
        bs = groups.flatMap Group.callbacks ++ reports.map (.progressDidUpdate w) ∧
        (groups.map Group.worker).Pairwise (· < ·) ∧ ∀ g ∈ groups, g.worker < w

/-- Appending a group with a later worker keeps the workers increasing. -/
theorem pairwise_concat_group {groups : List Group} {g : Group}
    (hsorted : (groups.map Group.worker).Pairwise (· < ·))
    (hlast : ∀ g' ∈ groups, g'.worker < g.worker) :
    ((groups ++ [g]).map Group.worker).Pairwise (· < ·) := by
  rw [List.map_append, List.pairwise_append]
  refine ⟨hsorted, by simp, ?_⟩
  intro a ha b hb
  obtain ⟨g', hg', rfl⟩ := List.mem_map.mp ha
  rw [List.map_singleton, List.mem_singleton] at hb
  exact hb ▸ hlast g' hg'

theorem grouped_of_scan {bs : List Block} {sc : Scan}
    (h : run scanStep (.closed 0) bs = some sc) : Grouped bs sc := by
  have hempty : Grouped [] (.closed 0) := ⟨[], rfl, by simp, by simp⟩
  refine run_induction (motive := Grouped) hempty ?_ h
  intro bs sc b sc' _ ih hstep
  cases sc <;> cases b <;> simp only [scanStep, reduceCtorEq, Option.ite_none_right_eq_some,
    Option.some.injEq] at hstep
  case closed.progressDidUpdate next w info =>
    obtain ⟨hle, rfl⟩ := hstep
    obtain ⟨groups, rfl, hsorted, hbelow⟩ := ih
    exact ⟨groups, [info], by simp, rfl, hsorted, fun g hg => (hbelow g hg).trans_le hle⟩
  case opened.progressDidUpdate w w' info =>
    obtain ⟨rfl, rfl⟩ := hstep
    obtain ⟨groups, reports, -, rfl, hsorted, hbelow⟩ := ih
    exact ⟨groups, reports ++ [info], by simp, by simp, hsorted, hbelow⟩
  case opened.didFinish w w' =>
    obtain ⟨rfl, rfl⟩ := hstep
    obtain ⟨groups, reports, hne, rfl, hsorted, hbelow⟩ := ih
    refine ⟨groups ++ [⟨w', reports, hne⟩], by simp [Group.callbacks],
      pairwise_concat_group hsorted hbelow, fun g hg => ?_⟩
    rcases List.mem_append.mp hg with hold | hnew
    · exact (hbelow g hold).trans (Nat.lt_succ_self w')
    · rw [List.mem_singleton.mp hnew]
      exact Nat.lt_succ_self w'

/-- An accepted sequence is a prefix of complete groups of increasing workers. -/
theorem prefix_of_groups {bs : List Block} {sc : Scan}
    (h : run scanStep (.closed 0) bs = some sc) :
    ∃ groups : List Group, bs <+: groups.flatMap Group.callbacks ∧
      (groups.map Group.worker).Pairwise (· < ·) := by
  have hgrouped := grouped_of_scan h
  cases sc with
  | closed next =>
      obtain ⟨groups, rfl, hsorted, -⟩ := hgrouped
      exact ⟨groups, List.prefix_rfl, hsorted⟩
  | opened w =>
      obtain ⟨groups, reports, hne, rfl, hsorted, hbelow⟩ := hgrouped
      refine ⟨groups ++ [⟨w, reports, hne⟩], ⟨[.didFinish w], ?_⟩,
        pairwise_concat_group hsorted hbelow⟩
      simp [Group.callbacks]

/-! ## The blocks of a run -/

/-- The delegate is alive and implements both methods whenever a worker looks at
it and whenever a callback is sent to it. -/
def Attached (s : State) : Label → Prop
  | .work _ _ => s.delegate = some detailList
  | .runBlock _ _ => s.delegate = some detailList
  | _ => True

/-- The block a label starts on the main thread. -/
def Label.started : Label → Option Block
  | .runBlock b _ => some b
  | _ => none

/-- The callback a label delivers to the delegate. -/
def Label.callback : Label → Option Block
  | .runBlock b true => some b
  | _ => none

/-- The callbacks the delegate received during a run, in order. -/
def callbacks (tr : List Label) : List Block := tr.filterMap Label.callback

/-- The blocks a run has queued: those it started, then those still waiting. -/
def queued (tr : List Label) (s : State) : List Block :=
  tr.filterMap Label.started ++ s.mainQueue

/-- With a delegate attached every block that starts is a callback. -/
theorem started_eq_callbacks {T : TorrentInfo} {tr : List Label} {s₀ s : State}
    (hrun : run (step T) s₀ tr = some s) (hall : AllSteps (step T) Attached s₀ tr) :
    tr.filterMap Label.started = callbacks tr := by
  refine run_induction_of_allSteps
    (motive := fun tr _ => tr.filterMap Label.started = callbacks tr) rfl ?_ hrun hall
  intro tr s l s' _ ih hgood hstep
  have hlabel : l.started = l.callback := by
    cases l with
    | runBlock b delivered =>
        have hdel : s.delegate = some detailList := hgood
        simp only [step] at hstep
        split at hstep
        · simp only [Option.ite_none_right_eq_some] at hstep
          obtain ⟨⟨-, -, -, hdelivers⟩, -⟩ := hstep
          rw [hdel] at hdelivers
          cases delivered with
          | true => rfl
          | false => cases b <;> cases hdelivers
        · cases hstep
    | _ => rfl
  rw [callbacks, List.filterMap_append, List.filterMap_append, ih, callbacks,
    List.filterMap_cons, List.filterMap_cons, hlabel]
  rfl

/-- A label that is not a worker step queues nothing: the main queue is FIFO. -/
theorem queued_of_main {T : TorrentInfo} {tr : List Label} {s s' : State} {l : Label}
    (hstep : step T s l = some s') (hnot : ∀ w a, l ≠ .work w a) :
    queued (tr ++ [l]) s' = queued tr s := by
  unfold queued
  rw [List.filterMap_append, List.append_assoc]
  congr 1
  cases l with
  | work w a => exact absurd rfl (hnot w a)
  | runBlock b delivered =>
      simp only [step] at hstep
      split at hstep
      · next oldest rest hqueue =>
          simp only [Option.ite_none_right_eq_some, Option.some.injEq] at hstep
          obtain ⟨⟨-, -, rfl, -⟩, rfl⟩ := hstep
          simp [Label.started, hqueue]
      · cases hstep
  | startDownload d =>
      simp only [step, Option.ite_none_right_eq_some, Option.some.injEq] at hstep
      obtain ⟨-, rfl⟩ := hstep
      exact startDownload_mainQueue s
  | startSelected indexes d =>
      simp only [step] at hstep
      split at hstep
      · simp only [Option.ite_none_right_eq_some, Option.some.injEq] at hstep
        obtain ⟨-, rfl⟩ := hstep
        exact startDownload_mainQueue _
      · cases hstep
  | setDownloading =>
      simp only [step, Option.ite_none_right_eq_some, Option.some.injEq] at hstep
      obtain ⟨-, rfl⟩ := hstep
      rfl
  | downloadFileAtIndexes indexes =>
      simp only [step, Option.ite_none_right_eq_some, Option.some.injEq] at hstep
      obtain ⟨-, rfl⟩ := hstep
      split <;> rfl
  | selectFile i value =>
      simp only [step] at hstep
      split at hstep
      · simp only [Option.ite_none_right_eq_some, Option.some.injEq] at hstep
        obtain ⟨-, rfl⟩ := hstep
        rfl
      · cases hstep
  | returnBlock b =>
      simp only [step, Option.ite_none_right_eq_some, Option.some.injEq] at hstep
      obtain ⟨-, rfl⟩ := hstep
      cases b <;> rfl
  | setDelegate d =>
      simp only [step, Option.some.injEq] at hstep
      obtain rfl := hstep
      rfl

/-- A worker step queues the blocks of its effect, behind all others. -/
theorem queued_of_work {tr : List Label} {s : State} {w : Nat} {a : Work} {pc : PC}
    {effect : Effect} :
    queued (tr ++ [.work w a]) (s.moveWorker w pc effect) = queued tr s ++ effect.blocks := by
  simp [queued, Label.started]

/-! ## What has been queued fits the phase -/

/-- Past `notifyProgress` in the current turn of the loop. -/
def PC.reported : PC → Bool
  | .checkProgress _ => true
  | .notifyFinish => true
  | .sleep => true
  | _ => false

/-- What a reader of all queued blocks has seen, by the phase of the slot. -/
def State.Fits (s : State) (sc : Scan) : Phase → Prop
  | .free n => ∃ m ≤ n, sc = .closed m
  | .running w =>
      sc = .opened w ∨
        (∃ m ≤ w, sc = .closed m) ∧ ∀ pc, s.workers w = some pc → pc.reported = false
  | .finishing w => sc = .closed (w + 1)
  | .lost _ => True

@[simp] theorem nextPriority_reported (T : TorrentInfo) (i : Nat) :
    (nextPriority T i).reported = false := by
  unfold nextPriority; split <;> rfl

@[simp] theorem nextPoll_reported (T : TorrentInfo) (st : TorrentStatus) (progress : List Nat)
    (i : Nat) : (nextPoll T st progress i).reported = false := by
  unfold nextPoll; split <;> rfl

@[simp] theorem nextPrint_reported (T : TorrentInfo) (st : TorrentStatus) (i : Nat) :
    (nextPrint T st i).reported = false := by
  unfold nextPrint; split <;> rfl

/-- With a delegate attached a worker gets past `notifyProgress` by a report, and
finishes past it. -/
theorem workNext_reported {T : TorrentInfo} {sh : Shared} {w : Nat} {pc pc' : PC} {a : Work}
    {effect : Effect} (h : workNext T sh w pc a = some (pc', effect))
    (hdel : sh.delegate = some detailList) :
    match a.move w with
    | some (.report _) => True
    | some (.finish _) => pc.reported = true
    | _ => pc'.reported = true → pc.reported = true := by
  cases workStep_of_workNext h with
  | noReport st hdeaf => simp [hdel, respondsToProgress, detailList] at hdeaf
  | noFinish hdeaf => simp [hdel, respondsToFinish, detailList] at hdeaf
  | added => simp [Work.move]
  | filePriority => simp [Work.move]
  | fileProgress => simp [Work.move]
  | writeFile => simp [Work.move]
  | passFile => simp [Work.move]
  | print => simp [Work.move]
  | printFile => simp [Work.move]
  | _ => simp [Work.move, PC.reported]

/-- The slot move of a main-thread label. -/
theorem main_move {l : Label} (hnot : ∀ w a, l ≠ .work w a) :
    l.move = l.dispatched.map .start ∨ ∃ w, l.move = some (.release w) := by
  cases l with
  | work w a => exact absurd rfl (hnot w a)
  | startDownload d => cases d <;> exact Or.inl rfl
  | startSelected indexes d => cases d <;> exact Or.inl rfl
  | returnBlock b =>
      cases b with
      | progressDidUpdate w info => exact Or.inl rfl
      | didFinish w => exact Or.inr ⟨w, rfl⟩
  | _ => exact Or.inl rfl

theorem slotStep_start {ph ph' : Phase} {w : Nat} (h : slotStep ph (.start w) = some ph') :
    ph = .free w ∧ ph' = .running w := by
  cases ph <;> simp [slotStep] at h
  obtain ⟨rfl, rfl⟩ := h
  exact ⟨rfl, rfl⟩

theorem slotStep_release {ph ph' : Phase} {w : Nat} (h : slotStep ph (.release w) = some ph') :
    ph = .finishing w ∧ ph' = .free (w + 1) := by
  cases ph <;> simp [slotStep] at h
  obtain ⟨rfl, rfl⟩ := h
  exact ⟨rfl, rfl⟩

theorem slotStep_running {ph ph' : Phase} {w : Nat} {m : Move} (h : slotStep ph m = some ph')
    (hm : m = .report w ∨ m = .finish w ∨ m = .abandon w) : ph = .running w := by
  rcases hm with rfl | rfl | rfl <;> cases ph <;> simp [slotStep] at h <;> rw [h.1]

/-- A step of the main thread queues nothing and keeps the fit. -/
theorem fits_main {T : TorrentInfo} {s s' : State} {l : Label} {ph : Phase} {sc : Scan}
    (htracks : Tracks s ph) (hfits : s.Fits sc ph) (hstep : step T s l = some s')
    (hnot : ∀ w a, l ≠ .work w a) : ∃ ph', Tracks s' ph' ∧ s'.Fits sc ph' := by
  have hmatched := htracks.step hstep
  rcases main_move hnot with hmove | ⟨w, hmove⟩ <;> rw [hmove] at hmatched
  · cases step_workers hstep with
    | move w a _ _ _ hlabel _ _ _ => exact absurd hlabel (hnot w a)
    | quiet hlabel _ hworkers _ _ =>
        rw [hlabel] at hmatched
        refine ⟨ph, hmatched, ?_⟩
        cases ph with
        | running w => simpa [State.Fits, hworkers] using hfits
        | _ => exact hfits
    | dispatch hlabel _ _ hworkers _ _ =>
        rw [hlabel] at hmatched
        obtain ⟨ph', hslot, htracks'⟩ := hmatched
        obtain ⟨rfl, rfl⟩ := slotStep_start hslot
        refine ⟨_, htracks', Or.inr ⟨hfits, fun pc hpc => ?_⟩⟩
        rw [hworkers, Function.update_self, Option.some.injEq] at hpc
        exact hpc ▸ rfl
  · obtain ⟨ph', hslot, htracks'⟩ := hmatched
    obtain ⟨rfl, rfl⟩ := slotStep_release hslot
    exact ⟨_, htracks', w + 1, le_rfl, hfits⟩

/-- A worker step of an attached downloader queues blocks that are read in
order. -/
theorem fits_work {T : TorrentInfo} {s s' : State} {w : Nat} {a : Work} {pc pc' : PC}
    {effect : Effect} {ph : Phase} {sc : Scan} (htracks : Tracks s ph) (hfits : s.Fits sc ph)
    (hdel : s.delegate = some detailList) (hstep : step T s (.work w a) = some s')
    (hpc : s.workers w = some pc) (hnext : workNext T s.shared w pc a = some (pc', effect))
    (hs' : s' = s.moveWorker w pc' effect) :
    ∃ ph' sc', Tracks s' ph' ∧ run scanStep sc effect.blocks = some sc' ∧ s'.Fits sc' ph' := by
  have hmatched := htracks.step hstep
  have heff := workNext_moveEffect hnext
  have hreported := workNext_reported hnext hdel
  have hkind := work_move_kind w a
  change Matched slotStep Tracks ph s' (a.move w) at hmatched
  cases hmove : a.move w with
  | none =>
      rw [hmove] at hmatched heff hreported
      refine ⟨ph, sc, hmatched, by rw [heff.2]; rfl, ?_⟩
      cases ph with
      | running v =>
          refine hfits.imp id fun ⟨hclosed, hnone⟩ => ⟨hclosed, fun qc hqc => ?_⟩
          rw [hs', moveWorker_workers] at hqc
          by_cases hv : v = w
          · subst hv
            rw [Function.update_self, Option.some.injEq] at hqc
            subst hqc
            exact Bool.eq_false_iff.mpr fun h => by
              rw [hnone pc hpc] at hreported
              exact Bool.false_ne_true (hreported h)
          · rw [Function.update_of_ne hv] at hqc
            exact hnone qc hqc
      | free n => exact hfits
      | finishing v => exact hfits
      | lost v => trivial
  | some k =>
      rw [hmove] at hmatched heff hreported
      obtain ⟨ph', hslot, htracks'⟩ := hmatched
      obtain rfl := slotStep_running hslot (hkind k hmove)
      refine ⟨ph', ?_⟩
      rcases hkind k hmove with rfl | rfl | rfl
      · obtain ⟨-, -, info, hblocks⟩ := heff
        obtain rfl : Phase.running w = ph' := by simpa [slotStep] using hslot
        refine ⟨.opened w, htracks', ?_, Or.inl rfl⟩
        rw [hblocks]
        rcases hfits with rfl | ⟨⟨m, hm, rfl⟩, -⟩
        · simp [run, scanStep]
        · simp [run, scanStep, hm]
      · obtain ⟨-, -, hblocks⟩ := heff
        obtain rfl : Phase.finishing w = ph' := by simpa [slotStep] using hslot
        refine ⟨.closed (w + 1), htracks', ?_, rfl⟩
        rw [hblocks]
        rcases hfits with rfl | ⟨-, hnone⟩
        · simp [run, scanStep]
        · -- a worker that finishes has reported in the same turn
          rw [hnone pc hpc] at hreported
          cases hreported
      · obtain ⟨-, -, hblocks⟩ := heff
        obtain rfl : Phase.lost w = ph' := by simpa [slotStep] using hslot
        exact ⟨sc, htracks', by rw [hblocks]; rfl, trivial⟩

/-- Everything an attached downloader has queued is read in order. -/
theorem queued_accepted {T : TorrentInfo} {tr : List Label} {s : State}
    (hrun : run (step T) (initWithTorrent T) tr = some s)
    (hall : AllSteps (step T) Attached (initWithTorrent T) tr) :
    ∃ sc, run scanStep (.closed 0) (queued tr s) = some sc := by
  have hinv : ∃ ph sc, Tracks s ph ∧ run scanStep (.closed 0) (queued tr s) = some sc ∧
      s.Fits sc ph := by
    refine run_induction_of_allSteps (motive := fun tr s => ∃ ph sc, Tracks s ph ∧
      run scanStep (.closed 0) (queued tr s) = some sc ∧ s.Fits sc ph)
      ⟨.free 0, .closed 0, tracks_init T, rfl, 0, le_rfl, rfl⟩ ?_ hrun hall
    rintro tr s l s' - ⟨ph, sc, htracks, hscan, hfits⟩ hgood hstep
    cases step_workers hstep with
    | quiet _ hnot _ _ _ =>
        obtain ⟨ph', htracks', hfits'⟩ := fits_main htracks hfits hstep hnot
        exact ⟨ph', sc, htracks', by rw [queued_of_main hstep hnot]; exact hscan, hfits'⟩
    | dispatch _ hnot _ _ _ _ =>
        obtain ⟨ph', htracks', hfits'⟩ := fits_main htracks hfits hstep hnot
        exact ⟨ph', sc, htracks', by rw [queued_of_main hstep hnot]; exact hscan, hfits'⟩
    | move w a pc pc' effect hlabel hpc hnext hafter =>
        subst hlabel
        obtain ⟨ph', sc', htracks', hscan', hfits'⟩ :=
          fits_work htracks hfits hgood hstep hpc hnext hafter
        refine ⟨ph', sc', htracks', ?_, hfits'⟩
        rw [hafter, queued_of_work]
        exact run_append.mpr ⟨sc, hscan, hscan'⟩
  obtain ⟨-, sc, -, hscan, -⟩ := hinv
  exact ⟨sc, hscan⟩

/-- The callbacks an attached delegate receives are read in order. -/
theorem callbacks_accepted {T : TorrentInfo} {tr : List Label} {s : State}
    (hrun : run (step T) (initWithTorrent T) tr = some s)
    (hall : AllSteps (step T) Attached (initWithTorrent T) tr) :
    ∃ sc, run scanStep (.closed 0) (callbacks tr) = some sc := by
  obtain ⟨sc, hscan⟩ := queued_accepted hrun hall
  rw [← started_eq_callbacks hrun hall]
  exact run_prefix hscan

/-- The callbacks of successive downloads never mix: they are a prefix of whole
groups, each of one worker and of later workers than the group before.  In
particular a worker finishes at most once and only after it has reported, no
callback comes after one of a later worker, and none of a worker comes after its
finish. -/
theorem callbacks_never_mix (T : TorrentInfo) {tr : List Label} {s : State}
    (hrun : run (step T) (initWithTorrent T) tr = some s)
    (hall : AllSteps (step T) Attached (initWithTorrent T) tr) :
    (∃ groups : List Group, callbacks tr <+: groups.flatMap Group.callbacks ∧
      (groups.map Group.worker).Pairwise (· < ·)) ∧
    (∀ w, (callbacks tr).count (.didFinish w) ≤ 1) ∧
    (∀ w xs ys, callbacks tr = xs ++ .didFinish w :: ys →
      ∃ info, .progressDidUpdate w info ∈ xs) ∧
    (callbacks tr).Pairwise fun b c =>
      b.worker ≤ c.worker ∧ (b = .didFinish b.worker → b.worker < c.worker) := by
  obtain ⟨sc, hscan⟩ := callbacks_accepted hrun hall
  exact ⟨prefix_of_groups hscan, scan_count_finish hscan,
    fun w xs ys hsplit => scan_finish_reported hscan hsplit, scan_pairwise hscan⟩

/-- Two downloads in a row, the second one tapped from inside the first one's
`btDownloaderDidFinishDownload:` and again after it. -/
def twoDownloads : List Label :=
  tapToLoop 0 ++ lastTurn 0 ++
    [.runBlock (.progressDidUpdate 0 (.initWithStatus completeStatus)) true,
      .returnBlock (.progressDidUpdate 0 (.initWithStatus completeStatus)),
      .runBlock (.didFinish 0) true, .startDownload none, .setDownloading,
      .returnBlock (.didFinish 0)] ++
    tapToLoop 1 ++ lastTurn 1 ++
    [.runBlock (.progressDidUpdate 1 (.initWithStatus completeStatus)) true]

theorem twoDownloads_never_mix :
    ∃ groups : List Group,
      callbacks twoDownloads <+: groups.flatMap Group.callbacks ∧
        (groups.map Group.worker).Pairwise (· < ·) := by
  have hall : AllSteps (step oneFile) Attached (initWithTorrent oneFile) twoDownloads := by
    with_unfolding_all
      exact ⟨trivial, trivial, trivial, trivial, rfl, rfl, rfl, rfl, rfl, rfl, rfl, rfl, rfl, rfl,
        rfl, rfl, rfl, rfl, trivial, rfl, trivial, trivial, trivial, trivial, trivial, trivial,
        trivial, rfl, rfl, rfl, rfl, rfl, rfl, rfl, rfl, rfl, rfl, rfl, rfl, rfl, rfl, trivial⟩
  obtain ⟨s, hrun⟩ : ∃ s, run (step oneFile) (initWithTorrent oneFile) twoDownloads = some s :=
    ⟨_, by with_unfolding_all rfl⟩
  exact (callbacks_never_mix oneFile hrun hall).1

end TorrentApp.Downloader
