import TorrentApp.Downloader.Slot

set_option autoImplicit false

/-!
# The selection a worker reads

The `selected` flags are written on the main thread and read in the background.
What keeps a worker's selection still is the slot: the selection loop of
`downloadFileAtIndexes:` runs only while the slot is free, and a worker reads
the flags only while it holds it.
-/

namespace TorrentApp.Downloader

open TorrentApp.Foundation

variable {T : TorrentInfo}

/-! ## Loop positions stay inside the file list -/

/-- The file a position is about to handle exists. -/
def PC.InRange (T : TorrentInfo) : PC → Prop
  | .filePriority i => i < T.count
  | .pollFile _ _ i => i < T.count
  | .printFile _ i => i < T.count
  | _ => True

theorem nextPriority_inRange (T : TorrentInfo) (i : Nat) : (nextPriority T i).InRange T := by
  unfold nextPriority
  split
  · assumption
  · trivial

theorem nextPoll_inRange (T : TorrentInfo) (st : TorrentStatus) (progress : List Nat) (i : Nat) :
    (nextPoll T st progress i).InRange T := by
  unfold nextPoll
  split
  · assumption
  · trivial

theorem nextPrint_inRange (T : TorrentInfo) (st : TorrentStatus) (i : Nat) :
    (nextPrint T st i).InRange T := by
  unfold nextPrint
  split
  · assumption
  · trivial

theorem workNext_inRange {sh : Shared} {w : Nat} {pc pc' : PC} {a : Work} {effect : Effect}
    (h : workNext T sh w pc a = some (pc', effect)) : pc'.InRange T := by
  cases workStep_of_workNext h with
  | added => exact nextPriority_inRange T 0
  | filePriority i => exact nextPriority_inRange T (i + 1)
  | fileProgress st progress => exact nextPoll_inRange T st progress 0
  | writeFile st progress i => exact nextPoll_inRange T st progress (i + 1)
  | passFile st progress i => exact nextPoll_inRange T st progress (i + 1)
  | print st => exact nextPrint_inRange T st 0
  | printFile st i => exact nextPrint_inRange T st (i + 1)
  | _ => trivial

theorem inRange_of_run {tr : List Label} {s : State}
    (hrun : run (step T) (initWithTorrent T) tr = some s) :
    ∀ w pc, s.workers w = some pc → pc.InRange T := by
  refine run_induction (motive := fun _ s => ∀ w pc, s.workers w = some pc → pc.InRange T)
    (fun _ _ h => by cases h) ?_ hrun
  intro tr s l s' _ ih hstep w pc hpc
  cases step_worker hstep hpc with
  | stood _ _ hbefore => exact ih w pc hbefore
  | queued _ _ hqueued => subst hqueued; trivial
  | moved a qc effect _ _ hnext _ => exact workNext_inRange hnext

/-- Activity is never regained. -/
theorem active_of_workNext {sh : Shared} {w : Nat} {pc pc' : PC} {a : Work} {effect : Effect}
    (h : workNext T sh w pc a = some (pc', effect)) (hactive : pc'.active = true) :
    pc.active = true := by
  have heff := workNext_moveEffect h
  cases hm : a.move w with
  | none => rw [hm] at heff; rw [← heff.1, hactive]
  | some k =>
      rw [hm] at heff
      rcases work_move_kind w a k hm with rfl | rfl | rfl <;> exact heff.1

/-! ## Worker numbers are not reused -/

/-- A worker that was dispatched or moved earlier in the run is numbered below
the next one. -/
theorem known_of_run {tr : List Label} {s : State}
    (hrun : run (step T) (initWithTorrent T) tr = some s) {l : Label} (hl : l ∈ tr) {w : Nat}
    (hw : l.dispatched = some w ∨ ∃ a, l = .work w a) : w < s.nextWorker := by
  refine run_induction (motive := fun tr s => ∀ l ∈ tr, ∀ w,
    (l.dispatched = some w ∨ ∃ a, l = .work w a) → w < s.nextWorker)
    (fun _ h => by cases h) ?_ hrun l hl w hw
  intro tr s l s' hprefix ih hstep k hk v hv
  have hmono : s.nextWorker ≤ s'.nextWorker := by
    cases step_workers hstep with
    | quiet _ _ _ hnext _ => exact hnext.ge
    | dispatch _ _ _ _ hnext _ => omega
    | move w a pc pc' effect _ _ _ hafter => rw [hafter, moveWorker_nextWorker]
  rcases List.mem_append.mp hk with hold | hnew
  · exact lt_of_lt_of_le (ih k hold v hv) hmono
  · obtain rfl := List.mem_singleton.mp hnew
    cases step_workers hstep with
    | quiet hlabel hnot _ _ _ =>
        rcases hv with hd | ⟨a, ha⟩
        · rw [hlabel] at hd; cases hd
        · exact absurd ha (hnot v a)
    | dispatch hlabel hnot _ _ hnext _ =>
        rcases hv with hd | ⟨a, ha⟩
        · rw [hlabel, Option.some.injEq] at hd; omega
        · exact absurd ha (hnot v a)
    | move w a pc pc' effect hlabel hpc _ hafter =>
        subst hlabel
        rcases hv with hd | ⟨b, hb⟩
        · cases hd
        · cases hb
          obtain ⟨ph, -, htracks⟩ := tracks_of_run hprefix
          by_contra hge
          rw [htracks.fresh v (by omega)] at hpc
          cases hpc

/-! ## The flags stand still while a worker may read them -/

/-- The selection loop has already written the files before its position. -/
theorem selecting_of_run {tr : List Label} {s : State}
    (hrun : run (step T) (initWithTorrent T) tr = some s) :
    ∀ indexes j, s.call = some (.selecting indexes j) →
      ∀ i < j, s.selected i = indexes.contains i := by
  refine run_induction (motive := fun _ s => ∀ indexes j,
    s.call = some (.selecting indexes j) → ∀ i < j, s.selected i = indexes.contains i)
    (fun _ _ h => by cases h) ?_ hrun
  intro tr s l s' _ ih hstep indexes j hcall i hi
  cases step_selected hstep with
  | keep hsel hentered =>
      rcases hentered indexes j hcall with rfl | hold
      · omega
      · rw [hsel]; exact ih indexes j hold i hi
  | turn indexes' k hbefore hsel hafter _ =>
      rw [hafter, Option.some.injEq, Call.selecting.injEq] at hcall
      obtain ⟨rfl, rfl⟩ := hcall
      rw [hsel]
      by_cases hik : i = k
      · subst hik; rw [Function.update_self]
      · rw [Function.update_of_ne hik]
        exact ih _ k hbefore i (by omega)

/-- When a tap starts a worker, the flags are the tap's index set. -/
theorem startSelected_flags {tr : List Label} {s s' : State} {indexes : List Nat}
    {d : Option Nat} (hrun : run (step T) (initWithTorrent T) tr = some s)
    (hstep : step T s (.startSelected indexes d) = some s') :
    ∀ i < T.count, s'.selected i = indexes.contains i := by
  simp only [step] at hstep
  split at hstep
  · next indexes' j hcall =>
      simp only [Option.ite_none_right_eq_some, Option.some.injEq] at hstep
      obtain ⟨⟨rfl, rfl, -⟩, rfl⟩ := hstep
      simpa using selecting_of_run hrun _ _ hcall
  · cases hstep

/-- In every reachable state, while a worker that a tap started is active the
flags are still the index set of that tap. -/
theorem flags_of_active {tr : List Label} {s : State}
    (hrun : run (step T) (initWithTorrent T) tr = some s) :
    ∀ indexes w pc, .startSelected indexes (some w) ∈ tr → s.workers w = some pc →
      pc.active = true → ∀ i < T.count, s.selected i = indexes.contains i := by
  refine run_induction (motive := fun tr s => ∀ indexes w pc,
    .startSelected indexes (some w) ∈ tr → s.workers w = some pc → pc.active = true →
      ∀ i < T.count, s.selected i = indexes.contains i) (fun _ _ _ h => by cases h) ?_ hrun
  intro tr s l s' hprefix ih hstep indexes w pc hmem hpc hactive
  rcases List.mem_append.mp hmem with hold | hnew
  · have hknown : w < s.nextWorker := known_of_run hprefix hold (Or.inl rfl)
    -- the worker was active before the step as well: activity is never regained
    have hbefore : ∃ qc, s.workers w = some qc ∧ qc.active = true := by
      cases step_worker hstep hpc with
      | stood _ _ hbefore => exact ⟨pc, hbefore, hactive⟩
      | queued _ hnew _ => omega
      | moved a qc effect _ hqc hnext _ => exact ⟨qc, hqc, active_of_workNext hnext hactive⟩
    obtain ⟨qc, hqc, hqa⟩ := hbefore
    cases step_selected hstep with
    | keep hsel _ => rw [hsel]; exact ih indexes w qc hold hqc hqa
    | turn _ _ hcall _ _ _ =>
        obtain ⟨ph, -, htracks⟩ := tracks_of_run hprefix
        have hfree := htracks.eq_free_of_selecting hcall
        rw [htracks.holder w qc hqc hqa] at hfree
        cases hfree
  · obtain rfl := List.mem_singleton.mp hnew
    exact startSelected_flags hprefix hstep

/-! ## What the reads saw -/

/-- A step that reads a flag read `flags`: the priority is 7 for a selected file
and 0 for any other, progress is written to selected files only, and only those
are printed. -/
def Work.Agrees (T : TorrentInfo) (flags : Nat → Bool) : Work → Prop
  | .filePriority i priority => i < T.count ∧ priority = if flags i then 7 else 0
  | .pollFile i wrote => i < T.count ∧ wrote.isSome = flags i
  | .printFile i printed => i < T.count ∧ printed = flags i
  | _ => True

theorem polled_isSome {sh : Shared} {progress : List Nat} {i : Nat} {wrote : Option Single}
    (h : polled T sh progress i = some wrote) : wrote.isSome = sh.selected i := by
  unfold polled at h
  split at h
  · next hsel =>
      split at h
      · cases h; exact hsel.symm
      · cases h
  · next hsel =>
      cases h
      simpa using hsel

theorem workNext_agrees {sh : Shared} {w : Nat} {pc pc' : PC} {a : Work} {effect : Effect}
    (h : workNext T sh w pc a = some (pc', effect)) (hrange : pc.InRange T) :
    a.Agrees T sh.selected := by
  cases workStep_of_workNext h with
  | filePriority i => exact ⟨hrange, rfl⟩
  | writeFile st progress i value hread => exact ⟨hrange, polled_isSome hread⟩
  | passFile st progress i hread => exact ⟨hrange, polled_isSome hread⟩
  | printFile st i => exact ⟨hrange, rfl⟩
  | _ => trivial

/-- A step that reads a flag is a step of an active worker. -/
theorem active_of_reads {sh : Shared} {w : Nat} {pc pc' : PC} {a : Work} {effect : Effect}
    (h : workNext T sh w pc a = some (pc', effect)) :
    pc.active = true ∨ ∀ flags, a.Agrees T flags := by
  cases workStep_of_workNext h with
  | leave exit => exact Or.inr fun _ => trivial
  | _ => exact Or.inl rfl

theorem Work.Agrees.congr {flags flags' : Nat → Bool} {a : Work} (h : a.Agrees T flags)
    (heq : ∀ i < T.count, flags i = flags' i) : a.Agrees T flags' := by
  cases a with
  | filePriority i priority => exact ⟨h.1, by rw [← heq i h.1]; exact h.2⟩
  | pollFile i wrote => exact ⟨h.1, h.2.trans (heq i h.1)⟩
  | printFile i printed => exact ⟨h.1, h.2.trans (heq i h.1)⟩
  | _ => trivial

/-- Every flag a tapped worker has read in the run was the tap's. -/
theorem reads_agree {tr : List Label} {s : State}
    (hrun : run (step T) (initWithTorrent T) tr = some s) :
    ∀ indexes w a, .startSelected indexes (some w) ∈ tr → .work w a ∈ tr →
      a.Agrees T indexes.contains := by
  refine run_induction (motive := fun tr _ => ∀ indexes w a,
    .startSelected indexes (some w) ∈ tr → .work w a ∈ tr → a.Agrees T indexes.contains)
    (fun _ _ _ h => by cases h) ?_ hrun
  intro tr s l s' hprefix ih hstep indexes w a htap hwork
  rcases List.mem_append.mp htap with htapOld | htapNew
  · rcases List.mem_append.mp hwork with hworkOld | hworkNew
    · exact ih indexes w a htapOld hworkOld
    · obtain rfl := List.mem_singleton.mp hworkNew
      obtain ⟨pc, pc', effect, hpc, hnext, -⟩ := step_work_iff.mp hstep
      rcases active_of_reads hnext with hactive | hany
      · have hflags := flags_of_active hprefix indexes w pc htapOld hpc hactive
        exact (workNext_agrees hnext (inRange_of_run hprefix w pc hpc)).congr hflags
      · exact hany _
  · -- a worker does not move before it is dispatched
    obtain rfl := List.mem_singleton.mp htapNew
    have hworkOld : .work w a ∈ tr := by simpa using hwork
    have hknown := known_of_run hprefix hworkOld (Or.inr ⟨a, rfl⟩)
    cases step_workers hstep with
    | quiet hlabel _ _ _ _ => cases hlabel
    | dispatch hlabel _ _ _ _ _ => cases hlabel; omega
    | move v b pc pc' effect hlabel _ _ _ => cases hlabel

/-! ## Every file gets its priority -/

/-- How many files have had their priority set when the worker is at a position
(ends before the loop count as none). -/
def PC.prioritiesSet (T : TorrentInfo) : PC → Nat
  | .queued => 0
  | .loadTorrent => 0
  | .addTorrent => 0
  | .filePriority i => i
  | .leaving .loadFailed => 0
  | .leaving .addFailed => 0
  | .done .loadFailed => 0
  | .done .addFailed => 0
  | _ => T.count

theorem nextPriority_prioritiesSet {i j : Nat} (hj : j < (nextPriority T i).prioritiesSet T)
    (hi : i ≤ T.count) : j < i := by
  unfold nextPriority at hj
  split at hj
  · exact hj
  · have : j < T.count := hj
    omega

theorem nextPoll_prioritiesSet (st : TorrentStatus) (progress : List Nat) (i : Nat) :
    (nextPoll T st progress i).prioritiesSet T = T.count := by
  unfold nextPoll; split <;> rfl

theorem nextPrint_prioritiesSet (st : TorrentStatus) (i : Nat) :
    (nextPrint T st i).prioritiesSet T = T.count := by
  unfold nextPrint; split <;> rfl

/-- A step sets at most the priority its label names. -/
theorem workNext_prioritiesSet {sh : Shared} {w : Nat} {pc pc' : PC} {a : Work} {effect : Effect}
    (h : workNext T sh w pc a = some (pc', effect)) (hrange : pc.InRange T) {j : Nat}
    (hj : j < pc'.prioritiesSet T) :
    j < pc.prioritiesSet T ∨ ∃ priority, a = .filePriority j priority := by
  cases workStep_of_workNext h with
  | added => exact Or.inl (nextPriority_prioritiesSet hj (Nat.zero_le _))
  | filePriority i =>
      have hlt := nextPriority_prioritiesSet hj hrange
      rcases Nat.lt_succ_iff_lt_or_eq.mp hlt with hlt | rfl
      · exact Or.inl hlt
      · exact Or.inr ⟨_, rfl⟩
  | fileProgress => rw [nextPoll_prioritiesSet] at hj; exact Or.inl hj
  | writeFile => rw [nextPoll_prioritiesSet] at hj; exact Or.inl hj
  | passFile => rw [nextPoll_prioritiesSet] at hj; exact Or.inl hj
  | print => rw [nextPrint_prioritiesSet] at hj; exact Or.inl hj
  | printFile => rw [nextPrint_prioritiesSet] at hj; exact Or.inl hj
  | leave exit => cases exit <;> exact Or.inl hj
  | _ => exact Or.inl hj

/-- The priorities a worker's position says are set have been set in the run. -/
theorem priorities_of_run {tr : List Label} {s : State}
    (hrun : run (step T) (initWithTorrent T) tr = some s) :
    ∀ w pc, s.workers w = some pc → ∀ j < pc.prioritiesSet T,
      ∃ priority, .work w (.filePriority j priority) ∈ tr := by
  refine run_induction (motive := fun tr s => ∀ w pc, s.workers w = some pc →
    ∀ j < pc.prioritiesSet T, ∃ priority, .work w (.filePriority j priority) ∈ tr)
    (fun _ _ h => by cases h) ?_ hrun
  intro tr s l s' hprefix ih hstep w pc hpc j hj
  have hold : ∀ qc, s.workers w = some qc → j < qc.prioritiesSet T →
      ∃ priority, .work w (.filePriority j priority) ∈ tr ++ [l] := by
    intro qc hqc hlt
    obtain ⟨priority, hmem⟩ := ih w qc hqc j hlt
    exact ⟨priority, List.mem_append_left _ hmem⟩
  cases step_worker hstep hpc with
  | stood _ _ hbefore => exact hold pc hbefore hj
  | queued _ _ hqueued => subst hqueued; cases hj
  | moved a qc effect hlabel hqc hnext _ =>
      rcases workNext_prioritiesSet hnext (inRange_of_run hprefix w qc hqc) hj with
        hlt | ⟨priority, ha⟩
      · exact hold qc hqc hlt
      · exact ⟨priority, by rw [hlabel, ha]; simp⟩

/-! ## The progress of other files -/

/-- A step whose reads agree with `flags` changes the progress of a file that they
select, or of none. -/
theorem progress_of_agrees {s s' : State} {w : Nat} {a : Work} {flags : Nat → Bool}
    (hstep : step T s (.work w a) = some s') (hagrees : a.Agrees T flags) {i : Nat}
    (hi : flags i = false) : s'.progress i = s.progress i := by
  cases step_progress hstep with
  | keep hprogress => rw [hprogress]
  | poll v j st bytes value hlabel _ _ hprogress =>
      cases hlabel
      have hselected : true = flags j := hagrees.2
      have hne : i ≠ j := by
        rintro rfl
        rw [hi] at hselected
        cases hselected
      rw [hprogress, Function.update_of_ne hne]

/-- A worker keeps the selection it was started with, over any number of
downloads: whenever it may read the flags they are the index set of the tap that
started it, every flag it has read was that, once it is in its loop it has set
priority 7 for exactly those files and 0 for all others, and none of its steps has
changed the progress of any other file. -/
theorem worker_keeps_selection (T : TorrentInfo) {tr : List Label} {s : State}
    (hrun : run (step T) (initWithTorrent T) tr = some s) {indexes : List Nat} {w : Nat}
    (htap : .startSelected indexes (some w) ∈ tr) :
    (∀ pc, s.workers w = some pc → pc.active = true →
      ∀ i < T.count, s.selected i = indexes.contains i) ∧
    (∀ a, .work w a ∈ tr → a.Agrees T indexes.contains) ∧
    (∀ pc, s.workers w = some pc → pc.prioritiesSet T = T.count → ∀ i < T.count,
      .work w (.filePriority i (if indexes.contains i then 7 else 0)) ∈ tr) ∧
    (∀ before a after m m', tr = before ++ .work w a :: after →
      run (step T) (initWithTorrent T) before = some m → step T m (.work w a) = some m' →
        ∀ i, indexes.contains i = false → m'.progress i = m.progress i) := by
  refine ⟨fun pc hpc hactive => flags_of_active hrun indexes w pc htap hpc hactive,
    fun a ha => reads_agree hrun indexes w a htap ha, ?_, ?_⟩
  · intro pc hpc hset i hi
    obtain ⟨priority, hmem⟩ := priorities_of_run hrun w pc hpc i (hset ▸ hi)
    obtain ⟨-, hpriority⟩ := reads_agree hrun indexes w _ htap hmem
    exact hpriority ▸ hmem
  · intro before a after m m' htr _ hstep i hi
    have hmem : .work w a ∈ tr := by
      rw [htr]
      exact List.mem_append_right before List.mem_cons_self
    exact progress_of_agrees hstep (reads_agree hrun indexes w a htap hmem) hi

/-- Two visible files of one byte each. -/
def twoFiles : TorrentInfo :=
  ⟨1, 2, [⟨"cover.png", 0, 1, false, false⟩, ⟨"notes.txt", 1, 1, false, false⟩]⟩

/-- A tap on the first of two files, and one on the second made while the first
download is in its loop, up to the step that writes progress. -/
def twoTaps : List Label :=
  [.downloadFileAtIndexes [0], .selectFile 0 true, .selectFile 1 false,
    .startSelected [0] (some 0), .setDownloading, .work 0 .begin, .work 0 (.loadTorrent true),
    .work 0 (.addTorrent true), .work 0 (.filePriority 0 7), .work 0 (.filePriority 1 0),
    .downloadFileAtIndexes [1], .work 0 (.isSeed false), .work 0 (.status completeStatus),
    .work 0 (.fileProgress [1, 1])]

/-- The loop over the two files. -/
def bothFiles : List Label := [.work 0 (.pollFile 0 (some (some 1))), .work 0 (.pollFile 1 none)]

/-- The second tap is ignored, the worker reads the first one's set, and the file of
the second tap keeps its progress although all its bytes are there. -/
theorem worker_keeps_selection_of_second_tap :
    ∃ s, run (step twoFiles) (initWithTorrent twoFiles) (twoTaps ++ bothFiles) = some s ∧
      (∀ a, .work 0 a ∈ twoTaps ++ bothFiles → a.Agrees twoFiles [0].contains) ∧
      ∃ m m', run (step twoFiles) (initWithTorrent twoFiles) twoTaps = some m ∧
        step twoFiles m (.work 0 (.pollFile 0 (some (some 1)))) = some m' ∧
        m'.progress 0 = some 1 ∧ m'.progress 1 = m.progress 1 := by
  obtain ⟨s, hrun⟩ : ∃ s, run (step twoFiles) (initWithTorrent twoFiles) (twoTaps ++ bothFiles) =
      some s := ⟨_, by with_unfolding_all rfl⟩
  have htap : .startSelected [0] (some 0) ∈ twoTaps ++ bothFiles := by simp [twoTaps]
  obtain ⟨-, hreads, -, hprogress⟩ := worker_keeps_selection twoFiles hrun htap
  obtain ⟨m, m', hbefore, hstep, hone⟩ : ∃ m m',
      run (step twoFiles) (initWithTorrent twoFiles) twoTaps = some m ∧
      step twoFiles m (.work 0 (.pollFile 0 (some (some 1)))) = some m' ∧
      m'.progress 0 = some 1 :=
    ⟨_, _, by with_unfolding_all rfl, by with_unfolding_all rfl, rfl⟩
  exact ⟨s, hrun, hreads, m, m', hbefore, hstep, hone,
    hprogress twoTaps _ [.work 0 (.pollFile 1 none)] m m' rfl hbefore hstep 1 rfl⟩

end TorrentApp.Downloader
