import TorrentApp.Downloader.Worker
import TorrentApp.Foundation.Machine

set_option autoImplicit false

/-!
# The downloader as a labelled machine

One `TorrentDownloader`, its worker blocks on the global queue and the main
thread.  The main thread runs one main-queue block at a time, in FIFO order, and
from inside a callback or between blocks it may call `startDownload` or
`downloadFileAtIndexes:` of the detail page.  `startDownload` is two steps, the
guarded `dispatch_async` and the assignment of the flag, and the page's
selection loop is one step per file, so a background worker may move at any
point in between.

Everything a step depends on that is not in the state is in its label, and a
label also records what the step read or did, so a run is read off its labels.
-/

namespace TorrentApp.Downloader

open TorrentApp.Foundation

/-! ## State -/

/-- The call of this downloader's code the main thread is inside of. -/
inductive Call where
  /-- `startDownload`, past the `if` and before `self.downloading = YES` -/
  | startDownload
  /-- the selection loop of `downloadFileAtIndexes:`, about to write file `i` -/
  | selecting (indexes : List Nat) (i : Nat)
  deriving DecidableEq, Repr

/-- A downloader together with the main thread and its worker blocks. -/
structure State where
  downloading : Bool
  delegate : Option Delegate
  progressPrint : Bool
  /-- `files[i].selected` -/
  selected : Nat → Bool
  /-- `files[i].progress` -/
  progress : Nat → Single
  /-- blocks on the main queue that have not started, oldest first -/
  mainQueue : List Block
  /-- the main-queue block being run: its callback has not returned -/
  block : Option Block
  call : Option Call
  workers : Nat → Option PC
  /-- worker blocks are numbered in the order they were dispatched -/
  nextWorker : Nat

/-- `-[TorrentDownloader initWithTorrent:]` for a torrent that parsed. -/
def initWithTorrent (T : TorrentInfo) : State where
  downloading := false
  delegate := none
  progressPrint := !T.files.isEmpty
  selected := fun i => T.files[i]?.any fun file => !(file.isPadFile || file.hidden)
  progress := fun _ => some 0
  mainQueue := []
  block := none
  call := none
  workers := fun _ => none
  nextWorker := 0

/-- The steps of the main thread and of the workers. -/
inductive Label where
  /-- a call of `startDownload`; `dispatched` is the worker block it dispatched -/
  | startDownload (dispatched : Option Nat)
  /-- `self.downloading = YES` -/
  | setDownloading
  /-- a call of `-[DetailList downloadFileAtIndexes:]` -/
  | downloadFileAtIndexes (indexes : List Nat)
  /-- `files[i].selected = [indexes containsObject:@(i)]` -/
  | selectFile (i : Nat) (value : Bool)
  /-- after the loop: `delegate = self` and the call of `startDownload` -/
  | startSelected (indexes : List Nat) (dispatched : Option Nat)
  /-- the oldest main-queue block starts; `delivered` when the delegate got the callback -/
  | runBlock (block : Block) (delivered : Bool)
  /-- the callback returned and the rest of the block runs -/
  | returnBlock (block : Block)
  /-- the delegate is assigned, or the weak reference is zeroed -/
  | setDelegate (delegate : Option Delegate)
  | work (w : Nat) (step : Work)
  deriving DecidableEq, Repr

/-- `DetailList` implements both methods of `TorrentDownloaderDelegate`. -/
def detailList : Delegate := ⟨true, true⟩

/-! ## Pieces of a step -/

/-- The part of the state a worker step reads. -/
def State.shared (s : State) : Shared where
  delegate := s.delegate
  progressPrint := s.progressPrint
  selected := s.selected

/-- `dispatch_async(dispatch_get_global_queue(0, 0), ^{…})`. -/
def State.dispatchWorker (s : State) : State :=
  { s with
    workers := Function.update s.workers s.nextWorker (some .queued)
    nextWorker := s.nextWorker + 1 }

/-- The worker `startDownload` dispatches from this state, if any. -/
def State.dispatchee (s : State) : Option Nat :=
  if s.downloading then none else some s.nextWorker

/-- `startDownload` up to the assignment of the flag. -/
def State.startDownload (s : State) : State :=
  { (if s.downloading then s else s.dispatchWorker) with call := some .startDownload }

/-- What the callback of a block needs of the delegate: a nil delegate swallows
the message, an object without the method would raise. -/
def delivers (delegate : Option Delegate) (block : Block) (delivered : Bool) : Bool :=
  match delegate, block with
  | none, _ => !delivered
  | some d, .progressDidUpdate _ _ => delivered && d.progressDidUpdate
  | some d, .didFinish _ => delivered && d.didFinish

/-- The rest of a main-queue block after its callback returned. -/
def State.finishBlock (s : State) : Block → State
  | .progressDidUpdate _ _ => { s with block := none }
  | .didFinish _ => { s with block := none, downloading := false }

/-- Worker `w` moves to `pc`, with an effect on the downloader. -/
def State.moveWorker (s : State) (w : Nat) (pc : PC) (effect : Effect) : State :=
  let s := { s with workers := Function.update s.workers w (some pc) }
  match effect with
  | .none => s
  | .enqueue block => { s with mainQueue := s.mainQueue ++ [block] }
  | .setProgress i value => { s with progress := Function.update s.progress i value }

/-! ## The step function -/

/-- One step of the downloader of torrent `T`. -/
def step (T : TorrentInfo) (s : State) : Label → Option State
  | .startDownload dispatched =>
      if s.call = none ∧ dispatched = s.dispatchee then some s.startDownload else none
  | .setDownloading =>
      if s.call = some .startDownload then
        some { s with downloading := true, call := none }
      else none
  | .downloadFileAtIndexes indexes =>
      if s.call = none then
        some (if s.downloading then s else { s with call := some (.selecting indexes 0) })
      else none
  | .selectFile i value =>
      match s.call with
      | some (.selecting indexes j) =>
          if i = j ∧ i < T.count ∧ value = indexes.contains i then
            some { s with
              selected := Function.update s.selected i value
              call := some (.selecting indexes (i + 1)) }
          else none
      | _ => none
  | .startSelected indexes dispatched =>
      match s.call with
      | some (.selecting indexes' j) =>
          if indexes = indexes' ∧ j = T.count ∧ dispatched = s.dispatchee then
            some { s with delegate := some detailList }.startDownload
          else none
      | _ => none
  | .runBlock block delivered =>
      match s.mainQueue with
      | oldest :: rest =>
          if s.block = none ∧ s.call = none ∧ block = oldest ∧
              delivers s.delegate block delivered then
            some { s with mainQueue := rest, block := some block }
          else none
      | [] => none
  | .returnBlock block =>
      if s.block = some block ∧ s.call = none then some (s.finishBlock block) else none
  | .setDelegate delegate => some { s with delegate := delegate }
  | .work w a =>
      match s.workers w with
      | some pc => (workNext T s.shared w pc a).map fun r => s.moveWorker w r.1 r.2
      | none => none

/-! ## Projections of the pieces -/

section

variable (s : State) (w : Nat) (pc : PC) (effect : Effect)

@[simp] theorem moveWorker_workers :
    (s.moveWorker w pc effect).workers = Function.update s.workers w (some pc) := by
  cases effect <;> rfl

@[simp] theorem moveWorker_downloading :
    (s.moveWorker w pc effect).downloading = s.downloading := by
  cases effect <;> rfl

@[simp] theorem moveWorker_delegate : (s.moveWorker w pc effect).delegate = s.delegate := by
  cases effect <;> rfl

@[simp] theorem moveWorker_selected : (s.moveWorker w pc effect).selected = s.selected := by
  cases effect <;> rfl

@[simp] theorem moveWorker_block : (s.moveWorker w pc effect).block = s.block := by
  cases effect <;> rfl

@[simp] theorem moveWorker_call : (s.moveWorker w pc effect).call = s.call := by
  cases effect <;> rfl

@[simp] theorem moveWorker_nextWorker :
    (s.moveWorker w pc effect).nextWorker = s.nextWorker := by
  cases effect <;> rfl

/-- The blocks an effect appends to the main queue. -/
def Effect.blocks : Effect → List Block
  | .enqueue block => [block]
  | _ => []

@[simp] theorem moveWorker_mainQueue :
    (s.moveWorker w pc effect).mainQueue = s.mainQueue ++ effect.blocks := by
  cases effect <;> simp [State.moveWorker, Effect.blocks]

end

/-- A worker step is one `workNext` of the worker's position. -/
theorem step_work_iff {T : TorrentInfo} {s s' : State} {w : Nat} {a : Work} :
    step T s (.work w a) = some s' ↔
      ∃ pc pc' effect, s.workers w = some pc ∧
        workNext T s.shared w pc a = some (pc', effect) ∧ s' = s.moveWorker w pc' effect := by
  cases hw : s.workers w with
  | none => simp [step, hw]
  | some pc =>
      simp only [step, hw, Option.map_eq_some_iff, Prod.exists]
      constructor
      · rintro ⟨pc', effect, hnext, rfl⟩
        exact ⟨pc, pc', effect, rfl, hnext, rfl⟩
      · rintro ⟨pc, pc', effect, hpc, hnext, rfl⟩
        cases hpc
        exact ⟨pc', effect, hnext, rfl⟩

/-- `startDownload` either dispatches the next worker, with the flag down, or
changes nothing but the call it is in, with the flag up. -/
theorem startDownload_cases (s : State) :
    (s.downloading = true ∧ s.dispatchee = none ∧
      s.startDownload = { s with call := some .startDownload }) ∨
    (s.downloading = false ∧ s.dispatchee = some s.nextWorker ∧
      s.startDownload = { s.dispatchWorker with call := some .startDownload }) := by
  cases h : s.downloading
  · exact Or.inr ⟨rfl, by simp [State.dispatchee, h], by simp [State.startDownload, h]⟩
  · exact Or.inl ⟨rfl, by simp [State.dispatchee, h], by simp [State.startDownload, h]⟩

@[simp] theorem startDownload_selected (s : State) :
    s.startDownload.selected = s.selected := by
  unfold State.startDownload; split <;> rfl

theorem startDownload_mainQueue (s : State) : s.startDownload.mainQueue = s.mainQueue := by
  unfold State.startDownload; split <;> rfl

@[simp] theorem startDownload_call (s : State) :
    s.startDownload.call = some .startDownload := rfl

/-! ## What a step can do to the workers and to the selection -/

/-- The worker a label dispatched. -/
def Label.dispatched : Label → Option Nat
  | .startDownload d => d
  | .startSelected _ d => d
  | _ => none

/-- The three ways a step treats the workers and the progress they write: it
leaves them alone, it dispatches the next worker with the flag down, or it moves
one of them. -/
inductive WorkersStep (T : TorrentInfo) (s s' : State) (l : Label) : Prop where
  | quiet (label : l.dispatched = none) (notWork : ∀ w a, l ≠ .work w a)
      (workers : s'.workers = s.workers) (next : s'.nextWorker = s.nextWorker)
      (progress : s'.progress = s.progress)
  | dispatch (label : l.dispatched = some s.nextWorker) (notWork : ∀ w a, l ≠ .work w a)
      (down : s.downloading = false)
      (workers : s'.workers = Function.update s.workers s.nextWorker (some .queued))
      (next : s'.nextWorker = s.nextWorker + 1) (progress : s'.progress = s.progress)
  | move (w : Nat) (a : Work) (pc pc' : PC) (effect : Effect) (label : l = .work w a)
      (before : s.workers w = some pc)
      (moved : workNext T s.shared w pc a = some (pc', effect))
      (after : s' = s.moveWorker w pc' effect)

theorem startDownload_workersStep {T : TorrentInfo} {s s' : State} {l : Label}
    {dispatched : Option Nat} (s₀ : State) (hl : l.dispatched = dispatched)
    (hnot : ∀ w a, l ≠ .work w a) (hd : dispatched = s.dispatchee)
    (hdown : s₀.downloading = s.downloading) (hw : s₀.workers = s.workers)
    (hn : s₀.nextWorker = s.nextWorker) (hp : s₀.progress = s.progress)
    (hs' : s' = s₀.startDownload) : WorkersStep T s s' l := by
  subst hs'
  rcases startDownload_cases s₀ with ⟨hup, -, heq⟩ | ⟨hlow, -, heq⟩
  · rw [hdown] at hup
    refine .quiet ?_ hnot (by rw [heq]; exact hw) (by rw [heq]; exact hn) (by rw [heq]; exact hp)
    rw [hl, hd]; simp [State.dispatchee, hup]
  · rw [hdown] at hlow
    refine .dispatch ?_ hnot hlow (by rw [heq]; simp [State.dispatchWorker, hw, hn])
      (by rw [heq]; simp [State.dispatchWorker, hn]) (by rw [heq]; exact hp)
    rw [hl, hd]; simp [State.dispatchee, hlow]

theorem step_workers {T : TorrentInfo} {s s' : State} {l : Label}
    (h : step T s l = some s') : WorkersStep T s s' l := by
  cases l with
  | startDownload d =>
      simp only [step, Option.ite_none_right_eq_some, Option.some.injEq] at h
      exact startDownload_workersStep s rfl (by simp) h.1.2 rfl rfl rfl rfl h.2.symm
  | setDownloading =>
      simp only [step, Option.ite_none_right_eq_some, Option.some.injEq] at h
      obtain ⟨-, rfl⟩ := h
      exact .quiet rfl (by simp) rfl rfl rfl
  | downloadFileAtIndexes indexes =>
      simp only [step, Option.ite_none_right_eq_some, Option.some.injEq] at h
      obtain ⟨-, rfl⟩ := h
      by_cases hflag : s.downloading = true
      · rw [if_pos hflag]; exact .quiet rfl (by simp) rfl rfl rfl
      · rw [if_neg hflag]; exact .quiet rfl (by simp) rfl rfl rfl
  | selectFile i value =>
      simp only [step] at h
      split at h
      · simp only [Option.ite_none_right_eq_some, Option.some.injEq] at h
        obtain ⟨-, rfl⟩ := h
        exact .quiet rfl (by simp) rfl rfl rfl
      · cases h
  | startSelected indexes d =>
      simp only [step] at h
      split at h
      · simp only [Option.ite_none_right_eq_some, Option.some.injEq] at h
        exact startDownload_workersStep { s with delegate := some detailList } rfl
          (by simp) h.1.2.2 rfl rfl rfl rfl h.2.symm
      · cases h
  | runBlock block delivered =>
      simp only [step] at h
      split at h
      · simp only [Option.ite_none_right_eq_some, Option.some.injEq] at h
        obtain ⟨-, rfl⟩ := h
        exact .quiet rfl (by simp) rfl rfl rfl
      · cases h
  | returnBlock block =>
      simp only [step, Option.ite_none_right_eq_some, Option.some.injEq] at h
      obtain ⟨-, rfl⟩ := h
      cases block <;> exact .quiet rfl (by simp) rfl rfl rfl
  | setDelegate d =>
      simp only [step, Option.some.injEq] at h
      obtain rfl := h
      exact .quiet rfl (by simp) rfl rfl rfl
  | work w a =>
      obtain ⟨pc, pc', effect, hpc, hnext, rfl⟩ := step_work_iff.mp h
      exact .move w a pc pc' effect rfl hpc hnext rfl

/-- How a worker came to the position it has after a step: it stood there before,
the step dispatched it, or the step moved it there. -/
inductive WorkerStep (T : TorrentInfo) (s s' : State) (l : Label) (w : Nat) (pc' : PC) :
    Prop where
  | stood (label : l.dispatched ≠ some w) (notMoved : ∀ a, l ≠ .work w a)
      (before : s.workers w = some pc')
  | queued (label : l.dispatched = some w) (new : w = s.nextWorker) (position : pc' = .queued)
  | moved (a : Work) (pc : PC) (effect : Effect) (label : l = .work w a)
      (before : s.workers w = some pc) (next : workNext T s.shared w pc a = some (pc', effect))
      (after : s' = s.moveWorker w pc' effect)

theorem step_worker {T : TorrentInfo} {s s' : State} {l : Label} {w : Nat} {pc' : PC}
    (h : step T s l = some s') (hpc' : s'.workers w = some pc') : WorkerStep T s s' l w pc' := by
  cases step_workers h with
  | quiet hlabel hnot hworkers _ _ =>
      exact .stood (by simp [hlabel]) (hnot w) (hworkers ▸ hpc')
  | dispatch hlabel hnot _ hworkers _ _ =>
      rw [hworkers] at hpc'
      by_cases hw : w = s.nextWorker
      · subst hw
        rw [Function.update_self, Option.some.injEq] at hpc'
        exact .queued hlabel rfl hpc'.symm
      · rw [Function.update_of_ne hw] at hpc'
        exact .stood (by simp [hlabel, Ne.symm hw]) (hnot w) hpc'
  | move v a pc pc'' effect hlabel hbefore hnext hafter =>
      subst hlabel hafter
      rw [moveWorker_workers] at hpc'
      by_cases hv : w = v
      · subst hv
        rw [Function.update_self, Option.some.injEq] at hpc'
        subst hpc'
        exact .moved a pc effect rfl hbefore hnext rfl
      · rw [Function.update_of_ne hv] at hpc'
        exact .stood (by simp [Label.dispatched]) (by simp [Ne.symm hv]) hpc'

/-- The two ways a step treats the selection: one turn of the loop of
`downloadFileAtIndexes:`, or nothing, the loop then being entered at file 0 if at
all. -/
inductive SelectionStep (T : TorrentInfo) (s s' : State) : Prop where
  | keep (selected : s'.selected = s.selected)
      (call : ∀ indexes i, s'.call = some (.selecting indexes i) →
        i = 0 ∨ s.call = some (.selecting indexes i))
  | turn (indexes : List Nat) (i : Nat) (before : s.call = some (.selecting indexes i))
      (selected : s'.selected = Function.update s.selected i (indexes.contains i))
      (after : s'.call = some (.selecting indexes (i + 1))) (workers : s'.workers = s.workers)

theorem step_selected {T : TorrentInfo} {s s' : State} {l : Label} (h : step T s l = some s') :
    SelectionStep T s s' := by
  cases l with
  | selectFile i value =>
      simp only [step] at h
      split at h
      · next indexes j hcall =>
          simp only [Option.ite_none_right_eq_some, Option.some.injEq] at h
          obtain ⟨⟨rfl, -, rfl⟩, rfl⟩ := h
          exact .turn indexes i hcall rfl rfl rfl
      · cases h
  | startDownload d =>
      simp only [step, Option.ite_none_right_eq_some, Option.some.injEq] at h
      obtain ⟨-, rfl⟩ := h
      exact .keep (startDownload_selected s) (by simp)
  | startSelected indexes d =>
      simp only [step] at h
      split at h
      · simp only [Option.ite_none_right_eq_some, Option.some.injEq] at h
        obtain ⟨-, rfl⟩ := h
        exact .keep (startDownload_selected _) (by simp)
      · cases h
  | setDownloading =>
      simp only [step, Option.ite_none_right_eq_some, Option.some.injEq] at h
      obtain ⟨-, rfl⟩ := h
      exact .keep rfl (by simp)
  | downloadFileAtIndexes indexes =>
      simp only [step, Option.ite_none_right_eq_some, Option.some.injEq] at h
      obtain ⟨-, rfl⟩ := h
      by_cases hflag : s.downloading = true
      · rw [if_pos hflag]; exact .keep rfl fun _ _ hcall => Or.inr hcall
      · rw [if_neg hflag]
        refine .keep rfl fun _ _ hcall => Or.inl ?_
        cases hcall
        rfl
  | runBlock block delivered =>
      simp only [step] at h
      split at h
      · simp only [Option.ite_none_right_eq_some, Option.some.injEq] at h
        obtain ⟨-, rfl⟩ := h
        exact .keep rfl fun _ _ hcall => Or.inr hcall
      · cases h
  | returnBlock block =>
      simp only [step, Option.ite_none_right_eq_some, Option.some.injEq] at h
      obtain ⟨-, rfl⟩ := h
      cases block <;> exact .keep rfl fun _ _ hcall => Or.inr hcall
  | setDelegate d =>
      simp only [step, Option.some.injEq] at h
      obtain rfl := h
      exact .keep rfl fun _ _ hcall => Or.inr hcall
  | work w a =>
      obtain ⟨pc, pc', effect, -, -, rfl⟩ := step_work_iff.mp h
      exact .keep (moveWorker_selected s w pc' effect) fun _ _ hcall =>
        Or.inr ((moveWorker_call s w pc' effect).symm.trans hcall)

/-- The two ways a step treats the progress of the files: a worker's loop writes
one of them, or nothing does. -/
inductive ProgressStep (T : TorrentInfo) (s s' : State) (l : Label) : Prop where
  | keep (progress : s'.progress = s.progress)
  | poll (w i : Nat) (st : TorrentStatus) (bytes : List Nat) (value : Single)
      (label : l = .work w (.pollFile i (some value)))
      (before : s.workers w = some (.pollFile st bytes i))
      (read : polled T s.shared bytes i = some (some value))
      (progress : s'.progress = Function.update s.progress i value)

/-- Only the loop over the files writes progress. -/
theorem workNext_progress {T : TorrentInfo} {s : State} {w : Nat} {pc pc' : PC} {a : Work}
    {effect : Effect} (hpc : s.workers w = some pc)
    (h : workNext T s.shared w pc a = some (pc', effect)) :
    ProgressStep T s (s.moveWorker w pc' effect) (.work w a) := by
  cases workStep_of_workNext h with
  | writeFile st bytes i value hread => exact .poll w i st bytes value rfl hpc hread rfl
  | _ => exact .keep rfl

theorem step_progress {T : TorrentInfo} {s s' : State} {l : Label} (h : step T s l = some s') :
    ProgressStep T s s' l := by
  cases step_workers h with
  | quiet _ _ _ _ hprogress => exact .keep hprogress
  | dispatch _ _ _ _ _ hprogress => exact .keep hprogress
  | move w a pc pc' effect hlabel hpc hnext hafter =>
      subst hlabel hafter
      exact workNext_progress hpc hnext

/-! ## Pieces of concrete runs -/

/-- The status of a torrent all of whose wanted bytes are there. -/
def completeStatus : TorrentStatus := ⟨4, 1, 0, 0, 0⟩

/-- The status of a torrent that has nothing yet. -/
def downloadingStatus : TorrentStatus := ⟨3, 0, 0, 0, 0⟩

/-- A row tap on the file of `oneFile`, up to the first loop head of worker `w`. -/
def tapToLoop (w : Nat) : List Label :=
  [.downloadFileAtIndexes [0], .selectFile 0 true, .startSelected [0] (some w), .setDownloading,
    .work w .begin, .work w (.loadTorrent true), .work w (.addTorrent true),
    .work w (.filePriority 0 7)]

/-- One turn of the loop in which the status says the download is complete. -/
def lastTurn (w : Nat) : List Label :=
  [.work w (.isSeed false), .work w (.status completeStatus), .work w (.fileProgress [1]),
    .work w (.pollFile 0 (some (some 1))), .work w (.print true), .work w (.printFile 0 true),
    .work w (.notifyProgress true), .work w (.checkProgress true), .work w (.notifyFinish true)]

/-- The main thread runs the two blocks that `lastTurn` queued. -/
def drainBlocks (w : Nat) : List Label :=
  [.runBlock (.progressDidUpdate w (.initWithStatus completeStatus)) true,
    .returnBlock (.progressDidUpdate w (.initWithStatus completeStatus)),
    .runBlock (.didFinish w) true, .returnBlock (.didFinish w)]

end TorrentApp.Downloader
