import TorrentApp.Downloader.Callbacks
import TorrentApp.Downloader.Release
import TorrentApp.Downloader.Swarm

set_option autoImplicit false

/-!
# Is a completed download reported?

The loop has two ends that ask different questions: the head asks whether every
piece is there and leaves without a word, the `break` asks whether every wanted
byte is there and queues the finish.  When the last wanted byte is also the last
piece, either may see it first.  And the progress that stands when the `break` is
taken is what `file_progress` answered a moment after the status.
-/

namespace TorrentApp.Downloader

open TorrentApp.Foundation

/-! ## How often a worker comes to an end -/

/-- The end a worker has reached. -/
def PC.exit : PC → Option Exit
  | .leaving e => some e
  | .done e => some e
  | _ => none

/-- The end a worker step reaches. -/
def Work.exit : Work → Option Exit
  | .loadTorrent false => some .loadFailed
  | .addTorrent false => some .addFailed
  | .isSeed true => some .seed
  | .notifyFinish _ => some .finished
  | _ => none

/-- The label takes worker `w` to the end `e`. -/
def Label.exits (w : Nat) (e : Exit) : Label → Bool
  | .work v a => v == w && a.exit == some e
  | _ => false

@[simp] theorem nextPriority_exit (T : TorrentInfo) (i : Nat) : (nextPriority T i).exit = none := by
  unfold nextPriority; split <;> rfl

@[simp] theorem nextPoll_exit (T : TorrentInfo) (st : TorrentStatus) (progress : List Nat)
    (i : Nat) : (nextPoll T st progress i).exit = none := by
  unfold nextPoll; split <;> rfl

@[simp] theorem nextPrint_exit (T : TorrentInfo) (st : TorrentStatus) (i : Nat) :
    (nextPrint T st i).exit = none := by
  unfold nextPrint; split <;> rfl

/-- A step reaches an end from a position that has none, or keeps the one there is. -/
theorem workNext_exit {T : TorrentInfo} {sh : Shared} {w : Nat} {pc pc' : PC} {a : Work}
    {effect : Effect} (h : workNext T sh w pc a = some (pc', effect)) :
    (a.exit = none ∧ pc'.exit = pc.exit) ∨ (pc.exit = none ∧ pc'.exit = a.exit) := by
  cases workStep_of_workNext h with
  | loadFailed => exact Or.inr ⟨rfl, rfl⟩
  | added => exact Or.inl ⟨rfl, nextPriority_exit T 0⟩
  | addFailed => exact Or.inr ⟨rfl, rfl⟩
  | filePriority i => exact Or.inl ⟨rfl, nextPriority_exit T (i + 1)⟩
  | seed => exact Or.inr ⟨rfl, rfl⟩
  | fileProgress st progress => exact Or.inl ⟨rfl, nextPoll_exit T st progress 0⟩
  | writeFile st progress i => exact Or.inl ⟨rfl, nextPoll_exit T st progress (i + 1)⟩
  | passFile st progress i => exact Or.inl ⟨rfl, nextPoll_exit T st progress (i + 1)⟩
  | print st => exact Or.inl ⟨rfl, nextPrint_exit T st 0⟩
  | printFile st i => exact Or.inl ⟨rfl, nextPrint_exit T st (i + 1)⟩
  | finish => exact Or.inr ⟨rfl, rfl⟩
  | noFinish => exact Or.inr ⟨rfl, rfl⟩
  | _ => exact Or.inl ⟨rfl, rfl⟩

theorem exits_of_main {l : Label} (hnot : ∀ v a, l ≠ .work v a) (w : Nat) (e : Exit) :
    l.exits w e = false := by
  cases l with
  | work v a => exact absurd rfl (hnot v a)
  | _ => rfl

/-- A worker has come to an end once if it stands past it, and never otherwise. -/
theorem exits_of_run {T : TorrentInfo} {tr : List Label} {s : State}
    (hrun : run (step T) (initWithTorrent T) tr = some s) (w : Nat) (e : Exit) :
    tr.countP (Label.exits w e) = if (s.workers w).bind PC.exit = some e then 1 else 0 := by
  refine run_induction (motive := fun tr s =>
    tr.countP (Label.exits w e) = if (s.workers w).bind PC.exit = some e then 1 else 0)
    rfl ?_ hrun
  intro tr s l s' hprefix ih hstep
  rw [List.countP_append, ih, List.countP_singleton]
  cases step_workers hstep with
  | quiet _ hnot hworkers _ _ =>
      simp [exits_of_main hnot, hworkers]
  | dispatch _ hnot _ hworkers _ _ =>
      have hl := exits_of_main hnot w e
      by_cases hw : w = s.nextWorker
      · obtain ⟨ph, -, htracks⟩ := tracks_of_run hprefix
        have hnone := htracks.fresh w hw.ge
        subst hw
        simp [hl, hworkers, hnone, PC.exit]
      · simp [hl, hworkers, hw]
  | move v a pc pc' effect hlabel hpc hnext hafter =>
      subst hlabel hafter
      by_cases hv : v = w
      · subst hv
        rcases workNext_exit hnext with ⟨hnone, hsame⟩ | ⟨hnone, hnew⟩
        · simp [Label.exits, hnone, hpc, hsame]
        · simp [Label.exits, hpc, hnone, hnew]
      · have hv' : w ≠ v := Ne.symm hv
        simp [Label.exits, hv, hv']

/-! ## The last progress a worker wrote -/

/-- The value a worker step writes to the progress of file `i`. -/
def Work.wrote (i : Nat) : Work → Option Single
  | .pollFile j (some value) => if j = i then some value else none
  | _ => none

/-- The value worker `w` writes to the progress of file `i` by a label. -/
def Label.wrote (w i : Nat) : Label → Option Single
  | .work v a => if v = w then a.wrote i else none
  | _ => none

/-- The last progress worker `w` wrote to file `i` in a run. -/
def lastWritten (tr : List Label) (w i : Nat) : Option Single :=
  (tr.filterMap (Label.wrote w i)).getLast?

theorem wrote_of_notMoved {w : Nat} {l : Label} (h : ∀ a, l ≠ .work w a) (i : Nat) :
    l.wrote w i = none := by
  cases l with
  | work v a =>
      have hv : v ≠ w := by
        rintro rfl
        exact h a rfl
      rw [Label.wrote, if_neg hv]
  | _ => rfl

theorem lastWritten_concat (tr : List Label) (l : Label) (w i : Nat) :
    lastWritten (tr ++ [l]) w i = (l.wrote w i).or (lastWritten tr w i) := by
  unfold lastWritten
  cases h : l.wrote w i <;> simp [h]

/-- The selected non-empty files were last written with 1. -/
def Written (T : TorrentInfo) (flags : Nat → Bool) (written : Nat → Option Single) : Prop :=
  ∀ i file, T.files[i]? = some file → 0 < file.size → flags i = true →
    written i = some (some 1)

/-- The `file_progress` answer gives every selected non-empty file its size, up to
what the two conversions to `double` and the quotient round away. -/
def WholeFiles (T : TorrentInfo) (flags : Nat → Bool) (progress : List Nat) : Prop :=
  ∀ i file, T.files[i]? = some file → 0 < file.size → flags i = true →
    ∃ bytes, progress[i]? = some bytes ∧
      NearlyEqual (roundTo doublePrecision bytes) (roundTo doublePrecision file.size)

/-- The selected files before the `n`th were last written from this answer. -/
def Copied (T : TorrentInfo) (flags : Nat → Bool) (progress : List Nat)
    (written : Nat → Option Single) (n : Nat) : Prop :=
  ∀ i < n, ∀ file, T.files[i]? = some file → flags i = true →
    ∃ bytes, progress[i]? = some bytes ∧ written i = some (progressOf bytes file.size)

variable {T : TorrentInfo}

/-- What the loop over the files has written is 1 exactly when the answer was whole. -/
theorem Copied.written_iff {flags : Nat → Bool} {progress : List Nat}
    {written : Nat → Option Single} (h : Copied T flags progress written T.count) :
    Written T flags written ↔ WholeFiles T flags progress := by
  have hvalue : ∀ i file, T.files[i]? = some file → 0 < file.size → flags i = true →
      ∃ bytes, progress[i]? = some bytes ∧ (written i = some (some 1) ↔
        NearlyEqual (roundTo doublePrecision bytes) (roundTo doublePrecision file.size)) := by
    intro i file hfile hpos hsel
    obtain ⟨hi, -⟩ := List.getElem?_eq_some_iff.mp hfile
    obtain ⟨bytes, hbytes, hwritten⟩ := h i hi file hfile hsel
    refine ⟨bytes, hbytes, ?_⟩
    rw [hwritten, progressOf, if_neg hpos.ne', Option.some.injEq, Option.some.injEq]
    exact singleQuotient_eq_one_iff_nearlyEqual hpos
  constructor
  · intro hall i file hfile hpos hsel
    obtain ⟨bytes, hbytes, hiff⟩ := hvalue i file hfile hpos hsel
    exact ⟨bytes, hbytes, hiff.mp (hall i file hfile hpos hsel)⟩
  · intro hall i file hfile hpos hsel
    obtain ⟨bytes, hbytes, hiff⟩ := hvalue i file hfile hpos hsel
    obtain ⟨bytes', hbytes', hnear⟩ := hall i file hfile hpos hsel
    obtain rfl : bytes = bytes' := Option.some.inj (hbytes.symm.trans hbytes')
    exact hiff.mpr hnear

/-- In the turn of a status that said complete, the answers so far were whole exactly
if `full`; in any other turn they were. -/
def Turn (st : TorrentStatus) (whole full : Prop) : Prop :=
  (1 ≤ st.progress → (whole ↔ full)) ∧ (¬ 1 ≤ st.progress → whole)

/-- What a worker's position says of its answers so far, which are `whole` unless a
`file_progress` after a status that said complete was not: only the last turn can
tell, by its answer and then by what has been written from it. -/
def PC.Seen (T : TorrentInfo) (flags : Nat → Bool) (written : Nat → Option Single)
    (whole : Prop) : PC → Prop
  | .pollFile st progress i =>
      Copied T flags progress written i ∧ Turn st whole (WholeFiles T flags progress)
  | .print st => Turn st whole (Written T flags written)
  | .printFile st _ => Turn st whole (Written T flags written)
  | .notifyProgress st => Turn st whole (Written T flags written)
  | .checkProgress st => Turn st whole (Written T flags written)
  | .notifyFinish => whole ↔ Written T flags written
  | .leaving .finished => whole ↔ Written T flags written
  | .done .finished => whole ↔ Written T flags written
  | .leaving _ => True
  | .done _ => True
  | _ => whole

section Seen

variable {flags : Nat → Bool} {written : Nat → Option Single} {whole : Prop}
  {st : TorrentStatus} {progress : List Nat} {i : Nat}

/-- The loop over the files has written all of them when it is left. -/
theorem seen_nextPoll (h : (PC.pollFile st progress i).Seen T flags written whole) :
    (nextPoll T st progress i).Seen T flags written whole := by
  unfold nextPoll
  split
  · exact h
  · next hi =>
      have hcopied : Copied T flags progress written T.count :=
        fun j hj => h.1 j (by omega)
      refine ⟨fun hst => ?_, h.2.2⟩
      rw [h.2.1 hst, hcopied.written_iff]

theorem seen_nextPrint (h : Turn st whole (Written T flags written)) :
    (nextPrint T st i).Seen T flags written whole := by
  unfold nextPrint
  split <;> exact h

theorem seen_nextPriority (h : whole) : (nextPriority T i).Seen T flags written whole := by
  unfold nextPriority
  split <;> exact h

/-- One turn of the loop over the files. -/
theorem seen_pollFile {sh : Shared} {wrote : Option Single}
    (h : (PC.pollFile st progress i).Seen T flags written whole) (hflags : sh.selected = flags)
    (hpolled : polled T sh progress i = some wrote) :
    (PC.pollFile st progress (i + 1)).Seen T flags
      (fun j => ((Work.pollFile i wrote).wrote j).or (written j)) whole := by
  refine ⟨fun j hj file hfile hsel => ?_, h.2⟩
  by_cases hij : i = j
  · subst hij
    rw [polled, hflags, if_pos hsel, hfile] at hpolled
    cases hbytes : progress[i]? with
    | none => simp [hbytes] at hpolled
    | some bytes =>
        rw [hbytes] at hpolled
        refine ⟨bytes, rfl, ?_⟩
        rw [← Option.some.inj hpolled]
        simp [Work.wrote]
  · obtain ⟨bytes, hbytes, hwritten⟩ := h.1 j (by omega) file hfile hsel
    have hnone : (Work.pollFile i wrote).wrote j = none := by
      cases wrote <;> simp [Work.wrote, hij]
    refine ⟨bytes, hbytes, ?_⟩
    change ((Work.pollFile i wrote).wrote j).or (written j) = _
    rw [hnone, Option.none_or, hwritten]

/-- A step keeps what a worker has seen; whether its answers are whole is put anew by
its `file_progress` only. -/
theorem seen_workNext {whole' : Prop} {sh : Shared} {w : Nat} {pc pc' : PC} {a : Work}
    {effect : Effect} (h : workNext T sh w pc a = some (pc', effect))
    (hseen : pc.Seen T flags written whole) (hflags : pc.active = true → sh.selected = flags)
    (hkeep : (∀ progress, a ≠ .fileProgress progress) → (whole' ↔ whole))
    (hanswer : ∀ st progress, pc = .fileProgress st → a = .fileProgress progress →
      (whole' ↔ whole ∧ (1 ≤ st.progress → WholeFiles T flags progress))) :
    pc'.Seen T flags (fun i => (a.wrote i).or (written i)) whole' := by
  by_cases ha : ∃ progress, a = .fileProgress progress
  · obtain ⟨progress, rfl⟩ := ha
    cases workStep_of_workNext h with
    | fileProgress st =>
        have hbefore : whole := hseen
        have hiff := hanswer st progress rfl rfl
        refine seen_nextPoll ⟨fun j hj => absurd hj (Nat.not_lt_zero j), fun hst => ?_,
          fun hst => ?_⟩
        · rw [hiff]
          exact ⟨fun h => h.2 hst, fun h => ⟨hbefore, fun _ => h⟩⟩
        · exact hiff.mpr ⟨hbefore, fun h => absurd h hst⟩
  · obtain rfl : whole' = whole := propext (hkeep fun progress hp => ha ⟨progress, hp⟩)
    cases workStep_of_workNext h with
    | added => exact seen_nextPriority hseen
    | filePriority => exact seen_nextPriority hseen
    | fileProgress st progress => exact absurd ⟨progress, rfl⟩ ha
    | writeFile st progress i value hread =>
        exact seen_nextPoll (seen_pollFile hseen (hflags rfl) hread)
    | passFile st progress i hread =>
        exact seen_nextPoll (seen_pollFile hseen (hflags rfl) hread)
    | print => exact seen_nextPrint hseen
    | printFile => exact seen_nextPrint hseen
    | complete st hfull => exact hseen.1 hfull
    | incomplete st hpart => exact hseen.2 hpart
    | leave exit => cases exit <;> exact hseen
    | loadFailed => trivial
    | addFailed => trivial
    | seed => trivial
    | _ => exact hseen

end Seen

/-- After a status that said complete, worker `w` is answered a `file_progress` that
gives each selected non-empty file its size. -/
def WholeAnswer (T : TorrentInfo) (w : Nat) (c : Swarm) : SwarmLabel → Prop
  | .dl (.work v (.fileProgress progress)) =>
      v = w → ∀ st, c.dl.workers w = some (.fileProgress st) → 1 ≤ st.progress →
        WholeFiles T (c.selection w) progress
  | _ => True

/-- Only a `file_progress` of the worker itself can be less than whole. -/
theorem wholeAnswer_of_ne {w : Nat} {c : Swarm} {l : SwarmLabel}
    (h : ∀ progress, l ≠ .dl (.work w (.fileProgress progress))) : WholeAnswer T w c l := by
  cases l with
  | arrive v q => trivial
  | dl l =>
      cases l with
      | work v a =>
          cases a with
          | fileProgress progress =>
              intro hv
              exact absurd (by rw [hv]) (h progress)
          | _ => trivial
      | _ => trivial

/-- A run's answers stay whole over a step that is no `file_progress` of the worker. -/
theorem whole_concat_of_ne {tr : List SwarmLabel} {c : Swarm} {l : SwarmLabel} {w : Nat}
    (hrun : run (swarmStep T) (Swarm.init T) tr = some c)
    (h : ∀ progress, l ≠ .dl (.work w (.fileProgress progress))) :
    AllSteps (swarmStep T) (WholeAnswer T w) (Swarm.init T) (tr ++ [l]) ↔
      AllSteps (swarmStep T) (WholeAnswer T w) (Swarm.init T) tr := by
  rw [allSteps_concat hrun]
  exact and_iff_left (wholeAnswer_of_ne h)

theorem whole_concat_of_notMoved {tr : List SwarmLabel} {c : Swarm} {l : Label} {w : Nat}
    (hrun : run (swarmStep T) (Swarm.init T) tr = some c) (h : ∀ a, l ≠ .work w a) :
    AllSteps (swarmStep T) (WholeAnswer T w) (Swarm.init T) (tr ++ [.dl l]) ↔
      AllSteps (swarmStep T) (WholeAnswer T w) (Swarm.init T) tr :=
  whole_concat_of_ne hrun fun progress hl => h (.fileProgress progress) (SwarmLabel.dl.inj hl)

/-- A worker that is not there yet was not there before the step, and the step is
not its own. -/
theorem notThere_of_step {s s' : State} {l : Label} {w : Nat} (h : step T s l = some s')
    (hw : s'.workers w = none) : s.workers w = none ∧ ∀ a, l ≠ .work w a := by
  cases step_workers h with
  | quiet _ hnot hworkers _ _ => exact ⟨hworkers ▸ hw, hnot w⟩
  | dispatch _ hnot _ hworkers _ _ =>
      rw [hworkers] at hw
      by_cases hnew : w = s.nextWorker
      · rw [hnew, Function.update_self] at hw
        cases hw
      · rw [Function.update_of_ne hnew] at hw
        exact ⟨hw, hnot w⟩
  | move v a pc pc' effect hlabel _ _ hafter =>
      subst hlabel hafter
      rw [moveWorker_workers] at hw
      by_cases hv : w = v
      · rw [hv, Function.update_self] at hw
        cases hw
      · rw [Function.update_of_ne hv] at hw
        exact ⟨hw, fun b hb => hv (by cases hb; rfl)⟩

/-- Every worker of a run has seen and written what its position says; one that is
not there yet has been answered nothing. -/
theorem seen_of_run {tr : List SwarmLabel} {c : Swarm}
    (hrun : run (swarmStep T) (Swarm.init T) tr = some c) (w : Nat) :
    (c.dl.workers w = none → AllSteps (swarmStep T) (WholeAnswer T w) (Swarm.init T) tr) ∧
      ∀ pc, c.dl.workers w = some pc →
        pc.Seen T (c.selection w) (lastWritten (dlTrace tr) w)
          (AllSteps (swarmStep T) (WholeAnswer T w) (Swarm.init T) tr) := by
  refine run_induction (motive := fun tr c =>
    (c.dl.workers w = none → AllSteps (swarmStep T) (WholeAnswer T w) (Swarm.init T) tr) ∧
      ∀ pc, c.dl.workers w = some pc →
        pc.Seen T (c.selection w) (lastWritten (dlTrace tr) w)
          (AllSteps (swarmStep T) (WholeAnswer T w) (Swarm.init T) tr))
    ⟨fun _ => trivial, fun _ h => by cases h⟩ ?_ hrun
  rintro tr c l c' hprefix ⟨ihnone, ih⟩ hstep
  obtain ⟨ph, -, htracks⟩ := tracks_of_run (dl_run hprefix)
  have hstable := selection_stable (w := w) htracks hstep
  cases l with
  | arrive v q =>
      rw [dlTrace_concat_arrive, whole_concat_of_ne hprefix (by simp)]
      cases hstep
      exact ⟨ihnone, ih⟩
  | dl l =>
      rw [dlTrace_concat_dl]
      obtain ⟨-, dl, hdl, rfl⟩ := swarmStep_dl_iff.mp hstep
      refine ⟨fun hnone => ?_, fun pc hpc => ?_⟩
      · obtain ⟨hbefore, hnot⟩ := notThere_of_step hdl hnone
        exact (whole_concat_of_notMoved hprefix hnot).mpr (ihnone hbefore)
      cases step_worker hdl hpc with
      | stood _ hnot hbefore =>
          have hsel : c.selectionAfter l w = c.selection w := hstable (by rw [hbefore]; simp)
          have hlast : lastWritten (dlTrace tr ++ [l]) w = lastWritten (dlTrace tr) w := by
            funext i
            rw [lastWritten_concat, wrote_of_notMoved hnot, Option.none_or]
          change pc.Seen T (c.selectionAfter l w) _ _
          rw [hsel, hlast, whole_concat_of_notMoved hprefix hnot]
          exact ih pc hbefore
      | queued hlabel hnew hqueued =>
          subst hqueued
          change AllSteps (swarmStep T) (WholeAnswer T w) (Swarm.init T) (tr ++ [.dl l])
          refine (whole_concat_of_ne hprefix fun progress hp => ?_).mpr
            (ihnone (htracks.fresh w hnew.ge))
          cases hp
          cases hlabel
      | moved a qc effect hlabel hqc hnext _ =>
          subst hlabel
          have hlast : lastWritten (dlTrace tr ++ [.work w a]) w =
              fun i => (a.wrote i).or (lastWritten (dlTrace tr) w i) := by
            funext i
            rw [lastWritten_concat, Label.wrote, if_pos rfl]
          rw [hlast]
          refine seen_workNext hnext (ih qc hqc)
            (fun hactive => selection_of_run hprefix w qc hqc hactive)
            (fun ha => whole_concat_of_ne hprefix (by simpa using ha)) ?_
          rintro st progress rfl rfl
          rw [allSteps_concat hprefix]
          refine and_congr_right fun _ => ?_
          constructor
          · exact fun h => h rfl st hqc
          · rintro h - st' hst'
            cases hqc.symm.trans hst'
            exact h

/-! ## Reported or not -/

/-- Worker `w` has left its `while` loop. -/
def Swarm.LeftLoop (c : Swarm) (w : Nat) : Prop :=
  (c.dl.workers w).bind PC.exit = some .seed ∨ (c.dl.workers w).bind PC.exit = some .finished

/-- The delegate implements `btDownloaderDidFinishDownload:` when worker `w` asks. -/
def Heard (w : Nat) (c : Swarm) : SwarmLabel → Prop
  | .dl (.work v (.notifyFinish _)) => v = w → respondsToFinish c.dl.delegate = true
  | _ => True

/-- Some piece is still missing whenever worker `w` is at its loop head. -/
def MissingAtHead (T : TorrentInfo) (w : Nat) (c : Swarm) : SwarmLabel → Prop
  | .dl (.work v (.isSeed _)) => v = w → ¬ AllPresent T (c.present w)
  | _ => True

/-- Worker `w` has put exactly one finish on the main queue, and the last
progress it wrote to each selected non-empty file is 1. -/
structure Reported (T : TorrentInfo) (tr : List SwarmLabel) (c : Swarm) (w : Nat) : Prop where
  once : (queued (dlTrace tr) c.dl).count (.didFinish w) = 1
  progress : Written T (c.selection w) (lastWritten (dlTrace tr) w)

theorem missingAtHead_iff (w : Nat) (c : Swarm) (l : SwarmLabel) (c' : Swarm)
    (h : swarmStep T c l = some c') :
    MissingAtHead T w c l ↔ l ≠ .dl (.work w (.isSeed true)) := by
  cases l with
  | arrive v q => simp [MissingAtHead]
  | dl l =>
      obtain ⟨hanswers, -⟩ := swarmStep_dl_iff.mp h
      cases l with
      | work v a =>
          cases a with
          | isSeed answer =>
              have heq : answer = decide (AllPresent T (c.present v)) := by
                simpa [answers] using hanswers
              by_cases hv : v = w
              · subst hv
                simp [MissingAtHead, heq]
              · simp [MissingAtHead, hv]
          | _ => simp [MissingAtHead]
      | _ => simp [MissingAtHead]

theorem heard_iff (w : Nat) (c : Swarm) (l : SwarmLabel) (c' : Swarm)
    (h : swarmStep T c l = some c') :
    Heard w c l ↔ l ≠ .dl (.work w (.notifyFinish false)) := by
  cases l with
  | arrive v q => simp [Heard]
  | dl l =>
      obtain ⟨-, dl, hdl, -⟩ := swarmStep_dl_iff.mp h
      cases l with
      | work v a =>
          cases a with
          | notifyFinish queued =>
              obtain ⟨pc, pc', effect, -, hnext, -⟩ := step_work_iff.mp hdl
              have heq : queued = respondsToFinish c.dl.delegate := queued_of_notifyFinish hnext
              by_cases hv : v = w
              · subst hv
                simp [Heard, heq]
              · simp [Heard, hv]
          | _ => simp [Heard]
      | _ => simp [Heard]

/-- The finishes a worker step queues. -/
theorem finish_count_of_workNext {sh : Shared} {v w : Nat} {pc pc' : PC} {a : Work}
    {effect : Effect} (h : workNext T sh v pc a = some (pc', effect))
    (hheard : v = w → a ≠ .notifyFinish false) :
    effect.blocks.count (.didFinish w) =
      if (Label.work v a).exits w .finished = true then 1 else 0 := by
  cases workStep_of_workNext h with
  | finish => by_cases hv : v = w <;> simp [Effect.blocks, Label.exits, Work.exit, hv]
  | noFinish =>
      have hv : v ≠ w := fun hv => hheard hv rfl
      simp [Effect.blocks, Label.exits, hv]
  | _ => simp [Effect.blocks, Label.exits, Work.exit]

/-- A worker whose delegate listens puts one finish on the main queue for each
time it leaves by the `break`. -/
theorem finish_count_of_run {tr : List Label} {s : State}
    (hrun : run (step T) (initWithTorrent T) tr = some s) (w : Nat)
    (hheard : .work w (.notifyFinish false) ∉ tr) :
    (queued tr s).count (.didFinish w) = tr.countP (Label.exits w .finished) := by
  revert hheard
  refine run_induction (motive := fun tr s => .work w (.notifyFinish false) ∉ tr →
    (queued tr s).count (.didFinish w) = tr.countP (Label.exits w .finished))
    (fun _ => rfl) ?_ hrun
  intro tr s l s' _ ih hstep hheard
  have hbefore := ih fun hmem => hheard (List.mem_append_left _ hmem)
  rw [List.countP_append, ← hbefore, List.countP_singleton]
  have hquiet : (∀ v a, l ≠ .work v a) →
      (queued (tr ++ [l]) s').count (.didFinish w) =
        (queued tr s).count (.didFinish w) + if l.exits w .finished = true then 1 else 0 := by
    intro hnot
    rw [queued_of_main hstep hnot, exits_of_main hnot]
    rfl
  cases step_workers hstep with
  | quiet _ hnot _ _ _ => exact hquiet hnot
  | dispatch _ hnot _ _ _ _ => exact hquiet hnot
  | move v a pc pc' effect hlabel hpc hnext hafter =>
      subst hlabel hafter
      rw [queued_of_work, List.count_append]
      congr 1
      exact finish_count_of_workNext hnext fun hv ha => hheard (by simp [hv, ha])

theorem mem_dlTrace {tr : List SwarmLabel} {l : Label} : l ∈ dlTrace tr ↔ .dl l ∈ tr := by
  constructor
  · intro h
    obtain ⟨k, hk, hl⟩ := List.mem_filterMap.mp h
    cases k with
    | dl l' => cases hl; exact hk
    | arrive v q => cases hl
  · exact fun h => List.mem_filterMap.mpr ⟨_, h, rfl⟩

/-- A worker that left at the loop head saw `is_seed()` answer yes, and no other
worker did. -/
theorem seed_iff_of_run {tr : List Label} {s : State}
    (hrun : run (step T) (initWithTorrent T) tr = some s) (w : Nat) :
    (s.workers w).bind PC.exit = some .seed ↔ .work w (.isSeed true) ∈ tr := by
  have hcount := exits_of_run hrun w .seed
  have hexits : ∀ l, Label.exits w .seed l = true ↔ l = .work w (.isSeed true) := by
    intro l
    cases l with
    | work v a =>
        cases a with
        | isSeed answer => cases answer <;> simp [Label.exits, Work.exit]
        | loadTorrent ok => cases ok <;> simp [Label.exits, Work.exit]
        | addTorrent ok => cases ok <;> simp [Label.exits, Work.exit]
        | _ => simp [Label.exits, Work.exit]
    | _ => simp [Label.exits]
  constructor
  · intro hseed
    rw [if_pos hseed] at hcount
    obtain ⟨l, hl, hexit⟩ := List.countP_pos_iff.mp (hcount ▸ Nat.one_pos)
    exact (hexits l).mp hexit ▸ hl
  · intro hmem
    by_contra hseed
    rw [if_neg hseed, List.countP_eq_zero] at hcount
    exact hcount _ hmem ((hexits _).mpr rfl)

/-- With a delegate that listens a worker has finished once if it left by the `break`,
and never otherwise. -/
theorem finish_once_iff {tr : List SwarmLabel} {c : Swarm} {w : Nat}
    (hrun : run (swarmStep T) (Swarm.init T) tr = some c)
    (hheard : AllSteps (swarmStep T) (Heard w) (Swarm.init T) tr) :
    (queued (dlTrace tr) c.dl).count (.didFinish w) = 1 ↔
      (c.dl.workers w).bind PC.exit = some .finished := by
  have hdl := dl_run hrun
  have hnotify : .work w (.notifyFinish false) ∉ dlTrace tr := by
    rw [mem_dlTrace]
    intro hmem
    have hall := (allSteps_iff_forall_mem (heard_iff w) hrun).mp hheard
    exact hall _ hmem rfl
  rw [finish_count_of_run hdl w hnotify, exits_of_run hdl w .finished]
  split
  · next h => exact iff_of_true rfl h
  · next h => exact iff_of_false Nat.zero_ne_one h

/-- Some piece was missing at each loop head exactly when the worker did not leave
there. -/
theorem missingAtHead_iff_exit {tr : List SwarmLabel} {c : Swarm} {w : Nat}
    (hrun : run (swarmStep T) (Swarm.init T) tr = some c) :
    AllSteps (swarmStep T) (MissingAtHead T w) (Swarm.init T) tr ↔
      (c.dl.workers w).bind PC.exit ≠ some .seed := by
  rw [allSteps_iff_forall_mem (missingAtHead_iff w) hrun, ne_eq, seed_iff_of_run (dl_run hrun),
    mem_dlTrace]
  exact ⟨fun h hmem => h _ hmem rfl, fun h l hl heq => h (heq ▸ hl)⟩

/-- A worker that left by the `break` last wrote 1 to its files exactly when its last
answer was whole. -/
theorem written_iff_whole {tr : List SwarmLabel} {c : Swarm} {w : Nat}
    (hrun : run (swarmStep T) (Swarm.init T) tr = some c)
    (hfinished : (c.dl.workers w).bind PC.exit = some .finished) :
    Written T (c.selection w) (lastWritten (dlTrace tr) w) ↔
      AllSteps (swarmStep T) (WholeAnswer T w) (Swarm.init T) tr := by
  obtain ⟨pc, hpc, hexit⟩ := Option.bind_eq_some_iff.mp hfinished
  have hseen := (seen_of_run hrun w).2 pc hpc
  cases pc with
  | leaving e => cases hexit; exact hseen.symm
  | done e => cases hexit; exact hseen.symm
  | _ => cases hexit

/-- A worker that has left its loop, with a delegate that listens, has reported
its download exactly when some piece was missing each time it was at its loop head
and its last `file_progress` gave each selected file its size. -/
theorem reported_iff_missing_and_whole (T : TorrentInfo) {tr : List SwarmLabel} {c : Swarm}
    {w : Nat} (hrun : run (swarmStep T) (Swarm.init T) tr = some c) (hleft : c.LeftLoop w)
    (hheard : AllSteps (swarmStep T) (Heard w) (Swarm.init T) tr) :
    Reported T tr c w ↔ AllSteps (swarmStep T) (MissingAtHead T w) (Swarm.init T) tr ∧
      AllSteps (swarmStep T) (WholeAnswer T w) (Swarm.init T) tr := by
  rw [missingAtHead_iff_exit hrun]
  constructor
  · intro hreported
    have hfinished := (finish_once_iff hrun hheard).mp hreported.once
    refine ⟨?_, (written_iff_whole hrun hfinished).mp hreported.progress⟩
    rw [hfinished]
    simp
  · rintro ⟨hseed, hwhole⟩
    have hfinished := hleft.resolve_left hseed
    exact ⟨(finish_once_iff hrun hheard).mpr hfinished,
      (written_iff_whole hrun hfinished).mpr hwhole⟩

/-! ## Answers that count the verified bytes -/

/-- Worker `w` is answered a `file_progress` that counts the verified bytes. -/
def CountsAnswer (T : TorrentInfo) (w : Nat) (c : Swarm) : SwarmLabel → Prop
  | .dl (.work v (.fileProgress progress)) => v = w → CountsBytes T (c.present w) progress
  | _ => True

/-- Only `h.status()` leads to `h.file_progress()`. -/
theorem status_of_fileProgress {sh : Shared} {w : Nat} {pc : PC} {a : Work} {st : TorrentStatus}
    {effect : Effect} (h : workNext T sh w pc a = some (.fileProgress st, effect)) :
    pc = .status ∧ a = .status st := by
  generalize hafter : PC.fileProgress st = pc' at h
  cases workStep_of_workNext h with
  | status st' => cases hafter; exact ⟨rfl, rfl⟩
  | added => unfold nextPriority at hafter; split at hafter <;> cases hafter
  | filePriority => unfold nextPriority at hafter; split at hafter <;> cases hafter
  | fileProgress => unfold nextPoll at hafter; split at hafter <;> cases hafter
  | writeFile => unfold nextPoll at hafter; split at hafter <;> cases hafter
  | passFile => unfold nextPoll at hafter; split at hafter <;> cases hafter
  | print => unfold nextPrint at hafter; split at hafter <;> cases hafter
  | printFile => unfold nextPrint at hafter; split at hafter <;> cases hafter
  | _ => cases hafter

/-- After a status that said complete the worker's selected files are verified: the
priorities were set from the selection it was started with. -/
theorem wanted_of_run {tr : List SwarmLabel} {c : Swarm}
    (hrun : run (swarmStep T) (Swarm.init T) tr = some c) :
    ∀ w st, c.dl.workers w = some (.fileProgress st) → 1 ≤ st.progress →
      ∀ i file, T.files[i]? = some file → c.selection w i = true →
        FilePresent T (c.present w) file := by
  refine run_induction (motive := fun _ c => ∀ w st, c.dl.workers w = some (.fileProgress st) →
    1 ≤ st.progress → ∀ i file, T.files[i]? = some file → c.selection w i = true →
      FilePresent T (c.present w) file) (fun _ _ h => by cases h) ?_ hrun
  intro tr c l c' hprefix ih hstep w st hpc hst i file hfile hsel
  obtain ⟨ph, -, htracks⟩ := tracks_of_run (dl_run hprefix)
  have hstable := selection_stable (w := w) htracks hstep
  have hold : c.dl.workers w = some (.fileProgress st) → FilePresent T (c'.present w) file :=
    fun hbefore => (ih w st hbefore hst i file hfile
      (hstable (by rw [hbefore]; simp) ▸ hsel)).mono (present_mono hstep w)
  cases l with
  | arrive v q =>
      refine hold ?_
      cases hstep
      exact hpc
  | dl l =>
      obtain ⟨hanswers, dl, hdl, rfl⟩ := swarmStep_dl_iff.mp hstep
      cases step_worker hdl hpc with
      | stood _ _ hbefore => exact hold hbefore
      | queued _ _ hqueued => cases hqueued
      | moved a qc effect hlabel hqc hnext _ =>
          subst hlabel
          obtain ⟨rfl, rfl⟩ := status_of_fileProgress hnext
          obtain ⟨hi, -⟩ := List.getElem?_eq_some_iff.mp hfile
          have hprio := priority_of_run hprefix w .status hqc i hi
          have hwanted : WantedPresent T (c.present w) (c.priority w) := by
            simpa [answers, hst] using hanswers
          refine hwanted i hi file hfile ?_
          rw [hprio, show c.selection w i = true from hsel]
          decide

/-- An answer that counts the verified bytes is whole when it has to be. -/
theorem wholeAnswer_of_countsAnswer {tr : List SwarmLabel} {c : Swarm} {l : SwarmLabel} {w : Nat}
    (hrun : run (swarmStep T) (Swarm.init T) tr = some c) (h : CountsAnswer T w c l) :
    WholeAnswer T w c l := by
  by_cases hasked : ∃ progress, l = .dl (.work w (.fileProgress progress))
  · obtain ⟨progress, rfl⟩ := hasked
    intro _ st hpc hst i file hfile hpos hsel
    have hfull := (h rfl).full hfile (wanted_of_run hrun w st hpc hst i file hfile hsel)
    exact ⟨file.size, hfull, nearlyEqual_self (roundTo_nonneg (by positivity))⟩
  · exact wholeAnswer_of_ne (by simpa using hasked)

/-- Where every `file_progress` counts the verified bytes, a download is reported
exactly when some piece was missing at each loop head. -/
theorem reported_iff_missingAtHead {tr : List SwarmLabel} {c : Swarm} {w : Nat}
    (hrun : run (swarmStep T) (Swarm.init T) tr = some c) (hleft : c.LeftLoop w)
    (hheard : AllSteps (swarmStep T) (Heard w) (Swarm.init T) tr)
    (hcounts : AllSteps (swarmStep T) (CountsAnswer T w) (Swarm.init T) tr) :
    Reported T tr c w ↔ AllSteps (swarmStep T) (MissingAtHead T w) (Swarm.init T) tr := by
  have hwhole : AllSteps (swarmStep T) (WholeAnswer T w) (Swarm.init T) tr :=
    hcounts.imp hrun fun xs c l hprefix h => wholeAnswer_of_countsAnswer hprefix h
  rw [missingAtHead_iff_exit hrun]
  constructor
  · intro hreported
    rw [(finish_once_iff hrun hheard).mp hreported.once]
    simp
  · intro hseed
    have hfinished := hleft.resolve_left hseed
    exact ⟨(finish_once_iff hrun hheard).mpr hfinished,
      (written_iff_whole hrun hfinished).mpr hwhole⟩

/-! ## Runs -/

/-- The last piece arrives while the status is asked: the download is reported. -/
def reportedRun : List SwarmLabel :=
  (tapToLoop 0).map .dl ++ [.dl (.work 0 (.isSeed false)), .arrive 0 0] ++
    ((lastTurn 0).drop 1).map .dl

/-- One byte of one. -/
theorem wholeFiles_oneFile (flags : Nat → Bool) : WholeFiles oneFile flags [1] := by
  intro i file hfile _ _
  cases i with
  | zero =>
      cases hfile
      exact ⟨1, rfl, nearlyEqual_self (roundTo_nonneg (by norm_num))⟩
  | succ i => cases hfile

theorem reported_of_reportedRun :
    ∃ c, run (swarmStep oneFile) (Swarm.init oneFile) reportedRun = some c ∧
      Reported oneFile reportedRun c 0 := by
  obtain ⟨c, hrun, hleft⟩ : ∃ c, run (swarmStep oneFile) (Swarm.init oneFile) reportedRun = some c ∧
      c.LeftLoop 0 := ⟨_, by with_unfolding_all rfl, Or.inr rfl⟩
  have hheard : AllSteps (swarmStep oneFile) (Heard 0) (Swarm.init oneFile) reportedRun := by
    refine (allSteps_iff_forall_mem (heard_iff 0) hrun).mpr ?_
    simp [reportedRun, tapToLoop, lastTurn]
  have hmissing : AllSteps (swarmStep oneFile) (MissingAtHead oneFile 0) (Swarm.init oneFile)
      reportedRun := by
    refine (allSteps_iff_forall_mem (missingAtHead_iff 0) hrun).mpr ?_
    simp [reportedRun, tapToLoop, lastTurn]
  have hwhole : AllSteps (swarmStep oneFile) (WholeAnswer oneFile 0) (Swarm.init oneFile)
      reportedRun := by
    refine allSteps_of_forall_mem fun l hl c => ?_
    by_cases hasked : ∃ progress, l = .dl (.work 0 (.fileProgress progress))
    · obtain ⟨progress, rfl⟩ := hasked
      obtain rfl : progress = [1] := by simpa [reportedRun, tapToLoop, lastTurn] using hl
      exact fun _ _ _ _ => wholeFiles_oneFile _
    · exact wholeAnswer_of_ne (by simpa using hasked)
  exact ⟨c, hrun, (reported_iff_missing_and_whole oneFile hrun hleft hheard).mpr
    ⟨hmissing, hwhole⟩⟩

/-- The last piece arrives during the sleep. -/
def unreportedRun : List SwarmLabel :=
  (tapToLoop 0).map .dl ++
    [.dl (.work 0 (.isSeed false)), .dl (.work 0 (.status downloadingStatus)),
      .dl (.work 0 (.fileProgress [0])), .dl (.work 0 (.pollFile 0 (some (some 0)))),
      .dl (.work 0 (.print true)), .dl (.work 0 (.printFile 0 true)),
      .dl (.work 0 (.notifyProgress true)), .dl (.work 0 (.checkProgress false)),
      .arrive 0 0, .dl (.work 0 .wake), .dl (.work 0 (.isSeed true)), .dl (.work 0 .leave)]

/-- After that run the worker has left its loop, its one file is complete, and
neither the finish nor the progress 1 was ever written. -/
theorem unreportedRun_not_reported :
    ∃ c, run (swarmStep oneFile) (Swarm.init oneFile) unreportedRun = some c ∧ c.LeftLoop 0 ∧
      c.selection 0 0 = true ∧ c.dl.delegate = some detailList ∧
      (queued (dlTrace unreportedRun) c.dl).count (.didFinish 0) = 0 ∧
      lastWritten (dlTrace unreportedRun) 0 0 = some (some 0) ∧
      ¬ Reported oneFile unreportedRun c 0 := by
  refine ⟨_, by with_unfolding_all rfl, Or.inl rfl, rfl, rfl, by with_unfolding_all rfl,
    by with_unfolding_all rfl, fun h => ?_⟩
  have honce : 0 = 1 := h.once
  cases honce

/-- The `break` is taken and `file_progress` answers zeroes: the piece has passed its
check and is not written yet. -/
def zeroesRun : List SwarmLabel :=
  (tapToLoop 0).map .dl ++
    [.dl (.work 0 (.isSeed false)), .arrive 0 0, .dl (.work 0 (.status completeStatus)),
      .dl (.work 0 (.fileProgress [0])), .dl (.work 0 (.pollFile 0 (some (some 0))))] ++
    ((lastTurn 0).drop 4).map .dl

example : ∃ c, run (swarmStep oneFile) (Swarm.init oneFile) zeroesRun = some c ∧ c.LeftLoop 0 ∧
    (queued (dlTrace zeroesRun) c.dl).count (.didFinish 0) = 1 ∧
    lastWritten (dlTrace zeroesRun) 0 0 = some (some 0) :=
  ⟨_, by with_unfolding_all rfl, Or.inr rfl, by with_unfolding_all rfl, by with_unfolding_all rfl⟩

end TorrentApp.Downloader
