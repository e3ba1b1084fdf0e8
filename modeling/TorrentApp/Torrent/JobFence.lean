import Mathlib.Data.List.Chain
import TorrentApp.Foundation.Barrier

set_option autoImplicit false

/-!
# The fence of a storage

`disk_job_fence` gives some jobs of a storage exclusive access to it.  Raising a
fence queues the fence job behind the jobs in progress, with a flush job ahead of
it, and every job that comes later queues behind the fence; the last job to
complete before the fence posts the fence job, and the fence job posts what has
been queued up to the next fence.

The queue that the disk threads run from is not part of a fence: a job that has
been posted is in progress, and completes at any time and in any order.
-/

namespace TorrentApp.Torrent

open Foundation

/-! ## Jobs -/

/-- The flags of `disk_io_job` that the fence reads and writes. -/
structure DiskIoJob where
  id : Nat
  fence : Bool
  in_progress : Bool
  blocked : Bool
deriving DecidableEq, Repr

/-- A job as `allocate_job` returns it. -/
def DiskIoJob.allocate (id : Nat) : DiskIoJob := ⟨id, false, false, false⟩

/-- The job goes on the job queue. -/
def DiskIoJob.post (j : DiskIoJob) : DiskIoJob := { j with in_progress := true, blocked := false }

def DiskIoJob.block (j : DiskIoJob) : DiskIoJob := { j with blocked := true }

/-! ## The fence

The functions end with `none` where one of the assertions fails. -/

structure DiskJobFence where
  m_has_fence : Nat
  m_blocked_jobs : List DiskIoJob
  m_outstanding_jobs : Nat
deriving DecidableEq, Repr

/-- What `raise_fence` tells its caller to post. -/
inductive FencePost where
  | fence_post_fence
  | fence_post_flush
  | fence_post_none
deriving DecidableEq, Repr

namespace DiskJobFence

/-- The loop that posts what was queued up while a fence was up. -/
def postBlocked (m_has_fence ret outstanding : Nat) :
    List DiskIoJob → List DiskIoJob → Option (Nat × DiskJobFence × List DiskIoJob)
  | [], jobs => some (ret, ⟨m_has_fence, [], outstanding⟩, jobs)
  | bj :: blocked, jobs => do
      if bj.fence then
        if outstanding = 0 ∧ jobs = [] then
          guard (bj.in_progress = false ∧ bj.blocked = true)
          some (ret + 1, ⟨m_has_fence, blocked, outstanding + 1⟩, jobs ++ [bj.post])
        else
          -- the fence stays up, and waits for the jobs that were just posted
          some (ret, ⟨m_has_fence, bj :: blocked, outstanding⟩, jobs)
      else
        guard (bj.in_progress = false ∧ bj.blocked = true)
        postBlocked m_has_fence (ret + 1) (outstanding + 1) blocked (jobs ++ [bj.post])

/-- `jobs` is the caller's queue: the jobs that other completions of its batch have posted. -/
def job_complete (f : DiskJobFence) (j : DiskIoJob) (jobs : List DiskIoJob) :
    Option (Nat × DiskJobFence × List DiskIoJob) := do
  guard (j.in_progress = true ∧ 0 < f.m_outstanding_jobs)
  let outstanding := f.m_outstanding_jobs - 1
  if j.fence then
    guard (outstanding = 0)
    postBlocked (f.m_has_fence - 1) 0 outstanding f.m_blocked_jobs jobs
  else if 0 < outstanding ∨ f.m_has_fence = 0 then
    some (0, { f with m_outstanding_jobs := outstanding }, jobs)
  else
    match f.m_blocked_jobs with
    | [] => none
    | bj :: blocked =>
        guard (bj.fence = true ∧ bj.in_progress = false ∧ bj.blocked = true)
        some (1, ⟨f.m_has_fence, blocked, outstanding + 1⟩, bj.post :: jobs)

/-- Whether the job was queued; a job that was not is in progress. -/
def is_blocked (f : DiskJobFence) (j : DiskIoJob) : Option (Bool × DiskIoJob × DiskJobFence) := do
  if f.m_has_fence = 0 then
    guard (j.in_progress = false)
    some (false, { j with in_progress := true },
      { f with m_outstanding_jobs := f.m_outstanding_jobs + 1 })
  else
    guard (j.blocked = false)
    some (true, j.block, { f with m_blocked_jobs := f.m_blocked_jobs ++ [j.block] })

/-- `j` is the fence job and `fj` the flush job. -/
def raise_fence (f : DiskJobFence) (j fj : DiskIoJob) :
    Option (FencePost × DiskIoJob × DiskIoJob × DiskJobFence) := do
  guard (j.fence = false)
  let j := { j with fence := true }
  if f.m_has_fence = 0 ∧ f.m_outstanding_jobs = 0 then
    some (.fence_post_fence, { j with in_progress := true }, fj,
      ⟨f.m_has_fence + 1, f.m_blocked_jobs, f.m_outstanding_jobs + 1⟩)
  else if 1 < f.m_has_fence + 1 then
    guard (fj.blocked = false ∧ j.blocked = false)
    some (.fence_post_none, j.block, fj.block,
      ⟨f.m_has_fence + 1, f.m_blocked_jobs ++ [fj.block] ++ [j.block], f.m_outstanding_jobs⟩)
  else
    guard (j.blocked = false)
    some (.fence_post_flush, j.block, { fj with in_progress := true },
      ⟨f.m_has_fence + 1, f.m_blocked_jobs ++ [j.block], f.m_outstanding_jobs + 1⟩)

end DiskJobFence

/-! ## The jobs of a storage -/

/-- A fence with the jobs it has let through: those that have been posted and not completed. -/
structure StorageJobs where
  fence : DiskJobFence
  in_progress : List DiskIoJob
  allocated : Nat
deriving DecidableEq, Repr

namespace StorageJobs

def init : StorageJobs := ⟨⟨0, [], 0⟩, [], 0⟩

/-- `add_job` and `add_fence_job` allocate the next ids for their jobs, and answer as the
fence does.  The jobs in progress complete one by one, with any queue of their batch. -/
inductive Label where
  | add_job (id : Nat) (blocked : Bool)
  | add_fence_job (id flush : Nat) (ret : FencePost)
  | job_complete (j : DiskIoJob) (jobs : List DiskIoJob)
deriving DecidableEq, Repr

/-- What a completion has put on the queue: ahead of it or behind it. -/
def posted (fence : Bool) (jobs jobs' : List DiskIoJob) : List DiskIoJob :=
  if fence then jobs'.drop jobs.length else jobs'.take (jobs'.length - jobs.length)

def step (s : StorageJobs) : Label → Option StorageJobs
  | .add_job id blocked =>
      if s.allocated ≤ id then
        match s.fence.is_blocked (.allocate id) with
        | none => none
        | some (true, _, f) =>
            if blocked = true then some ⟨f, s.in_progress, id + 1⟩ else none
        | some (false, j, f) =>
            if blocked = false then some ⟨f, s.in_progress ++ [j], id + 1⟩ else none
      else none
  | .add_fence_job id flush ret =>
      if s.allocated ≤ id ∧ id < flush then
        match s.fence.raise_fence (.allocate id) (.allocate flush) with
        | none => none
        | some (ret', j, fj, f) =>
            if ret' = ret then
              match ret with
              | .fence_post_fence => some ⟨f, s.in_progress ++ [j], flush + 1⟩
              | .fence_post_flush => some ⟨f, s.in_progress ++ [fj], flush + 1⟩
              | .fence_post_none => some ⟨f, s.in_progress, flush + 1⟩
            else none
      else none
  | .job_complete j jobs =>
      if j ∈ s.in_progress then
        match s.fence.job_complete j jobs with
        | none => none
        | some (_, f, jobs') =>
            some ⟨f, s.in_progress.erase j ++ posted j.fence jobs jobs', s.allocated⟩
      else none

/-- What a label does to the queue of the jobs: a fence that has to wait comes with its
flush job ahead of it. -/
def project : Label → Option (BarrierMove (Nat × Bool))
  | .add_job id _ => some (.issue [(id, false)])
  | .add_fence_job id _ .fence_post_fence => some (.issue [(id, true)])
  | .add_fence_job id flush _ => some (.issue [(flush, false), (id, true)])
  | .job_complete j _ => some (.finish (j.id, j.fence))

end StorageJobs

/-! ## What the functions do -/

def DiskIoJob.key (j : DiskIoJob) : Nat × Bool := (j.id, j.fence)

@[simp] theorem DiskIoJob.key_post (j : DiskIoJob) : j.post.key = j.key := rfl

@[simp] theorem DiskIoJob.key_block (j : DiskIoJob) : j.block.key = j.key := rfl

/-- The flags of a job in the queue of a fence. -/
def DiskIoJob.Queued (j : DiskIoJob) : Prop := j.in_progress = false ∧ j.blocked = true

namespace DiskJobFence

theorem guard_eq {p : Prop} [Decidable p] (hp : p) : (guard p : Option Unit) = some () :=
  if_pos hp

/-- The loop posts the jobs up to the next fence, which it leaves where it is. -/
theorem postBlocked_eq (m_has_fence ret outstanding : Nat) {blocked : List DiskIoJob}
    (jobs : List DiskIoJob)
    (hqueued : ∀ bj ∈ blocked, bj.Queued)
    (hhead : 0 < outstanding ∨ ∀ bj ∈ blocked.head?, bj.fence = false) :
    postBlocked m_has_fence ret outstanding blocked jobs =
      some (ret + (blocked.takeWhile fun bj => !bj.fence).length,
        ⟨m_has_fence, blocked.dropWhile fun bj => !bj.fence,
          outstanding + (blocked.takeWhile fun bj => !bj.fence).length⟩,
        jobs ++ (blocked.takeWhile fun bj => !bj.fence).map DiskIoJob.post) := by
  induction blocked generalizing ret outstanding jobs with
  | nil => simp [postBlocked]
  | cons bj blocked ih =>
    have hbj : bj.Queued := hqueued bj List.mem_cons_self
    cases hfence : bj.fence with
    | true =>
      have hpos : outstanding ≠ 0 := by
        rcases hhead with h | h
        · omega
        · rw [h bj rfl] at hfence
          cases hfence
      simp [postBlocked, hfence, hpos]
    | false =>
      rw [postBlocked, hfence, if_neg Bool.false_ne_true, guard_eq ⟨hbj.1, hbj.2⟩,
        List.takeWhile_cons, List.dropWhile_cons, hfence]
      have hrest := ih (ret + 1) (outstanding + 1)
        (jobs ++ [bj.post]) (fun x hx => hqueued x (List.mem_cons_of_mem _ hx))
        (.inl (Nat.succ_pos _))
      simp only [Option.bind_eq_bind, Option.bind_some, hrest]
      simp [Nat.add_assoc, Nat.add_comm 1]

/-- A completion that ends neither a fence nor the wait for one. -/
theorem job_complete_plain {f : DiskJobFence} {j : DiskIoJob} (jobs : List DiskIoJob)
    (hj : j.in_progress = true) (hfence : j.fence = false)
    (hmore : 1 < f.m_outstanding_jobs ∨ f.m_has_fence = 0 ∧ 0 < f.m_outstanding_jobs) :
    f.job_complete j jobs =
      some (0, { f with m_outstanding_jobs := f.m_outstanding_jobs - 1 }, jobs) := by
  rw [job_complete, guard_eq ⟨hj, by omega⟩, hfence, if_neg Bool.false_ne_true]
  simp only [Option.bind_eq_bind, Option.bind_some]
  rw [if_pos (by omega)]

/-- The last completion before a fence posts the fence job. -/
theorem job_complete_last {f : DiskJobFence} {j bj : DiskIoJob} {blocked : List DiskIoJob}
    (jobs : List DiskIoJob) (hj : j.in_progress = true) (hfence : j.fence = false)
    (houtstanding : f.m_outstanding_jobs = 1) (hhas : 0 < f.m_has_fence)
    (hblocked : f.m_blocked_jobs = bj :: blocked) (hbj : bj.fence = true) (hqueued : bj.Queued) :
    f.job_complete j jobs = some (1, ⟨f.m_has_fence, blocked, 1⟩, bj.post :: jobs) := by
  rw [job_complete, guard_eq ⟨hj, by omega⟩, hfence, if_neg Bool.false_ne_true, hblocked]
  simp only [Option.bind_eq_bind, Option.bind_some]
  rw [if_neg (by omega), guard_eq ⟨hbj, hqueued.1, hqueued.2⟩, houtstanding]
  rfl

/-- A fence job that completes posts the jobs up to the next fence. -/
theorem job_complete_fence {f : DiskJobFence} {j : DiskIoJob} (jobs : List DiskIoJob)
    (hj : j.in_progress = true) (hfence : j.fence = true) (houtstanding : f.m_outstanding_jobs = 1)
    (hqueued : ∀ bj ∈ f.m_blocked_jobs, bj.Queued)
    (hhead : ∀ bj ∈ f.m_blocked_jobs.head?, bj.fence = false) :
    f.job_complete j jobs =
      some ((f.m_blocked_jobs.takeWhile fun bj => !bj.fence).length,
        ⟨f.m_has_fence - 1, f.m_blocked_jobs.dropWhile fun bj => !bj.fence,
          (f.m_blocked_jobs.takeWhile fun bj => !bj.fence).length⟩,
        jobs ++ (f.m_blocked_jobs.takeWhile fun bj => !bj.fence).map DiskIoJob.post) := by
  rw [job_complete, guard_eq ⟨hj, by omega⟩, hfence, if_pos rfl, houtstanding]
  simp only [Option.bind_eq_bind, Option.bind_some]
  rw [guard_eq trivial, Option.bind_some,
    postBlocked_eq _ _ _ jobs hqueued (.inr hhead), Nat.zero_add]

theorem is_blocked_down {f : DiskJobFence} (hhas : f.m_has_fence = 0) (id : Nat) :
    f.is_blocked (.allocate id) = some (false, (DiskIoJob.allocate id).post,
      { f with m_outstanding_jobs := f.m_outstanding_jobs + 1 }) := by
  simp [is_blocked, hhas, guard, DiskIoJob.allocate, DiskIoJob.post]

theorem is_blocked_up {f : DiskJobFence} (hhas : f.m_has_fence ≠ 0) (id : Nat) :
    f.is_blocked (.allocate id) = some (true, (DiskIoJob.allocate id).block,
      { f with m_blocked_jobs := f.m_blocked_jobs ++ [(DiskIoJob.allocate id).block] }) := by
  simp [is_blocked, hhas, guard, DiskIoJob.allocate]

/-- A fence job as `raise_fence` marks it. -/
def fenceJob (id : Nat) : DiskIoJob := { DiskIoJob.allocate id with fence := true }

theorem raise_fence_idle {f : DiskJobFence} (hhas : f.m_has_fence = 0)
    (hnone : f.m_outstanding_jobs = 0) (id flush : Nat) :
    f.raise_fence (.allocate id) (.allocate flush) = some (.fence_post_fence, (fenceJob id).post,
      .allocate flush, ⟨1, f.m_blocked_jobs, 1⟩) := by
  simp [raise_fence, hhas, hnone, guard, fenceJob, DiskIoJob.allocate, DiskIoJob.post]

theorem raise_fence_first {f : DiskJobFence} (hhas : f.m_has_fence = 0)
    (hsome : f.m_outstanding_jobs ≠ 0) (id flush : Nat) :
    f.raise_fence (.allocate id) (.allocate flush) = some (.fence_post_flush, (fenceJob id).block,
      (DiskIoJob.allocate flush).post,
      ⟨1, f.m_blocked_jobs ++ [(fenceJob id).block], f.m_outstanding_jobs + 1⟩) := by
  simp [raise_fence, hhas, hsome, guard, fenceJob, DiskIoJob.allocate, DiskIoJob.post]

theorem raise_fence_again {f : DiskJobFence} (hhas : f.m_has_fence ≠ 0) (id flush : Nat) :
    f.raise_fence (.allocate id) (.allocate flush) = some (.fence_post_none, (fenceJob id).block,
      (DiskIoJob.allocate flush).block,
      ⟨f.m_has_fence + 1,
        f.m_blocked_jobs ++ [(DiskIoJob.allocate flush).block] ++ [(fenceJob id).block],
        f.m_outstanding_jobs⟩) := by
  simp [raise_fence, hhas, Nat.pos_of_ne_zero hhas, guard, fenceJob, DiskIoJob.allocate]

end DiskJobFence

/-! ## The fence as a queue -/

namespace StorageJobs

variable {s s' : StorageJobs} {b : Barrier (Nat × Bool)}

/-- The jobs in progress are those of the queue that may run, and the blocked jobs are the
others, in their order. -/
structure Tracks (s : StorageJobs) (b : Barrier (Nat × Bool)) : Prop where
  in_progress : (s.in_progress.map DiskIoJob.key).Perm (eligible Prod.snd b.pending)
  blocked : s.fence.m_blocked_jobs.map DiskIoJob.key = waiting Prod.snd b.pending
  outstanding : s.fence.m_outstanding_jobs = s.in_progress.length
  has_fence : s.fence.m_has_fence = b.pending.countP Prod.snd
  posted : ∀ j ∈ s.in_progress, j.in_progress = true
  queued : ∀ j ∈ s.fence.m_blocked_jobs, j.Queued
  /-- Every fence but the one that runs has its flush job ahead of it. -/
  apart : b.pending.IsChain fun x y => x.2 = true → y.2 = false
  fresh : ∀ x ∈ b.issued, x.1 < s.allocated
  ordered : b.Ordered Prod.snd

namespace Tracks

theorem length_in_progress (h : Tracks s b) :
    s.in_progress.length = (eligible Prod.snd b.pending).length := by
  rw [← h.in_progress.length_eq, List.length_map]

theorem mem_eligible (h : Tracks s b) {j : DiskIoJob} (hj : j ∈ s.in_progress) :
    j.key ∈ eligible Prod.snd b.pending :=
  h.in_progress.mem_iff.mp (List.mem_map_of_mem hj)

/-- Without a fence nothing is blocked. -/
theorem plain_of_has_fence (h : Tracks s b) (hhas : s.fence.m_has_fence = 0) :
    ∀ x ∈ b.pending, x.2 = false := by
  rw [h.has_fence, List.countP_eq_zero] at hhas
  exact fun x hx => Bool.eq_false_iff.mpr (hhas x hx)

theorem fence_of_has_fence (h : Tracks s b) (hhas : s.fence.m_has_fence ≠ 0) :
    ∃ x ∈ b.pending, x.2 = true := by
  rw [h.has_fence, ← Nat.pos_iff_ne_zero, List.countP_pos_iff] at hhas
  exact hhas

/-- When no job is in progress, there is none. -/
theorem pending_of_outstanding (h : Tracks s b) (hnone : s.fence.m_outstanding_jobs = 0) :
    b.pending = [] := by
  rw [h.outstanding, h.length_in_progress, List.length_eq_zero_iff] at hnone
  by_contra hne
  exact eligible_ne_nil hne hnone

/-- New jobs have new ids. -/
theorem nodup_issue (h : Tracks s b) {xs : List (Nat × Bool)} (hxs : (xs.map Prod.fst).Nodup)
    (hnew : ∀ x ∈ xs, s.allocated ≤ x.1) : (b.issued ++ xs).Nodup := by
  refine List.nodup_append'.mpr ⟨h.ordered.nodup, hxs.of_map _, fun x hold hx => ?_⟩
  have hlt := h.fresh x hold
  have hle := hnew x hx
  omega

theorem fresh_issue (h : Tracks s b) (xs : List (Nat × Bool)) {n : Nat} (hle : s.allocated ≤ n)
    (hxs : ∀ x ∈ xs, x.1 < n) : ∀ x ∈ b.issued ++ xs, x.1 < n := by
  intro x hx
  rcases List.mem_append.mp hx with hold | hnew
  · have hlt := h.fresh x hold
    omega
  · exact hxs x hnew

end Tracks

theorem isChain_of_plain {p : List (Nat × Bool)} (hp : ∀ x ∈ p, x.2 = false) :
    p.IsChain fun x y => x.2 = true → y.2 = false := by
  refine List.Pairwise.isChain (List.pairwise_of_forall_mem_list fun x hx _ _ htrue => ?_)
  rw [hp x hx] at htrue
  cases htrue

/-- A queue with a fence only gets longer. -/
theorem Tracks.issue_blocked (h : Tracks s b) (hhas : s.fence.m_has_fence ≠ 0)
    (jobs : List DiskIoJob) {n m : Nat} (hnodup : (b.issued ++ jobs.map DiskIoJob.key).Nodup)
    (hfresh : ∀ x ∈ b.issued ++ jobs.map DiskIoJob.key, x.1 < n)
    (hqueued : ∀ j ∈ jobs, j.Queued) (hhead : ∀ j ∈ jobs.head?, j.fence = false)
    (hchain : (jobs.map DiskIoJob.key).IsChain fun x y => x.2 = true → y.2 = false)
    (hm : m = s.fence.m_has_fence + (jobs.map DiskIoJob.key).countP Prod.snd) :
    Tracks ⟨⟨m, s.fence.m_blocked_jobs ++ jobs, s.fence.m_outstanding_jobs⟩, s.in_progress, n⟩
      { b with issued := b.issued ++ jobs.map DiskIoJob.key } := by
  obtain ⟨x, hx, hfence⟩ := h.fence_of_has_fence hhas
  have hpending := Barrier.pending_issue h.ordered.within hnodup
  obtain ⟨heligible, hwaiting⟩ :=
    eligible_append_of_fence hx hfence (jobs.map DiskIoJob.key)
  have hmove : barrierStep Prod.snd b (.issue (jobs.map DiskIoJob.key)) =
      some { b with issued := b.issued ++ jobs.map DiskIoJob.key } := if_pos hnodup
  refine ⟨?_, ?_, h.outstanding, ?_, h.posted, ?_, ?_, hfresh, h.ordered.step hmove⟩
  · rw [hpending, heligible]
    exact h.in_progress
  · rw [hpending, hwaiting, List.map_append, h.blocked]
  · rw [hpending, List.countP_append, hm, h.has_fence]
  · intro j hj
    rcases List.mem_append.mp hj with hold | hnew
    · exact h.queued j hold
    · exact hqueued j hnew
  · rw [hpending]
    refine h.apart.append hchain fun y _ z hz _ => ?_
    rw [List.head?_map, Option.mem_map] at hz
    obtain ⟨j, hj, rfl⟩ := hz
    exact hhead j hj

/-- Without a fence a new job is in progress at once, and a fence behind it waits. -/
theorem Tracks.issue_posted (h : Tracks s b) (hhas : s.fence.m_has_fence = 0)
    (jobs blocked : List DiskIoJob) {n m : Nat}
    (hnodup : (b.issued ++ (jobs ++ blocked).map DiskIoJob.key).Nodup)
    (hfresh : ∀ x ∈ b.issued ++ (jobs ++ blocked).map DiskIoJob.key, x.1 < n)
    (hjobs : ∀ j ∈ jobs, j.fence = false ∧ j.in_progress = true) (hne : jobs ≠ [])
    (hqueued : ∀ j ∈ blocked, j.Queued) (hfence : ∀ j ∈ blocked.head?, j.fence = true)
    (hchain : (blocked.map DiskIoJob.key).IsChain fun x y => x.2 = true → y.2 = false)
    (hm : m = (blocked.map DiskIoJob.key).countP Prod.snd) :
    Tracks ⟨⟨m, s.fence.m_blocked_jobs ++ blocked,
        s.fence.m_outstanding_jobs + jobs.length⟩, s.in_progress ++ jobs, n⟩
      { b with issued := b.issued ++ (jobs ++ blocked).map DiskIoJob.key } := by
  have hplain := h.plain_of_has_fence hhas
  have hplain' : ∀ x ∈ b.pending ++ jobs.map DiskIoJob.key, x.2 = false := by
    intro x hx
    rcases List.mem_append.mp hx with hold | hnew
    · exact hplain x hold
    · obtain ⟨j, hj, rfl⟩ := List.mem_map.mp hnew
      exact (hjobs j hj).1
  have hhead : ∀ x ∈ (blocked.map DiskIoJob.key).head?, x.2 = true := by
    intro x hx
    rw [List.head?_map, Option.mem_map] at hx
    obtain ⟨j, hj, rfl⟩ := hx
    exact hfence j hj
  have hpending := (Barrier.pending_issue h.ordered.within hnodup).trans
    (show _ = b.pending ++ jobs.map DiskIoJob.key ++ blocked.map DiskIoJob.key by
      rw [List.map_append, List.append_assoc])
  obtain ⟨heligible, hwaiting⟩ := eligible_of_plain Prod.snd hplain
  obtain ⟨heligible', hwaiting'⟩ := eligible_append Prod.snd hplain' hhead
    (.inl fun hnil => hne (List.map_eq_nil_iff.mp (List.append_eq_nil_iff.mp hnil).2))
  have hblocked := h.blocked
  rw [hwaiting, List.map_eq_nil_iff] at hblocked
  have hmove : barrierStep Prod.snd b (.issue ((jobs ++ blocked).map DiskIoJob.key)) =
      some { b with issued := b.issued ++ (jobs ++ blocked).map DiskIoJob.key } := if_pos hnodup
  refine ⟨?_, ?_, ?_, ?_, ?_, ?_, ?_, hfresh, h.ordered.step hmove⟩
  · rw [hpending, heligible', List.map_append]
    have hperm := h.in_progress
    rw [heligible] at hperm
    exact hperm.append_right _
  · rw [hpending, hwaiting', hblocked, List.nil_append]
  · rw [h.outstanding, List.length_append]
  · have hcount : (b.pending ++ jobs.map DiskIoJob.key).countP Prod.snd = 0 :=
      List.countP_eq_zero.mpr fun x hx => by rw [hplain' x hx]; exact Bool.false_ne_true
    rw [hpending, List.countP_append, hcount, hm, Nat.zero_add]
  · intro j hj
    rcases List.mem_append.mp hj with hold | hnew
    · exact h.posted j hold
    · exact (hjobs j hnew).2
  · rw [hblocked, List.nil_append]
    exact hqueued
  · rw [hpending]
    refine (isChain_of_plain hplain').append hchain fun x hx _ _ htrue => ?_
    rw [hplain' x (List.mem_of_mem_getLast? hx)] at htrue
    cases htrue

/-- Where nothing is outstanding, a fence runs at once. -/
theorem Tracks.issue_fence (h : Tracks s b) (hnone : s.fence.m_outstanding_jobs = 0)
    {j : DiskIoJob} {n : Nat}
    (hnodup : (b.issued ++ [j.key]).Nodup) (hfresh : ∀ x ∈ b.issued ++ [j.key], x.1 < n)
    (hj : j.fence = true) (hposted : j.in_progress = true) :
    Tracks ⟨⟨1, s.fence.m_blocked_jobs, 1⟩, s.in_progress ++ [j], n⟩
      { b with issued := b.issued ++ [j.key] } := by
  have hnil := h.pending_of_outstanding hnone
  have hpending := Barrier.pending_issue h.ordered.within hnodup
  rw [hnil, List.nil_append] at hpending
  have hblocked := h.blocked
  rw [hnil, waiting, List.map_eq_nil_iff] at hblocked
  have hrunning := h.outstanding
  rw [hnone, eq_comm, List.length_eq_zero_iff] at hrunning
  have hmove : barrierStep Prod.snd b (.issue [j.key]) =
      some { b with issued := b.issued ++ [j.key] } := if_pos hnodup
  refine ⟨?_, ?_, ?_, ?_, ?_, ?_, ?_, hfresh, h.ordered.step hmove⟩
  · rw [hpending, hrunning, eligible_cons_fence (show Prod.snd j.key = true from hj)]
    exact List.Perm.refl _
  · rw [hpending, hblocked, waiting_cons_fence (show Prod.snd j.key = true from hj)]
    rfl
  · rw [hrunning]
    rfl
  · rw [hpending, List.countP_singleton, if_pos (show Prod.snd j.key = true from hj)]
  · rw [hrunning]
    intro x hx
    rw [List.mem_singleton.mp hx]
    exact hposted
  · rw [hblocked]
    exact fun x hx => (by cases hx)
  · rw [hpending]
    exact List.IsChain.singleton _

/-- A new job is blocked if there is a fence, and else in progress. -/
theorem tracks_add_job (h : Tracks s b) {id : Nat} {blocked : Bool}
    (hstep : step s (.add_job id blocked) = some s') :
    Matched (barrierStep Prod.snd) Tracks b s' (project (.add_job id blocked)) := by
  rw [step] at hstep
  split at hstep
  · rename_i hid
    have hnodup : (b.issued ++ [(id, false)]).Nodup :=
      h.nodup_issue (List.nodup_singleton _) (by simpa using hid)
    have hfresh := h.fresh_issue [(id, false)] (n := id + 1) (by omega) (by simp)
    refine ⟨_, if_pos hnodup, ?_⟩
    by_cases hhas : s.fence.m_has_fence = 0
    · rw [DiskJobFence.is_blocked_down hhas] at hstep
      dsimp only at hstep
      split at hstep
      · cases hstep
        have hissue := h.issue_posted hhas [(DiskIoJob.allocate id).post] []
          hnodup hfresh (fun j hj => by rw [List.mem_singleton.mp hj]; exact ⟨rfl, rfl⟩)
          (List.cons_ne_nil _ _) (fun _ hj => (by cases hj)) (fun _ hj => (by cases hj))
          List.IsChain.nil hhas
        rw [List.append_nil] at hissue
        exact hissue
      · cases hstep
    · rw [DiskJobFence.is_blocked_up hhas] at hstep
      dsimp only at hstep
      split at hstep
      · cases hstep
        exact h.issue_blocked hhas [(DiskIoJob.allocate id).block] hnodup hfresh
          (fun j hj => by rw [List.mem_singleton.mp hj]; exact ⟨rfl, rfl⟩)
          (fun j hj => by cases hj; rfl) (List.IsChain.singleton _) rfl
      · cases hstep
  · cases hstep

/-- A fence runs at once where nothing is outstanding, and else waits with its flush job
ahead of it. -/
theorem tracks_add_fence_job (h : Tracks s b) {id flush : Nat} {ret : FencePost}
    (hstep : step s (.add_fence_job id flush ret) = some s') :
    Matched (barrierStep Prod.snd) Tracks b s' (project (.add_fence_job id flush ret)) := by
  rw [step] at hstep
  split at hstep
  · rename_i hid
    have hnodup : (b.issued ++ [(flush, false), (id, true)]).Nodup :=
      h.nodup_issue (by simpa using Ne.symm (Nat.ne_of_lt hid.2)) (by simp; omega)
    have hfresh := h.fresh_issue [(flush, false), (id, true)] (n := flush + 1) (by omega)
      (by simp; omega)
    by_cases hhas : s.fence.m_has_fence = 0
    · by_cases hnone : s.fence.m_outstanding_jobs = 0
      · have hnodup1 : (b.issued ++ [(id, true)]).Nodup :=
          h.nodup_issue (List.nodup_singleton _) (by simpa using hid.1)
        have hfresh1 := h.fresh_issue [(id, true)] (n := flush + 1) (by omega) (by simp; omega)
        rw [DiskJobFence.raise_fence_idle hhas hnone] at hstep
        dsimp only at hstep
        split at hstep
        · rename_i hret
          cases hret
          cases hstep
          exact ⟨_, if_pos hnodup1, h.issue_fence hnone hnodup1 hfresh1 rfl rfl⟩
        · cases hstep
      · rw [DiskJobFence.raise_fence_first hhas hnone] at hstep
        dsimp only at hstep
        split at hstep
        · rename_i hret
          cases hret
          cases hstep
          refine ⟨_, if_pos hnodup, ?_⟩
          exact h.issue_posted hhas [(DiskIoJob.allocate flush).post]
            [(DiskJobFence.fenceJob id).block] hnodup hfresh
            (fun j hj => by rw [List.mem_singleton.mp hj]; exact ⟨rfl, rfl⟩)
            (List.cons_ne_nil _ _)
            (fun j hj => by rw [List.mem_singleton.mp hj]; exact ⟨rfl, rfl⟩)
            (fun j hj => by cases hj; rfl) (List.IsChain.singleton _) rfl
        · cases hstep
    · rw [DiskJobFence.raise_fence_again hhas] at hstep
      dsimp only at hstep
      split at hstep
      · rename_i hret
        cases hret
        cases hstep
        refine ⟨_, if_pos hnodup, ?_⟩
        have hissue := h.issue_blocked hhas
          [(DiskIoJob.allocate flush).block, (DiskJobFence.fenceJob id).block] hnodup hfresh
          (fun j hj => by
            rcases List.mem_pair.mp hj with rfl | rfl <;> exact ⟨rfl, rfl⟩)
          (fun j hj => by cases hj; rfl)
          (List.isChain_pair.mpr fun hflush => (by cases hflush)) rfl
        rw [List.append_assoc]
        exact hissue
      · cases hstep
  · cases hstep

theorem posted_fence (jobs new : List DiskIoJob) : posted true jobs (jobs ++ new) = new := by
  rw [posted, if_pos rfl, List.drop_left]

theorem posted_last (jobs : List DiskIoJob) (bj : DiskIoJob) :
    posted false jobs (bj :: jobs) = [bj] := by
  rw [posted, if_neg Bool.false_ne_true, List.length_cons, Nat.add_sub_cancel_left,
    List.take_succ_cons, List.take_zero]

theorem posted_none (fence : Bool) (jobs : List DiskIoJob) : posted fence jobs jobs = [] := by
  cases fence <;> simp [posted]

theorem Tracks.erase (h : Tracks s b) {j : DiskIoJob} (hj : j ∈ s.in_progress) :
    ((s.in_progress.erase j).map DiskIoJob.key).Perm
      ((eligible Prod.snd b.pending).erase j.key) := by
  have hcons : (s.in_progress.map DiskIoJob.key).Perm
      (j.key :: (s.in_progress.erase j).map DiskIoJob.key) :=
    (List.perm_cons_erase hj).map DiskIoJob.key
  have herase := (h.in_progress.symm.trans hcons).erase j.key
  rw [List.erase_cons_head] at herase
  exact herase.symm

/-- A fence job is in progress alone, and the jobs behind it do not begin with a fence. -/
theorem Tracks.fence_alone (h : Tracks s b) {j : DiskIoJob} (hj : j ∈ s.in_progress)
    (hfence : j.fence = true) : s.in_progress = [j] ∧
      b.pending = j.key :: s.fence.m_blocked_jobs.map DiskIoJob.key ∧
      ∀ bj ∈ s.fence.m_blocked_jobs.head?, bj.fence = false := by
  obtain ⟨hone, hpending⟩ := eligible_eq_singleton (h.mem_eligible hj) hfence
  have hlength := h.length_in_progress
  rw [hone] at hlength
  obtain ⟨j', hj'⟩ := List.length_eq_one_iff.mp hlength
  rw [← h.blocked] at hpending
  have hhead := h.apart
  rw [hpending] at hhead
  refine ⟨?_, hpending, fun bj hbj => ?_⟩
  · rw [hj', List.mem_singleton] at hj
    rw [hj', hj]
  · have hkey : bj.key ∈ (s.fence.m_blocked_jobs.map DiskIoJob.key).head? := by
      rw [List.head?_map, Option.mem_def.mp hbj]
      rfl
    exact hhead.rel_head? hkey hfence

theorem Tracks.finish (h : Tracks s b) {j : DiskIoJob} (hj : j ∈ s.in_progress) :
    barrierStep Prod.snd b (.finish j.key) =
        some { b with finished := b.finished ++ [j.key] } ∧
      ({ b with finished := b.finished ++ [j.key] } : Barrier (Nat × Bool)).pending =
        b.pending.erase j.key :=
  ⟨if_pos (h.mem_eligible hj), Barrier.pending_finish h.ordered.nodup⟩

/-- A fence job that completes lets the jobs up to the next fence through. -/
theorem Tracks.complete_fence (h : Tracks s b) {j : DiskIoJob} (hj : j ∈ s.in_progress)
    (hfence : j.fence = true) (jobs : List DiskIoJob) : ∃ ret f jobs',
      s.fence.job_complete j jobs = some (ret, f, jobs') ∧
      Tracks ⟨f, s.in_progress.erase j ++ StorageJobs.posted j.fence jobs jobs', s.allocated⟩
        { b with finished := b.finished ++ [j.key] } := by
  obtain ⟨hmove, hpending⟩ := h.finish hj
  obtain ⟨halone, hqueue, hhead⟩ := h.fence_alone hj hfence
  have houtstanding : s.fence.m_outstanding_jobs = 1 := by rw [h.outstanding, halone]; rfl
  refine ⟨_, _, _,
    DiskJobFence.job_complete_fence jobs (h.posted j hj) hfence houtstanding h.queued hhead, ?_⟩
  have hblocked := hpending
  rw [hqueue, List.erase_cons_head] at hblocked
  have hhead' : ∀ x ∈ (s.fence.m_blocked_jobs.map DiskIoJob.key).head?, x.2 = false := by
    intro x hx
    rw [List.head?_map, Option.mem_map] at hx
    obtain ⟨bj, hbj, rfl⟩ := hx
    exact hhead bj hbj
  have hrunning : s.in_progress.erase j ++ StorageJobs.posted j.fence jobs
      (jobs ++ (s.fence.m_blocked_jobs.takeWhile fun bj => !bj.fence).map DiskIoJob.post) =
      (s.fence.m_blocked_jobs.takeWhile fun bj => !bj.fence).map DiskIoJob.post := by
    rw [hfence, posted_fence, halone, List.erase_cons_head, List.nil_append]
  rw [hrunning]
  refine ⟨?_, ?_, ?_, ?_, ?_, ?_, ?_, h.fresh, h.ordered.step hmove⟩
  · rw [hblocked, eligible_eq_takeWhile hhead', List.takeWhile_map, List.map_map]
    exact List.Perm.refl _
  · rw [hblocked, waiting_eq_dropWhile hhead', List.dropWhile_map]
    rfl
  · rw [List.length_map]
  · rw [hblocked, h.has_fence, hqueue,
      List.countP_cons_of_pos (show Prod.snd j.key = true from hfence), Nat.add_sub_cancel]
  · intro x hx
    obtain ⟨bj, -, rfl⟩ := List.mem_map.mp hx
    rfl
  · exact fun bj hbj => h.queued bj ((List.dropWhile_suffix _).subset hbj)
  · rw [hblocked]
    have hchain := h.apart
    rw [hqueue] at hchain
    exact hchain.tail

section Plain

variable {j : DiskIoJob}

/-- Beside a plain job only plain jobs are in progress. -/
theorem Tracks.eligible_plain (h : Tracks s b) (hj : j ∈ s.in_progress) (hfence : j.fence = false) :
    ∀ x ∈ eligible Prod.snd b.pending, x.2 = false := by
  have hkey := h.mem_eligible hj
  rcases eligible_cases Prod.snd b.pending with ⟨x, xs, hcons, hx⟩ | hplain
  · rw [hcons, eligible_cons_fence hx, List.mem_singleton] at hkey
    rw [← hkey, show Prod.snd j.key = false from hfence] at hx
    cases hx
  · exact hplain

/-- The fences that are left. -/
theorem Tracks.has_fence_erase (h : Tracks s b) (hj : j ∈ s.in_progress)
    (hfence : j.fence = false) :
    s.fence.m_has_fence = (b.pending.erase j.key).countP Prod.snd := by
  have hmem : j.key ∈ b.pending := by
    rw [← eligible_append_waiting Prod.snd b.pending]
    exact List.mem_append_left _ (h.mem_eligible hj)
  rw [h.has_fence, (List.perm_cons_erase hmem).countP_eq Prod.snd,
    List.countP_cons_of_neg (by rw [show Prod.snd j.key = false from hfence]; decide)]

/-- No two of them stand side by side. -/
theorem Tracks.apart_erase (h : Tracks s b) (hj : j ∈ s.in_progress) (hfence : j.fence = false) :
    (b.pending.erase j.key).IsChain fun x y => x.2 = true → y.2 = false := by
  have hplain' : ∀ x ∈ (eligible Prod.snd b.pending).erase j.key, x.2 = false :=
    fun x hx => h.eligible_plain hj hfence x (List.mem_of_mem_erase hx)
  have hall := h.apart
  rw [← eligible_append_waiting Prod.snd b.pending] at hall
  rw [(eligible_erase (h.mem_eligible hj) hfence).1]
  refine (isChain_of_plain hplain').append hall.right_of_append fun x hx _ _ htrue => ?_
  rw [hplain' x (List.mem_of_mem_getLast? hx)] at htrue
  cases htrue

theorem Tracks.outstanding_erase (h : Tracks s b) (hj : j ∈ s.in_progress) :
    0 < s.fence.m_outstanding_jobs ∧
      (s.in_progress.erase j).length = s.fence.m_outstanding_jobs - 1 := by
  rw [h.outstanding, List.length_erase_of_mem hj]
  exact ⟨List.length_pos_of_mem hj, rfl⟩

/-- Behind the last job in progress only what was blocked is left. -/
theorem Tracks.pending_of_last (h : Tracks s b) (hj : j ∈ s.in_progress)
    (hfence : j.fence = false) (hrest : s.in_progress.erase j = []) :
    b.pending.erase j.key = waiting Prod.snd b.pending := by
  have hperm := h.erase hj
  rw [hrest, List.map_nil] at hperm
  exact (eligible_erase (h.mem_eligible hj) hfence).2.2 hperm.symm.eq_nil

/-- The last job completes and no fence waits for it. -/
theorem Tracks.complete_idle (h : Tracks s b) (hj : j ∈ s.in_progress) (hfence : j.fence = false)
    (hrest : s.in_progress.erase j = []) (hhas : s.fence.m_has_fence = 0)
    (jobs : List DiskIoJob) : ∃ ret f jobs',
      s.fence.job_complete j jobs = some (ret, f, jobs') ∧
      Tracks ⟨f, s.in_progress.erase j ++ StorageJobs.posted j.fence jobs jobs', s.allocated⟩
        { b with finished := b.finished ++ [j.key] } := by
  obtain ⟨hmove, hpending⟩ := h.finish hj
  obtain ⟨hone, hlength⟩ := h.outstanding_erase hj
  rw [hrest, List.length_nil] at hlength
  have hcount := h.has_fence_erase hj hfence
  have hchain := h.apart_erase hj hfence
  have hnil : waiting Prod.snd b.pending = [] :=
    (eligible_of_plain Prod.snd (h.plain_of_has_fence hhas)).2
  refine ⟨_, _, _,
    DiskJobFence.job_complete_plain jobs (h.posted j hj) hfence (.inr ⟨hhas, hone⟩), ?_⟩
  rw [StorageJobs.posted_none, hrest]
  rw [h.pending_of_last hj hfence hrest, hnil] at hpending hcount hchain
  refine ⟨?_, ?_, hlength.symm, ?_, ?_, h.queued, ?_, h.fresh, h.ordered.step hmove⟩
  · rw [hpending]
    exact List.Perm.refl _
  · rw [hpending, h.blocked, hnil]
    rfl
  · rw [hpending]
    exact hcount
  · exact fun x hx => (by cases hx)
  · rw [hpending]
    exact hchain

/-- The last job before a fence completes and lets the fence job through. -/
theorem Tracks.complete_last (h : Tracks s b) (hj : j ∈ s.in_progress) (hfence : j.fence = false)
    (hrest : s.in_progress.erase j = []) (hhas : s.fence.m_has_fence ≠ 0)
    (jobs : List DiskIoJob) : ∃ ret f jobs',
      s.fence.job_complete j jobs = some (ret, f, jobs') ∧
      Tracks ⟨f, s.in_progress.erase j ++ StorageJobs.posted j.fence jobs jobs', s.allocated⟩
        { b with finished := b.finished ++ [j.key] } := by
  obtain ⟨hmove, hpending⟩ := h.finish hj
  obtain ⟨hone, hlength⟩ := h.outstanding_erase hj
  rw [hrest, List.length_nil] at hlength
  have hcount := h.has_fence_erase hj hfence
  have hchain := h.apart_erase hj hfence
  have hplain := h.eligible_plain hj hfence
  have hwait := h.blocked
  obtain ⟨x, hx, hxfence⟩ := h.fence_of_has_fence hhas
  obtain ⟨bj, blocked, hblocked⟩ : ∃ bj blocked, s.fence.m_blocked_jobs = bj :: blocked := by
    refine List.exists_cons_of_ne_nil fun hnil => ?_
    rw [hnil, List.map_nil] at hwait
    rw [← eligible_append_waiting Prod.snd b.pending, ← hwait, List.append_nil] at hx
    rw [hplain x hx] at hxfence
    cases hxfence
  rw [hblocked, List.map_cons] at hwait
  have hbj : bj.fence = true := by
    refine head_waiting hplain bj.key ?_
    rw [← hwait]
    rfl
  refine ⟨_, _, _, DiskJobFence.job_complete_last jobs (h.posted j hj) hfence (by omega)
    (Nat.pos_of_ne_zero hhas) hblocked hbj (h.queued bj (hblocked ▸ List.mem_cons_self)), ?_⟩
  rw [hfence, StorageJobs.posted_last, hrest, List.nil_append]
  rw [h.pending_of_last hj hfence hrest, ← hwait] at hpending hcount hchain
  refine ⟨?_, ?_, rfl, ?_, ?_, ?_, ?_, h.fresh, h.ordered.step hmove⟩
  · rw [hpending, eligible_cons_fence (show Prod.snd bj.key = true from hbj)]
    exact List.Perm.refl _
  · rw [hpending, waiting_cons_fence (show Prod.snd bj.key = true from hbj)]
  · rw [hpending]
    exact hcount
  · intro x hx
    rw [List.mem_singleton.mp hx]
    rfl
  · exact fun x hx => h.queued x (hblocked ▸ List.mem_cons_of_mem _ hx)
  · rw [hpending]
    exact hchain

/-- While other jobs are in progress a completion lets nothing through. -/
theorem Tracks.complete_more (h : Tracks s b) (hj : j ∈ s.in_progress) (hfence : j.fence = false)
    (hrest : s.in_progress.erase j ≠ []) (jobs : List DiskIoJob) : ∃ ret f jobs',
      s.fence.job_complete j jobs = some (ret, f, jobs') ∧
      Tracks ⟨f, s.in_progress.erase j ++ StorageJobs.posted j.fence jobs jobs', s.allocated⟩
        { b with finished := b.finished ++ [j.key] } := by
  obtain ⟨hmove, hpending⟩ := h.finish hj
  obtain ⟨-, hlength⟩ := h.outstanding_erase hj
  have hperm := h.erase hj
  have hpos := List.length_pos_of_ne_nil hrest
  obtain ⟨heligible, hwaiting⟩ := (eligible_erase (h.mem_eligible hj) hfence).2.1 fun hnil =>
    hrest (by
      rw [hnil] at hperm
      exact List.map_eq_nil_iff.mp hperm.eq_nil)
  refine ⟨_, _, _,
    DiskJobFence.job_complete_plain jobs (h.posted j hj) hfence (.inl (by omega)), ?_⟩
  rw [StorageJobs.posted_none, List.append_nil]
  refine ⟨?_, ?_, hlength.symm, ?_, fun x hx => h.posted x (List.mem_of_mem_erase hx), h.queued,
    ?_, h.fresh, h.ordered.step hmove⟩
  · rw [hpending, heligible]
    exact hperm
  · rw [hpending, hwaiting]
    exact h.blocked
  · rw [hpending]
    exact h.has_fence_erase hj hfence
  · rw [hpending]
    exact h.apart_erase hj hfence

theorem Tracks.complete_plain (h : Tracks s b) (hj : j ∈ s.in_progress) (hfence : j.fence = false)
    (jobs : List DiskIoJob) : ∃ ret f jobs',
      s.fence.job_complete j jobs = some (ret, f, jobs') ∧
      Tracks ⟨f, s.in_progress.erase j ++ StorageJobs.posted j.fence jobs jobs', s.allocated⟩
        { b with finished := b.finished ++ [j.key] } := by
  by_cases hrest : s.in_progress.erase j = []
  · by_cases hhas : s.fence.m_has_fence = 0
    · exact h.complete_idle hj hfence hrest hhas jobs
    · exact h.complete_last hj hfence hrest hhas jobs
  · exact h.complete_more hj hfence hrest jobs

end Plain

theorem Tracks.complete (h : Tracks s b) {j : DiskIoJob} (hj : j ∈ s.in_progress)
    (jobs : List DiskIoJob) : ∃ ret f jobs', s.fence.job_complete j jobs = some (ret, f, jobs') ∧
      Tracks ⟨f, s.in_progress.erase j ++ StorageJobs.posted j.fence jobs jobs', s.allocated⟩
        { b with finished := b.finished ++ [j.key] } := by
  cases hfence : j.fence with
  | true => exact hfence ▸ h.complete_fence hj hfence jobs
  | false => exact hfence ▸ h.complete_plain hj hfence jobs

theorem fence_simulation : Simulation step (barrierStep Prod.snd) project Tracks := by
  intro s s' b l h hstep
  cases l with
  | add_job id blocked => exact tracks_add_job h hstep
  | add_fence_job id flush ret => exact tracks_add_fence_job h hstep
  | job_complete j jobs =>
    rw [step] at hstep
    split at hstep
    · rename_i hj
      obtain ⟨ret, f, jobs', hcomplete, htracks⟩ := h.complete hj jobs
      rw [hcomplete] at hstep
      cases hstep
      exact ⟨_, (h.finish hj).1, htracks⟩
    · cases hstep

theorem tracks_init : Tracks init ⟨[], []⟩ :=
  ⟨List.Perm.refl _, rfl, rfl, rfl, fun x hx => (by cases hx), fun x hx => (by cases hx),
    List.IsChain.nil, fun x hx => (by cases hx),
    List.nodup_nil, List.nodup_nil, fun x hx => (by cases hx), List.Pairwise.nil⟩

/-! ## Every run -/

/-- The functions of the fence that the next jobs may call get through their assertions. -/
structure AssertionsHold (s : StorageJobs) : Prop where
  is_blocked : ∀ id, s.fence.is_blocked (.allocate id) ≠ none
  raise_fence : ∀ id flush, s.fence.raise_fence (.allocate id) (.allocate flush) ≠ none
  job_complete : ∀ j ∈ s.in_progress, ∀ jobs, s.fence.job_complete j jobs ≠ none

theorem Tracks.assertionsHold (h : Tracks s b) : AssertionsHold s := by
  refine ⟨fun id => ?_, fun id flush => ?_, fun j hj jobs => ?_⟩
  · by_cases hhas : s.fence.m_has_fence = 0
    · rw [DiskJobFence.is_blocked_down hhas]
      exact Option.some_ne_none _
    · rw [DiskJobFence.is_blocked_up hhas]
      exact Option.some_ne_none _
  · by_cases hhas : s.fence.m_has_fence = 0
    · by_cases hnone : s.fence.m_outstanding_jobs = 0
      · rw [DiskJobFence.raise_fence_idle hhas hnone]
        exact Option.some_ne_none _
      · rw [DiskJobFence.raise_fence_first hhas hnone]
        exact Option.some_ne_none _
    · rw [DiskJobFence.raise_fence_again hhas]
      exact Option.some_ne_none _
  · obtain ⟨ret, f, jobs', hcomplete, -⟩ := h.complete hj jobs
    rw [hcomplete]
    exact Option.some_ne_none _

/-- Through every run, whatever order the jobs of a storage are issued and completed in: the
jobs in progress are the first job that has not completed, if that is a fence, and else all
up to the first fence; the others are blocked, in the order they were issued in; and no
assertion of the fence fails. -/
theorem fence_refines_barrier {tr : List Label} {s : StorageJobs}
    (hrun : run step init tr = some s) :
    ∃ b, run (barrierStep Prod.snd) ⟨[], []⟩ (tr.filterMap project) = some b ∧
      (s.in_progress.map DiskIoJob.key).Perm (eligible Prod.snd b.pending) ∧
      s.fence.m_blocked_jobs.map DiskIoJob.key = waiting Prod.snd b.pending ∧
      s.fence.m_outstanding_jobs = s.in_progress.length ∧
      s.fence.m_has_fence = b.pending.countP Prod.snd ∧ AssertionsHold s := by
  obtain ⟨b, hbarrier, h⟩ := fence_simulation.run tracks_init hrun
  exact ⟨b, hbarrier, h.in_progress, h.blocked, h.outstanding, h.has_fence, h.assertionsHold⟩

/-- A job in progress, two fences raised behind it, and a job between them; the first fence
runs when the job and the flush job have completed, in either order. -/
def fencedRun : List Label :=
  [.add_job 0 false, .add_fence_job 1 2 .fence_post_flush, .add_job 3 true,
    .add_fence_job 4 5 .fence_post_none, .job_complete (DiskIoJob.allocate 2).post [],
    .job_complete (DiskIoJob.allocate 0).post [(DiskIoJob.allocate 9).post],
    .job_complete (DiskJobFence.fenceJob 1).post []]

/-- The second fence waits for what the first one has let through. -/
def fencedState : StorageJobs where
  fence := ⟨1, [(DiskJobFence.fenceJob 4).block], 2⟩
  in_progress := [(DiskIoJob.allocate 3).post, (DiskIoJob.allocate 5).post]
  allocated := 6

theorem fencedRun_refines_barrier :
    ∃ b, run (barrierStep Prod.snd) ⟨[], []⟩ (fencedRun.filterMap project) = some b ∧
      (fencedState.in_progress.map DiskIoJob.key).Perm (eligible Prod.snd b.pending) ∧
      fencedState.fence.m_blocked_jobs.map DiskIoJob.key = waiting Prod.snd b.pending ∧
      fencedState.fence.m_outstanding_jobs = fencedState.in_progress.length ∧
      fencedState.fence.m_has_fence = b.pending.countP Prod.snd ∧ AssertionsHold fencedState :=
  fence_refines_barrier (by decide : run step init fencedRun = some fencedState)

/-- The jobs that a run has issued, fence jobs behind their flush jobs. -/
def issued (tr : List Label) : List (Nat × Bool) :=
  (tr.filterMap project).flatMap BarrierMove.issued

def completed (tr : List Label) : List (Nat × Bool) :=
  (tr.filterMap project).flatMap BarrierMove.finished

/-- Through every run: a fence job that is in progress is in progress alone; every job that
was issued is in one place; and of two jobs of which one is a fence, the later is not posted
before the earlier has completed. -/
theorem fence_orders_jobs {tr : List Label} {s : StorageJobs}
    (hrun : run step init tr = some s) :
    (∀ j ∈ s.in_progress, j.fence = true → s.in_progress = [j]) ∧
      (issued tr).Nodup ∧
      (issued tr).Perm (completed tr ++ s.in_progress.map DiskIoJob.key ++
        s.fence.m_blocked_jobs.map DiskIoJob.key) ∧
      (issued tr).Pairwise fun x y => (x.2 = true ∨ y.2 = true) →
        y ∈ completed tr ++ s.in_progress.map DiskIoJob.key → x ∈ completed tr := by
  obtain ⟨b, hbarrier, h⟩ := fence_simulation.run tracks_init hrun
  have hhistory := Barrier.history_of_run hbarrier
  rw [show issued tr = b.issued by rw [hhistory]; rfl,
    show completed tr = b.finished by rw [hhistory]; rfl]
  refine ⟨fun j hj hfence => (h.fence_alone hj hfence).1, h.ordered.nodup, ?_, ?_⟩
  · refine h.ordered.issued_perm.trans ?_
    have hcut := h.in_progress.append_right (waiting Prod.snd b.pending)
    rw [eligible_append_waiting] at hcut
    rw [List.append_assoc, h.blocked]
    exact hcut.symm.append_left _
  · refine h.ordered.started.imp fun {x y} hxy hor hy => hxy hor ?_
    rcases List.mem_append.mp hy with hfinished | hrunning
    · exact .inr hfinished
    · exact .inl (h.in_progress.mem_iff.mp hrunning)

theorem fencedRun_in_order :
    (issued fencedRun).Pairwise fun x y => (x.2 = true ∨ y.2 = true) →
      y ∈ completed fencedRun ++ fencedState.in_progress.map DiskIoJob.key →
        x ∈ completed fencedRun :=
  (fence_orders_jobs (by decide : run step init fencedRun = some fencedState)).2.2.2

/-- No fence waits for ever: in every state that a run reaches some job is in progress as long
as one is blocked, and each completion leaves one job less, until none is left. -/
theorem completions_drain {tr : List Label} {s : StorageJobs}
    (hrun : run step init tr = some s) :
    (s.fence.m_blocked_jobs ≠ [] → s.in_progress ≠ []) ∧
      ∀ j ∈ s.in_progress, ∀ jobs, ∃ s', step s (.job_complete j jobs) = some s' ∧
        s'.in_progress.length + s'.fence.m_blocked_jobs.length + 1 =
          s.in_progress.length + s.fence.m_blocked_jobs.length := by
  obtain ⟨b, -, h⟩ := fence_simulation.run tracks_init hrun
  have hcount : ∀ {s b}, Tracks s b →
      s.in_progress.length + s.fence.m_blocked_jobs.length = b.pending.length := by
    intro s b h
    rw [h.length_in_progress, ← List.length_map DiskIoJob.key, h.blocked, ← List.length_append,
      eligible_append_waiting]
  refine ⟨fun hblocked hnone => hblocked ?_, fun j hj jobs => ?_⟩
  · have hnil := h.pending_of_outstanding (by rw [h.outstanding, hnone]; rfl)
    have hwait := h.blocked
    rw [hnil] at hwait
    exact List.map_eq_nil_iff.mp hwait
  · obtain ⟨ret, f, jobs', hcomplete, h'⟩ := h.complete hj jobs
    refine ⟨_, by rw [step, if_pos hj, hcomplete], ?_⟩
    have hmem : j.key ∈ b.pending := by
      rw [← eligible_append_waiting Prod.snd b.pending]
      exact List.mem_append_left _ (h.mem_eligible hj)
    rw [hcount h, hcount h', (h.finish hj).2, List.length_erase_of_mem hmem]
    have hpos := List.length_pos_of_mem hmem
    omega

theorem fencedRun_drains :
    ∃ s', step fencedState (.job_complete (DiskIoJob.allocate 3).post []) = some s' ∧
      s'.in_progress.length + s'.fence.m_blocked_jobs.length + 1 = 3 :=
  (completions_drain (by decide : run step init fencedRun = some fencedState)).2 _
    (by decide) []

end StorageJobs

end TorrentApp.Torrent
