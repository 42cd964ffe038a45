/-
The thread pool on Windows (Thread/ThreadPoolImpl_Win32.cpp).

It does what it does on Linux, with a semaphore of the kernel that holds
`NSEMACOUNT` permits at most. The result of `ReleaseSemaphore` is not looked at,
so a job that is submitted when there are as many permits already stays in
`m_jobs` without one.

`surplus` counts these jobs: nothing but a permit that is refused changes it
(`surplus_step`, `surplus_stepWin32`).
-/
import XFramework.Lib.KernelSemaphore
import XFramework.Thread.ThreadPoolInv

open Fallible KernelSemaphore

namespace ThreadPool

def NSEMACOUNT : Nat := 10

namespace ThreadPoolImpl

/-- `submit_job_req`. -/
def stepSubmitWin32 (t : ThreadPoolImpl) (i : Nat) : SubmitPlace → Except PoolFault ThreadPoolImpl
  | .post job => .ok { t with m_ctrl := release NSEMACOUNT t.m_ctrl 1, submits := t.submits.set i (.wait job) }
  | s => t.stepSubmit i s

def stepStopWin32 (t : ThreadPoolImpl) : Except PoolFault ThreadPoolImpl :=
  match t.stop with
  | .post (k + 1) => .ok { t with m_ctrl := release NSEMACOUNT t.m_ctrl 1, stop := .post k }
  | _ => t.stepStop

def stepWin32 (t : ThreadPoolImpl) : Action → Except PoolFault ThreadPoolImpl
  | .submitter i =>
    match t.submits[i]? with
    | none => .error .blocked
    | some p => t.stepSubmitWin32 i p
  | .stop => t.stepStopWin32
  | a => t.step a

/-- No submitter has pushed a job without posting, and no worker has a permit without popping. -/
def Outside (t : ThreadPoolImpl) : Prop :=
  (∀ s ∈ t.submits, s.posts = false) ∧ ∀ p ∈ t.workers, p.locks = false

instance (t : ThreadPoolImpl) : Decidable t.Outside := inferInstanceAs (Decidable (_ ∧ _))

/-- A permit that is posted is not refused. -/
def Released (t : ThreadPoolImpl) : Action → Prop
  | .submitter i => ∀ p, t.submits[i]? = some p → p.posts = true → t.m_ctrl < NSEMACOUNT
  | _ => True

instance (t : ThreadPoolImpl) : ∀ a, Decidable (t.Released a)
  | .submitter i => decForallSome (t.submits[i]?)
  | .register .. | .submit _ | .worker _ | .stop => isTrue trivial

/-- The jobs for which there is no permit, none on its way and none taken. -/
def surplus (t : ThreadPoolImpl) : Int :=
  t.m_jobs.length - (t.m_ctrl + t.submits.countP SubmitPlace.posts + t.workers.countP RunPlace.locks)

variable {t t' : ThreadPoolImpl} {a : Action} {acts : List Action} {i : Nat} {limit : Int} {m_MaxPriority m_LowPriority : String}
  {m_taskCmp : Option TCompare}

theorem surplus_begin : (begin limit m_MaxPriority m_LowPriority m_taskCmp).surplus = 0 := by
  have hworkers : (begin limit m_MaxPriority m_LowPriority m_taskCmp).workers.countP RunPlace.locks = 0 :=
    List.countP_eq_zero.2 fun p hp => by simp [List.eq_of_mem_replicate hp, RunPlace.locks]
  rw [surplus, hworkers]
  rfl

theorem Outside.surplus (h : t.Outside) : t.surplus = t.m_jobs.length - t.m_ctrl := by
  have hsubmits : t.submits.countP SubmitPlace.posts = 0 := List.countP_eq_zero.2 fun s hs => by simp [h.1 s hs]
  have hworkers : t.workers.countP RunPlace.locks = 0 := List.countP_eq_zero.2 fun p hp => by simp [h.2 p hp]
  rw [ThreadPoolImpl.surplus, hsubmits, hworkers]
  omega

/-- A submitter makes a step, and loses `k` permits. -/
theorem surplus_submit {s s' : SubmitPlace} (k : Nat) (hi : t.submits[i]? = some s)
    (hsubmits : t'.submits = t.submits.set i s') (hworkers : t'.workers = t.workers)
    (heven : t'.m_ctrl + s'.posts.toNat + t.m_jobs.length + k = t.m_ctrl + s.posts.toNat + t'.m_jobs.length) :
    t'.surplus = t.surplus + k := by
  have hcount := Threads.countP_set (p := SubmitPlace.posts) (b := s') hi
  rw [surplus, surplus, hsubmits, hworkers]
  omega

/-- A worker makes a step. -/
theorem surplus_run {p p' : RunPlace} (hi : t.workers[i]? = some p) (hworkers : t'.workers = t.workers.set i p')
    (hsubmits : t'.submits = t.submits)
    (heven : t'.m_ctrl + p'.locks.toNat + t.m_jobs.length = t.m_ctrl + p.locks.toNat + t'.m_jobs.length) :
    t'.surplus = t.surplus := by
  have hcount := Threads.countP_set (p := RunPlace.locks) (b := p') hi
  rw [surplus, surplus, hsubmits, hworkers]
  omega

theorem surplus_stepSubmit {s : SubmitPlace} (hi : t.submits[i]? = some s) (hstep : t.stepSubmit i s = .ok t') :
    t'.surplus = t.surplus := by
  rw [← Int.add_zero t.surplus]
  cases s with
  | test job =>
    cases hstep
    exact surplus_submit 0 hi rfl rfl (by cases t.m_flag <;> rfl)
  | lock job =>
    cases hstep
    obtain ⟨jobs, -, -, ⟨-, heq⟩ | heq⟩ := lockSubmit_eq t i job
    · rw [heq]
      exact surplus_submit 0 hi rfl rfl rfl
    · rw [heq]
      refine surplus_submit 0 hi rfl rfl ?_
      simp only [touch, note, SubmitPlace.posts, Bool.toNat_true, Bool.toNat_false, List.length_append, List.length_singleton]
      omega
  | post job =>
    cases hstep
    exact surplus_submit 0 hi rfl rfl rfl
  | wait job =>
    cases hstep
    exact surplus_submit 0 hi rfl rfl rfl
  | returned r => cases hstep

theorem surplus_stepRun {p : RunPlace} (hi : t.workers[i]? = some p) (hstep : t.stepRun i p = .ok t') :
    t'.surplus = t.surplus := by
  cases p with
  | loop =>
    cases hstep
    exact surplus_run hi rfl rfl (by cases t.m_flag <;> rfl)
  | semWait =>
    rw [stepRun] at hstep
    split_ifs at hstep with hzero
    cases hstep
    refine surplus_run hi rfl rfl ?_
    simp only [RunPlace.locks, Bool.toNat_true, Bool.toNat_false]
    omega
  | lock =>
    obtain ⟨job, jobs, l₁, l₂, -, hl, rfl⟩ := lockRun_eq_ok hstep
    refine surplus_run hi rfl rfl ?_
    simp only [hl, touch, note, RunPlace.locks, Bool.toNat_true, Bool.toNat_false, List.length_append, List.length_cons]
    omega
  | find job =>
    cases hstep
    exact surplus_run hi rfl rfl (by cases (t.m_tasks.find? job.m_type).isSome <;> rfl)
  | process job =>
    rw [stepRun] at hstep
    split at hstep
    case h_1 => cases hstep
    case h_2 =>
      cases hstep
      exact surplus_run hi rfl rfl rfl
  | done job | delete job =>
    cases hstep
    exact surplus_run hi rfl rfl rfl
  | ended => cases hstep

/-- On Linux the surplus stays what it is. -/
theorem surplus_step (ha : a ≠ .stop) (hstep : t.step a = .ok t') : t'.surplus = t.surplus := by
  cases a with
  | register type process =>
    cases hstep
    rfl
  | submit type =>
    cases hstep
    rw [surplus, surplus, Threads.countP_concat]
    rfl
  | submitter i =>
    rw [step] at hstep
    split at hstep
    case h_1 => cases hstep
    case h_2 s hi => exact surplus_stepSubmit hi hstep
  | worker i =>
    rw [step] at hstep
    split at hstep
    case h_1 => cases hstep
    case h_2 p hi => exact surplus_stepRun hi hstep
  | stop => exact absurd rfl ha

/-- A post adds a permit, or it is refused. -/
theorem surplus_post {job : Task} (hi : t.submits[i]? = some (.post job)) (hstep : t.stepSubmitWin32 i (.post job) = .ok t') :
    t.surplus ≤ t'.surplus ∧ (t'.surplus = t.surplus ↔ t.m_ctrl < NSEMACOUNT) := by
  have hnext : t' = { t with
      m_ctrl := release NSEMACOUNT t.m_ctrl 1
      submits := t.submits.set i (.wait job) } := (Except.ok.inj hstep).symm
  have hsubmits : t'.submits = t.submits.set i (.wait job) := by rw [hnext]
  have hworkers : t'.workers = t.workers := by rw [hnext]
  by_cases hroom : t.m_ctrl < NSEMACOUNT
  · have hsame : t'.surplus = t.surplus + (0 : Nat) := surplus_submit 0 hi hsubmits hworkers (by
      rw [hnext, release_of_le (Nat.succ_pos 0) hroom]
      rfl)
    rw [Int.natCast_zero, Int.add_zero] at hsame
    exact ⟨hsame.ge, iff_of_true hsame hroom⟩
  · have hmore : t'.surplus = t.surplus + (1 : Nat) := surplus_submit 1 hi hsubmits hworkers (by
      rw [hnext, release_refused (by omega)]
      exact Nat.add_right_comm ..)
    refine ⟨by omega, iff_of_false (fun hsame => ?_) hroom⟩
    omega

theorem surplus_stepWin32 (ha : a ≠ .stop) (hstep : t.stepWin32 a = .ok t') :
    t.surplus ≤ t'.surplus ∧ (t'.surplus = t.surplus ↔ t.Released a) := by
  have hlinux (htrue : t.Released a) (h : t.step a = .ok t') :
      t.surplus ≤ t'.surplus ∧ (t'.surplus = t.surplus ↔ t.Released a) :=
    ⟨(surplus_step ha h).ge, iff_of_true (surplus_step ha h) htrue⟩
  cases a with
  | register type process | submit type | worker i => exact hlinux trivial hstep
  | stop => exact absurd rfl ha
  | submitter i =>
    rw [stepWin32] at hstep
    split at hstep
    case h_1 => cases hstep
    case h_2 s hi =>
      have hsame (hnot : s.posts = false) (h : t.stepSubmit i s = .ok t') :
          t.surplus ≤ t'.surplus ∧ (t'.surplus = t.surplus ↔ t.Released (.submitter i)) := by
        refine hlinux (fun p hp hpost => ?_) (by rw [step, hi]; exact h)
        rw [hi] at hp
        rw [← Option.some.inj hp, hnot] at hpost
        cases hpost
      cases s with
      | post job =>
        obtain ⟨hle, hiff⟩ := surplus_post hi hstep
        refine ⟨hle, hiff.trans ⟨fun h _ _ _ => h, fun h => h _ hi rfl⟩⟩
      | test job | lock job | wait job | returned r => exact hsame rfl hstep

/-- Before `Stop` and outside of the sections there is a permit for each job: on Linux in every run, on Windows in those
runs in which no permit that was posted was refused. -/
theorem permits_run_iff (limit : Int) (m_MaxPriority m_LowPriority : String) (m_taskCmp : Option TCompare)
    (acts : List Action) (hacts : .stop ∉ acts) :
    (∀ t, acts.foldlM step (begin limit m_MaxPriority m_LowPriority m_taskCmp) = .ok t → t.Outside →
      t.m_ctrl = t.m_jobs.length) ∧
    ∀ t, acts.foldlM stepWin32 (begin limit m_MaxPriority m_LowPriority m_taskCmp) = .ok t → t.Outside →
      (t.m_ctrl = t.m_jobs.length ↔
        Along stepWin32 Released (begin limit m_MaxPriority m_LowPriority m_taskCmp) acts) := by
  have hstop : ∀ a ∈ acts, a ≠ .stop := fun a ha heq => hacts (heq ▸ ha)
  constructor
  case left =>
    intro t hrun hout
    have hzero : t.surplus = 0 := by
      refine foldlM_run (fun t => t.surplus = 0) hrun surplus_begin fun s t a ha hs hstep => ?_
      rw [surplus_step (hstop a ha) hstep, hs]
    rw [hout.surplus] at hzero
    omega
  case right =>
    intro t hrun hout
    obtain ⟨-, hiff⟩ := along_iff_measure (fun _ => True) surplus hrun trivial
      fun s a ha t _ hstep => ⟨trivial, surplus_stepWin32 (hstop a ha) hstep⟩
    rw [← hiff, hout.surplus, surplus_begin]
    omega

/-- So many calls of `submit_job_req`. -/
def burst (n : Nat) : List Action :=
  List.replicate n (.submit "test") ++ (List.range n).flatMap fun i => List.replicate 4 (.submitter i)

theorem stop_not_mem_burst {n : Nat} : .stop ∉ burst n := by
  simp [burst]

theorem permits_run_ten : ∃ t, (burst 10).foldlM stepWin32 (begin 4 "-1" "-1" none) = .ok t ∧ t.m_jobs.length = 10 ∧
    t.m_ctrl = t.m_jobs.length := by
  have hended : ∃ t, (burst 10).foldlM stepWin32 (begin 4 "-1" "-1" none) = .ok t ∧ t.m_jobs.length = 10 ∧ t.Outside := by
    decide +kernel
  obtain ⟨t, hrun, hjobs, hout⟩ := hended
  exact ⟨t, hrun, hjobs, ((permits_run_iff 4 "-1" "-1" none (burst 10) stop_not_mem_burst).2 t hrun hout).2 (by decide +kernel)⟩

/-- The permit for the eleventh job is refused. -/
theorem no_permit_eleven : ∃ t, (burst 11).foldlM stepWin32 (begin 4 "-1" "-1" none) = .ok t ∧ t.Outside ∧
    t.m_jobs.length = 11 ∧ t.m_ctrl = 10 := by
  decide +kernel

end ThreadPoolImpl

end ThreadPool
