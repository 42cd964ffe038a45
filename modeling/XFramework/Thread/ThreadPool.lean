/-
The thread pool (Thread/ThreadPoolImpl_Linux.cpp, Thread/Task.h).

Submitters push jobs under `m_lock` and post a permit for each; a worker takes
a permit, pops a job, looks its type up, calls the `TaskProcess`, and then
calls `done(0)` and deletes the job. `Stop` takes no lock: it posts a permit
for each worker, clears `m_tasks`, and calls `done(1)` for what it finds in
`m_jobs`. The steps are the sections under `m_lock` and, outside of them, each
access to what the threads share.

A job is where its history says (`Located`): in `m_jobs`, with the worker that
took it, with `Stop`, or deleted. So it goes one way or the other, and each
step on it is made once.
-/
import XFramework.Lib.StdMap
import XFramework.Lib.Threads
import XFramework.Lib.Fallible
import Mathlib.Data.String.Basic

open Fallible

namespace ThreadPool

/-- `id` numbers the calls of `submit_job_req`; each has a job of its own. -/
structure Task where
  id : Nat
  m_type : String
  deriving DecidableEq

/-- What was done with a job: pushed into `m_jobs`, taken out by a worker, passed to a `TaskProcess`, told by
`done(n)`, deleted. -/
inductive TaskEvent
  | pushed
  | taken (worker : Nat)
  | processed (process : Nat)
  | done (n : Int)
  | deleted
  deriving DecidableEq

abbrev TCompare : Type := String → Task → Task → Bool

/-- `TaskTypeCompare(t, pNew, f)(other)`. -/
def taskTypeCompare (t : String) (pNew : Option Task) (f : Option TCompare) (other : Task) : Bool :=
  match f, pNew with
  | some f, some new => f t other new
  | _, _ => other.m_type = t

/-- Where a call of `submit_job_req` is: before the test of `m_flag`, `m_lock`, `sem_post`, `job->wait()`, or
back, with `none` for what the virtual `wait` returns. -/
inductive SubmitPlace
  | test (job : Task)
  | lock (job : Task)
  | post (job : Task)
  | wait (job : Task)
  | returned (r : Option Int)
  deriving DecidableEq

/-- Where a worker is: before the test of `m_flag`, `sem_wait`, `m_lock`, the test of the type, the call of the
`TaskProcess`, `done(0)`, `delete`, or at its end. -/
inductive RunPlace
  | loop
  | semWait
  | lock
  | find (job : Task)
  | process (job : Task)
  | done (job : Task)
  | delete (job : Task)
  | ended
  deriving DecidableEq

/-- Where `Stop` is, once it was called; `post` has so many permits to post yet. -/
inductive StopPlace
  | idle
  | post (k : Nat)
  | clear
  | empty
  | front
  | done (job : Task)
  | delete (job : Task)
  | popFront (job : Task)
  | ended
  deriving DecidableEq

/-- Why a step is not made: the thread waits or has ended, or uses the end of an empty list or map. -/
inductive PoolFault
  | blocked
  | dangling
  deriving DecidableEq

/-- `history` notes what was done with each job, and `late` the jobs that were touched after they were
deleted. -/
structure ThreadPoolImpl where
  m_thread_sum : Nat
  m_flag : Bool
  m_MaxPriority : String
  m_LowPriority : String
  m_taskCmp : Option TCompare
  m_ctrl : Nat
  m_jobs : List Task
  m_tasks : StdMap String Nat
  submits : List SubmitPlace
  workers : List RunPlace
  stop : StopPlace
  history : Task → List TaskEvent
  late : List Task

namespace ThreadPoolImpl

inductive Action
  | register (type : String) (process : Nat)
  | submit (type : String)
  | submitter (i : Nat)
  | worker (i : Nat)
  | stop

/-- `ThreadPoolImpl(limit)` and `Init`, with the types that were set. -/
def begin (limit : Int) (m_MaxPriority m_LowPriority : String) (m_taskCmp : Option TCompare) : ThreadPoolImpl where
  m_thread_sum := (limit % 256).toNat
  m_flag := true
  m_MaxPriority := m_MaxPriority
  m_LowPriority := m_LowPriority
  m_taskCmp := m_taskCmp
  m_ctrl := 0
  m_jobs := []
  m_tasks := .empty
  submits := []
  workers := List.replicate (limit % 256).toNat .loop
  stop := .idle
  history := fun _ => []
  late := []

def note (t : ThreadPoolImpl) (job : Task) (e : TaskEvent) : ThreadPoolImpl :=
  { t with history := Function.update t.history job (t.history job ++ [e]) }

/-- The jobs are read. -/
def touch (t : ThreadPoolImpl) (jobs : List Task) : ThreadPoolImpl :=
  { t with late := t.late ++ jobs.filter fun job => .deleted ∈ t.history job }

/-- The jobs that `find_if` reads, when the type it looks for is set. -/
def tested (t : ThreadPoolImpl) (type : String) (p : Task → Bool) : List Task :=
  if type ≠ "-1" then t.m_jobs.take (t.m_jobs.findIdx p + 1) else []

/-- `submit_job_req` under the lock. -/
def lockSubmit (t : ThreadPoolImpl) (i : Nat) (job : Task) : ThreadPoolImpl :=
  let same := taskTypeCompare t.m_LowPriority (some job) t.m_taskCmp
  let touched := t.touch (t.tested t.m_LowPriority same)
  if t.m_LowPriority ≠ "-1" ∧ t.m_jobs.any same then
    { touched.note job .deleted with submits := t.submits.set i (.returned (some (-2))) }
  else { touched.note job .pushed with m_jobs := t.m_jobs ++ [job], submits := t.submits.set i (.post job) }

def stepSubmit (t : ThreadPoolImpl) (i : Nat) : SubmitPlace → Except PoolFault ThreadPoolImpl
  | .test job =>
    .ok { t with submits := t.submits.set i (if t.m_flag then .lock job else .returned (some (-1))) }
  | .lock job => .ok (t.lockSubmit i job)
  | .post job => .ok { t with m_ctrl := t.m_ctrl + 1, submits := t.submits.set i (.wait job) }
  | .wait job => .ok { t.touch [job] with submits := t.submits.set i (.returned none) }
  | .returned _ => .error .blocked

/-- `run` under the lock. -/
def lockRun (t : ThreadPoolImpl) (i : Nat) : Except PoolFault ThreadPoolImpl :=
  let high := taskTypeCompare t.m_MaxPriority none none
  let touched := t.touch (t.tested t.m_MaxPriority high)
  match if t.m_MaxPriority ≠ "-1" then t.m_jobs.find? high else none with
  | some job => .ok { touched.note job (.taken i) with
      m_jobs := t.m_jobs.eraseP high
      workers := t.workers.set i (.find job) }
  | none =>
    match t.m_jobs with
    | [] => .error .dangling
    | job :: rest => .ok { touched.note job (.taken i) with m_jobs := rest, workers := t.workers.set i (.find job) }

def stepRun (t : ThreadPoolImpl) (i : Nat) : RunPlace → Except PoolFault ThreadPoolImpl
  | .loop => .ok { t with workers := t.workers.set i (if t.m_flag then .semWait else .ended) }
  | .semWait =>
    if t.m_ctrl = 0 then .error .blocked
    else .ok { t with m_ctrl := t.m_ctrl - 1, workers := t.workers.set i .lock }
  | .lock => t.lockRun i
  -- a job whose type is not registered is dropped
  | .find job => .ok { t.touch [job] with
      workers := t.workers.set i (if (t.m_tasks.find? job.m_type).isSome then .process job else .loop) }
  | .process job =>
    match t.m_tasks.find? job.m_type with
    | none => .error .dangling
    | some process => .ok { (t.touch [job]).note job (.processed process) with workers := t.workers.set i (.done job) }
  | .done job => .ok { (t.touch [job]).note job (.done 0) with workers := t.workers.set i (.delete job) }
  | .delete job => .ok { (t.touch [job]).note job .deleted with workers := t.workers.set i .loop }
  | .ended => .error .blocked

/-- `m_jobs.front()` of `Stop`. -/
def stopFront (t : ThreadPoolImpl) : Except PoolFault ThreadPoolImpl :=
  match t.m_jobs with
  | [] => .error .dangling
  | job :: _ => .ok { t with stop := .done job }

/-- `m_jobs.pop_front()` of `Stop`. -/
def stopPopFront (t : ThreadPoolImpl) : Except PoolFault ThreadPoolImpl :=
  match t.m_jobs with
  | [] => .error .dangling
  | _ :: rest => .ok { t with m_jobs := rest, stop := .empty }

def stepStop (t : ThreadPoolImpl) : Except PoolFault ThreadPoolImpl :=
  match t.stop with
  | .idle =>
    if t.m_flag then .ok { t with m_flag := false, stop := .post t.m_thread_sum } else .ok { t with stop := .ended }
  | .post 0 => .ok { t with stop := .clear }
  | .post (k + 1) => .ok { t with m_ctrl := t.m_ctrl + 1, stop := .post k }
  | .clear => .ok { t with m_tasks := .empty, stop := .empty }
  | .empty => .ok { t with stop := if t.m_jobs = [] then .ended else .front }
  | .front => t.stopFront
  | .done job => .ok { (t.touch [job]).note job (.done 1) with stop := .delete job }
  | .delete job => .ok { (t.touch [job]).note job .deleted with stop := .popFront job }
  | .popFront _ => t.stopPopFront
  | .ended => .error .blocked

def step (t : ThreadPoolImpl) : Action → Except PoolFault ThreadPoolImpl
  | .register type process => .ok { t with m_tasks := t.m_tasks.insert type process }
  | .submit type => .ok { t with submits := t.submits ++ [.test ⟨t.submits.length, type⟩] }
  | .submitter i =>
    match t.submits[i]? with
    | none => .error .blocked
    | some p => t.stepSubmit i p
  | .worker i =>
    match t.workers[i]? with
    | none => .error .blocked
    | some p => t.stepRun i p
  | .stop => t.stepStop

variable {t t' : ThreadPoolImpl} {i : Nat}

theorem tested_subset {type : String} {f : Task → Bool} : t.tested type f ⊆ t.m_jobs := by
  rw [tested]
  split_ifs
  · exact List.take_subset ..
  · exact List.nil_subset _

/-- A worker takes one of the jobs out. -/
theorem lockRun_eq_ok (h : t.lockRun i = .ok t') : ∃ job jobs l₁ l₂, jobs ⊆ t.m_jobs ∧ t.m_jobs = l₁ ++ job :: l₂ ∧
    t' = { (t.touch jobs).note job (.taken i) with m_jobs := l₁ ++ l₂, workers := t.workers.set i (.find job) } := by
  rw [lockRun] at h
  dsimp only at h
  split at h
  case h_1 job hpick =>
    cases h
    obtain ⟨-, hfind⟩ : t.m_MaxPriority ≠ "-1" ∧ _ := Option.ite_none_right_eq_some.1 hpick
    obtain ⟨hjob, l₁, l₂, hl, hne⟩ := List.find?_eq_some_iff_append.1 hfind
    have herase : t.m_jobs.eraseP (taskTypeCompare t.m_MaxPriority none none) = l₁ ++ l₂ := by
      rw [hl, List.eraseP_append_right _ (by simpa using hne), List.eraseP_cons_of_pos hjob]
    exact ⟨job, _, l₁, l₂, tested_subset, hl, by rw [herase]⟩
  case h_2 =>
    split at h
    case h_1 => cases h
    case h_2 job rest hjobs =>
      cases h
      exact ⟨job, _, [], rest, tested_subset, hjobs, rfl⟩

/-- A submitter pushes its job, or deletes it. -/
theorem lockSubmit_eq (t : ThreadPoolImpl) (i : Nat) (job : Task) : ∃ jobs ⊆ t.m_jobs,
    (t.m_LowPriority = "-1" → jobs = []) ∧
    (t.m_LowPriority ≠ "-1" ∧
        t.lockSubmit i job = { (t.touch jobs).note job .deleted with submits := t.submits.set i (.returned (some (-2))) } ∨
      t.lockSubmit i job = { (t.touch jobs).note job .pushed with
        m_jobs := t.m_jobs ++ [job]
        submits := t.submits.set i (.post job) }) := by
  refine ⟨t.tested t.m_LowPriority (taskTypeCompare t.m_LowPriority (some job) t.m_taskCmp), tested_subset,
    fun h => by rw [tested, if_neg (not_not_intro h)], ?_⟩
  rw [lockSubmit]
  dsimp only
  split_ifs with hsame
  · exact .inl ⟨hsame.1, rfl⟩
  · exact .inr rfl

end ThreadPoolImpl

end ThreadPool
