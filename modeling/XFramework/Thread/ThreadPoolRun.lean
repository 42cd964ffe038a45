/-
What becomes of the jobs (Thread/ThreadPoolImpl_Linux.cpp,
TestCase/Thread/TaskPool.cpp).

While the pool is not stopped, and the type of every job is registered, each
job goes through the same five steps (`runsOnce_run`). Over a `Stop` the jobs
keep their lifetime in runs in which a job is deleted when its submitter has
come back from `wait`, a worker finds the type of its job, and neither workers
nor submitters are left behind in their sections when `Stop` takes the jobs
out (`lifetime_run`).
-/
import XFramework.Thread.ThreadPoolInv

open Fallible

namespace ThreadPool

open ThreadPoolImpl

/-- What the worker `i` does with a job. -/
def served (i process : Nat) : List TaskEvent := [.pushed, .taken i, .processed process, .done 0, .deleted]

/-- What `Stop` does with a job. -/
def cancelled : List TaskEvent := [.pushed, .done 1, .deleted]

/-- A pool that is not stopped runs each job once. -/
structure RunsOnce (t : ThreadPoolImpl) : Prop where
  /-- A job is taken by one worker, when it was pushed, and then goes to the `TaskProcess` of its type. -/
  ordered : ∀ job, ∃ i process, t.history job <+: served i process ∧
    (.processed process ∈ t.history job → t.m_tasks.find? job.m_type = some process)
  /-- It goes through all of this, as soon as the worker does not have it any more. -/
  complete : ∀ job i, .taken i ∈ t.history job → (∀ p, t.workers[i]? = some p → p.job ≠ some job) →
    ∃ process, t.history job = served i process
  nonempty : ∀ i : Nat, t.workers[i]? = some .lock → t.m_jobs ≠ []
  /-- All submitters are back, and all workers wait in `sem_wait`. -/
  quiet : (∀ s ∈ t.submits, s.job = none) → (∀ p ∈ t.workers, p = .semWait) → t.m_ctrl = 0 →
    ∀ job, .pushed ∈ t.history job → ∃ i process, t.history job = served i process

/-- The pool is not stopped, and the type of a job is registered. -/
def Registers (t : ThreadPoolImpl) : Action → Prop
  | .submit type => (t.m_tasks.find? type).isSome
  | .stop => False
  | _ => True

/-- The type of each job is registered, and the job goes to its `TaskProcess`. -/
structure Typed (t : ThreadPoolImpl) : Prop where
  types : ∀ job, t.history job ≠ [] → (t.m_tasks.find? job.m_type).isSome
  processes : ∀ job p, .processed p ∈ t.history job → t.m_tasks.find? job.m_type = some p

structure Running (t : ThreadPoolImpl) : Prop where
  inv : Inv t
  flag : t.m_flag = true
  low : t.m_LowPriority = "-1"
  submits : ∀ s ∈ t.submits, ∀ job, s.job = some job → (t.m_tasks.find? job.m_type).isSome
  typed : Typed t

variable {t t' : ThreadPoolImpl} {a : Action} {acts : List Action} {i : Nat} {job : Task} {p : RunPlace} {s s' : SubmitPlace}
  {limit : Int} {m_MaxPriority m_LowPriority : String} {m_taskCmp : Option TCompare}

theorem inv_begin : Inv (begin limit m_MaxPriority m_LowPriority m_taskCmp) := by
  have hworkers : ∀ (i : Nat) p, (begin limit m_MaxPriority m_LowPriority m_taskCmp).workers[i]? = some p → p = .loop :=
    fun i p hp => List.eq_of_mem_replicate (List.mem_of_getElem? hp)
  constructor
  case jobs =>
    intro job
    constructor
    case located => exact .new
    case queued => nofun
    case stopped => nofun
    case held =>
      intro i p hp hjob
      rw [hworkers i p hp] at hjob
      cases hjob
  case calls => exact ⟨by simp [begin], fun _ _ _ => rfl, fun _ _ => rfl⟩
  case permits =>
    have hnone : (begin limit m_MaxPriority m_LowPriority m_taskCmp).workers.countP RunPlace.locks = 0 := by
      rw [List.countP_eq_zero]
      intro p hp
      rw [List.eq_of_mem_replicate hp]
      nofun
    constructor
    case nodup => exact List.nodup_nil
    case front => nofun
    case flag => exact iff_of_true rfl rfl
    case permits => exact fun _ => by rw [hnone]; rfl
    case enough => exact fun _ => by rw [hnone]; exact Nat.zero_le _
    case quiet => nofun
    case types => exact fun job hjob => nomatch List.eq_of_mem_replicate hjob

/-- Where a job is that was pushed. -/
theorem JobAt.pushed (h : JobAt t job) (hpushed : .pushed ∈ t.history job) : job ∈ t.m_jobs ∨
    (∃ p ∈ t.workers, p.job = some job) ∨ t.stop.job = some job ∨
    (∃ i process, t.history job = served i process) ∨ t.history job = cancelled := by
  have hlocated := h.located
  generalize t.history job = l at hlocated hpushed ⊢
  cases hlocated with
  | new => cases hpushed
  | merged => simp at hpushed
  | queued hjob => exact .inl hjob
  | taken i hi => exact .inr (.inl (hi.elim (fun hi => ⟨_, List.mem_of_getElem? hi, rfl⟩) fun hi => ⟨_, List.mem_of_getElem? hi, rfl⟩))
  | processed i p hi => exact .inr (.inl ⟨_, List.mem_of_getElem? hi, rfl⟩)
  | told i p hi => exact .inr (.inl ⟨_, List.mem_of_getElem? hi, rfl⟩)
  | finished i p => exact .inr (.inr (.inr (.inl ⟨i, p, rfl⟩)))
  | cancelled hstop => exact .inr (.inr (.inl (by rw [hstop]; rfl)))
  | dropped => exact .inr (.inr (.inr (.inr rfl)))

/-! ## A running pool -/

theorem Typed.keep (h : Typed t) (htasks : ∀ type process, t.m_tasks.find? type = some process → t'.m_tasks.find? type = some process)
    (hhistory : t'.history = t.history) : Typed t' := by
  constructor
  case types =>
    intro job hne
    obtain ⟨process, hfind⟩ := Option.isSome_iff_exists.1 (h.types job (hhistory ▸ hne))
    exact Option.isSome_iff_exists.2 ⟨process, htasks _ _ hfind⟩
  case processes => exact fun job p hp => htasks _ _ (h.processes job p (hhistory ▸ hp))

theorem Typed.note (h : Typed t) (htype : (t.m_tasks.find? job.m_type).isSome) (e : TaskEvent)
    (he : ∀ p, e = .processed p → t.m_tasks.find? job.m_type = some p) (htasks : t'.m_tasks = t.m_tasks)
    (hhistory : t'.history = Function.update t.history job (t.history job ++ [e])) : Typed t' := by
  constructor
  case types =>
    intro j hne
    rw [htasks]
    by_cases hj : j = job
    · exact hj ▸ htype
    · rw [hhistory, Function.update_of_ne hj] at hne
      exact h.types j hne
  case processes =>
    intro j p hp
    rw [htasks]
    rw [hhistory] at hp
    by_cases hj : j = job
    · rw [hj, Function.update_self, List.mem_append, List.mem_singleton] at hp
      rw [hj]
      exact hp.elim (h.processes job p) fun hp => he p hp.symm
    · rw [Function.update_of_ne hj] at hp
      exact h.processes j p hp

/-- The type of a job that a worker has is registered. -/
theorem Running.type_held (h : Running t) (hi : t.workers[i]? = some p) (hp : p.job = some job) :
    (t.m_tasks.find? job.m_type).isSome := by
  refine h.typed.types job fun hnil => ?_
  have hsecond := ((h.inv.jobs job).held i p hi hp).second hp
  rw [hnil] at hsecond
  cases hsecond

theorem Running.serves (h : Running t) (hok : Registers t a) : Serves t a := by
  cases a with
  | worker i =>
    intro p hp
    cases p with
    | semWait => exact fun hoff => nomatch h.flag.symm.trans hoff
    | find job => exact h.type_held hp rfl
    | _ => exact trivial
  | stop => cases hok
  | _ => exact trivial

theorem Running.stepSubmit (h : Running t) (hi : t.submits[i]? = some s) (hstep : t.stepSubmit i s = .ok t') : Running t' := by
  have hs : ∀ job, s.job = some job → (t.m_tasks.find? job.m_type).isSome := h.submits s (List.mem_of_getElem? hi)
  have hsubmits : ∀ s' : SubmitPlace, (∀ job, s'.job = some job → s.job = some job) → ∀ x ∈ t.submits.set i s', ∀ job,
      x.job = some job → (t.m_tasks.find? job.m_type).isSome := by
    intro s' hs' x hx job hjob
    rcases List.mem_or_eq_of_mem_set hx with hx | rfl
    · exact h.submits x hx job hjob
    · exact hs job (hs' job hjob)
  have hinv := h.inv.stepSubmit hi hstep
  cases s with
  | test job =>
    cases hstep
    exact ⟨hinv, h.flag, h.low, hsubmits _ (by split_ifs <;> simp [SubmitPlace.job]), h.typed.keep (fun _ _ => id) rfl⟩
  | lock job =>
    cases hstep
    obtain ⟨jobs, -, -, ⟨hlow, -⟩ | heq⟩ := lockSubmit_eq t i job
    · exact absurd h.low hlow
    · rw [heq] at hinv ⊢
      exact ⟨hinv, h.flag, h.low, hsubmits _ fun _ => id, h.typed.note (hs job rfl) .pushed nofun rfl rfl⟩
  | post job =>
    cases hstep
    exact ⟨hinv, h.flag, h.low, hsubmits _ fun _ => id, h.typed.keep (fun _ _ => id) rfl⟩
  | wait job =>
    cases hstep
    exact ⟨hinv, h.flag, h.low, hsubmits _ nofun, h.typed.keep (fun _ _ => id) rfl⟩
  | returned r => cases hstep

theorem Running.stepRun (h : Running t) (hi : t.workers[i]? = some p) (hstep : t.stepRun i p = .ok t') : Running t' := by
  have hinv := h.inv.stepRun hi (h.serves (a := .worker i) trivial) hstep
  have htype : ∀ job, p.job = some job → (t.m_tasks.find? job.m_type).isSome := fun _ => h.type_held hi
  cases p with
  | loop =>
    cases hstep
    exact ⟨hinv, h.flag, h.low, h.submits, h.typed.keep (fun _ _ => id) rfl⟩
  | semWait =>
    rw [ThreadPoolImpl.stepRun] at hstep
    split_ifs at hstep
    cases hstep
    exact ⟨hinv, h.flag, h.low, h.submits, h.typed.keep (fun _ _ => id) rfl⟩
  | lock =>
    obtain ⟨job, jobs, l₁, l₂, -, hl, rfl⟩ := lockRun_eq_ok hstep
    have hpushed : t.history job = [.pushed] :=
      h.inv.queued (h.inv.not_drains hi rfl) (by rw [hl]; exact List.mem_append_right _ List.mem_cons_self)
    exact ⟨hinv, h.flag, h.low, h.submits, h.typed.note (h.typed.types job (by simp [hpushed])) (.taken i) (fun p hp => by cases hp) rfl rfl⟩
  | find job =>
    cases hstep
    exact ⟨hinv, h.flag, h.low, h.submits, h.typed.keep (fun _ _ => id) rfl⟩
  | process job =>
    rw [ThreadPoolImpl.stepRun] at hstep
    split at hstep
    case h_1 => cases hstep
    case h_2 process hfind =>
      cases hstep
      refine ⟨hinv, h.flag, h.low, h.submits, h.typed.note (htype job rfl) (.processed process) (fun p hp => ?_) rfl rfl⟩
      cases hp
      exact hfind
  | done job =>
    cases hstep
    exact ⟨hinv, h.flag, h.low, h.submits, h.typed.note (htype job rfl) (.done 0) (fun p hp => by cases hp) rfl rfl⟩
  | delete job =>
    cases hstep
    exact ⟨hinv, h.flag, h.low, h.submits, h.typed.note (htype job rfl) .deleted (fun p hp => by cases hp) rfl rfl⟩
  | ended => cases hstep

theorem Running.step (h : Running t) (hok : Registers t a) (hstep : t.step a = .ok t') : Running t' := by
  have hinv := h.inv.step (h.serves hok) hstep
  cases a with
  | register type process =>
    cases hstep
    refine ⟨hinv, h.flag, h.low, fun s hs job hjob => ?_, h.typed.keep (fun _ _ => StdMap.find?_insert_keep) rfl⟩
    obtain ⟨process', hfind⟩ := Option.isSome_iff_exists.1 (h.submits s hs job hjob)
    exact Option.isSome_iff_exists.2 ⟨process', StdMap.find?_insert_keep hfind⟩
  | submit type =>
    cases hstep
    refine ⟨hinv, h.flag, h.low, fun s hs job hjob => ?_, h.typed.keep (fun _ _ => id) rfl⟩
    rcases List.mem_append.1 hs with hs | hs
    · exact h.submits s hs job hjob
    · rw [List.mem_singleton.1 hs] at hjob
      cases hjob
      exact hok
  | submitter i =>
    rw [ThreadPoolImpl.step] at hstep
    split at hstep
    case h_1 => cases hstep
    case h_2 s hi => exact h.stepSubmit hi hstep
  | worker i =>
    rw [ThreadPoolImpl.step] at hstep
    split at hstep
    case h_1 => cases hstep
    case h_2 p hi => exact h.stepRun hi hstep
  | stop => cases hok

/-- A pool that is not stopped has no job that it has cancelled or merged. -/
theorem Running.runsOnce (h : Running t) : RunsOnce t := by
  have hidle := h.inv.permits.flag.1 h.flag
  have hnone : t.stop.job = none := by rw [hidle]; rfl
  constructor
  case ordered =>
    intro job
    have hlocated := (h.inv.jobs job).located
    have htype := h.typed.processes job
    generalize t.history job = l at hlocated htype ⊢
    cases hlocated with
    | new => exact ⟨0, 0, List.nil_prefix, nofun⟩
    | merged hlow => exact absurd h.low hlow
    | queued => exact ⟨0, 0, ⟨_, rfl⟩, by simp⟩
    | taken i => exact ⟨i, 0, ⟨_, rfl⟩, by simp⟩
    | processed i p => exact ⟨i, p, ⟨_, rfl⟩, htype p⟩
    | told i p => exact ⟨i, p, ⟨_, rfl⟩, htype p⟩
    | finished i p => exact ⟨i, p, ⟨_, rfl⟩, htype p⟩
    | cancelled hstop => rw [hidle] at hstop; cases hstop
    | dropped hstop => exact absurd hidle hstop
  case complete =>
    intro job i htaken haway
    have hlocated := (h.inv.jobs job).located
    generalize t.history job = l at hlocated htaken ⊢
    cases hlocated with
    | taken j hj =>
      obtain rfl : i = j := by simpa using htaken
      exact (hj.elim (fun hj => haway _ hj rfl) fun hj => haway _ hj rfl).elim
    | processed j p hj =>
      obtain rfl : i = j := by simpa using htaken
      exact absurd rfl (haway _ hj)
    | told j p hj =>
      obtain rfl : i = j := by simpa using htaken
      exact absurd rfl (haway _ hj)
    | finished j p =>
      obtain rfl : i = j := by simpa using htaken
      exact ⟨p, rfl⟩
    | _ => simp at htaken
  case nonempty =>
    intro i hi hnil
    have henough := h.inv.permits.enough (by rw [hidle]; rfl)
    rw [hnil, List.length_nil, Nat.le_zero, List.countP_eq_zero] at henough
    exact henough _ (List.mem_of_getElem? hi) rfl
  case quiet =>
    intro hback hwait hctrl job hpushed
    have hempty : t.m_jobs = [] := by
      have hlocks : t.workers.countP RunPlace.locks = 0 := List.countP_eq_zero.2 fun p hp => by rw [hwait p hp]; nofun
      have hposts : t.submits.countP SubmitPlace.posts = 0 := by
        refine List.countP_eq_zero.2 fun s hs hpost => ?_
        have hjob := hback s hs
        cases s <;> cases hjob
        cases hpost
      have := h.inv.permits.permits h.flag
      exact List.eq_nil_of_length_eq_zero (by omega)
    rcases (h.inv.jobs job).pushed hpushed with hjob | ⟨p, hp, hjob⟩ | hjob | hserved | hcancelled
    · rw [hempty] at hjob
      cases hjob
    · rw [hwait p hp] at hjob
      cases hjob
    · rw [hnone] at hjob
      cases hjob
    · exact hserved
    · have hlocated := (h.inv.jobs job).located
      rw [hcancelled] at hlocated
      cases hlocated with
      | dropped hstop => exact absurd hidle hstop

/-- In every run of a pool that is not stopped, in which the types are registered and no type is to be merged. -/
theorem runsOnce_run (hk : Along step Registers (begin limit m_MaxPriority "-1" m_taskCmp) acts)
    (hrun : acts.foldlM step (begin limit m_MaxPriority "-1" m_taskCmp) = .ok t) : RunsOnce t := by
  have hbegin : Running (begin limit m_MaxPriority "-1" m_taskCmp) := ⟨inv_begin, rfl, rfl, nofun, ⟨nofun, nofun⟩⟩
  exact (hk.keeps Running hrun hbegin fun _ _ _ h hok hstep => h.step hok hstep).runsOnce

instance decRegisters (t : ThreadPoolImpl) : ∀ a, Decidable (Registers t a)
  | .submit type => inferInstanceAs (Decidable ((t.m_tasks.find? type).isSome = true))
  | .stop => isFalse id
  | .register .. | .submitter _ | .worker _ => isTrue trivial

/-- A pool of two threads runs a job. -/
def onceActions : List Action :=
  [.register "test" 5, .submit "test", .submitter 0, .submitter 0, .worker 1, .submitter 0, .submitter 0] ++
    List.replicate 7 (Action.worker 1) ++ [Action.worker 0]

theorem runsOnce_run_two : ∃ t, onceActions.foldlM step (begin 2 "-1" "-1" none) = .ok t ∧
    t.history ⟨0, "test"⟩ = served 1 5 ∧ RunsOnce t := by
  have hended : ∃ t, onceActions.foldlM step (begin 2 "-1" "-1" none) = .ok t ∧ t.history ⟨0, "test"⟩ = served 1 5 := by
    decide +kernel
  obtain ⟨t, ht, hhistory⟩ := hended
  exact ⟨t, ht, hhistory, runsOnce_run (by decide +kernel) ht⟩

/-! ## The lifetime of the jobs -/

/-- A job is used while it lives, and has one of two ends. -/
structure Lifetime (t : ThreadPoolImpl) : Prop where
  untouched : t.late = []
  nonempty : ∀ i : Nat, t.workers[i]? = some .lock → t.m_jobs ≠ []
  ordered : ∀ job, .pushed ∈ t.history job → (∃ i process, t.history job <+: served i process) ∨ t.history job <+: cancelled
  /-- `Stop` is back, and no worker has a job. -/
  complete : t.stop = .ended → (∀ p ∈ t.workers, p.job = none) → ∀ job, .pushed ∈ t.history job →
    (∃ i process, t.history job = served i process) ∨ t.history job = cancelled

/-- `Stop` has deleted the first job of `m_jobs` and not popped it. -/
def StopPlace.pops : StopPlace → Bool
  | .popFront _ => true
  | _ => false

/-- A job is deleted when its submitter has come back from `wait`, and a submitter does not push when `Stop` is
back, nor look for a job to merge with while the first of them is deleted. -/
def Orderly (t : ThreadPoolImpl) (a : Action) : Prop :=
  Serves t a ∧ match a with
    | .submitter i => ∀ s, t.submits[i]? = some s → match s with
      | .lock _ => t.stop ≠ .ended ∧ (t.m_LowPriority ≠ "-1" → t.stop.pops = false)
      | _ => True
    | .worker i => ∀ p, t.workers[i]? = some p → match p with
      | .delete job => t.submits[job.id]? = some (.returned none)
      | _ => True
    | .stop => match t.stop with
      | .delete job => t.submits[job.id]? = some (.returned none)
      | _ => True
    | _ => True

theorem StopPlace.pops_eq_false {stop : StopPlace} (h : stop.drains = false) : stop.pops = false := by
  cases stop <;> first | rfl | cases h

structure Kept (t : ThreadPoolImpl) : Prop where
  inv : Inv t
  untouched : t.late = []
  /-- A job that was deleted is with no submitter. -/
  back : ∀ job, .deleted ∈ t.history job → ∀ s ∈ t.submits, s.job ≠ some job
  ended : t.stop = .ended → t.m_jobs = []

theorem touch_live {jobs : List Task} (h : ∀ job ∈ jobs, .deleted ∉ t.history job) : (t.touch jobs).late = t.late := by
  have hnone : jobs.filter (fun job => .deleted ∈ t.history job) = [] := List.filter_eq_nil_iff.2 (by simpa using h)
  rw [touch, hnone, List.append_nil]

/-- The jobs in `m_jobs` live, except the first one while `Stop` has deleted it. -/
theorem Inv.live (h : Inv t) (hstop : t.stop.pops = false) (hjob : job ∈ t.m_jobs) : .deleted ∉ t.history job := by
  by_cases hs : t.stop.job = some job
  · have hexpects := (h.jobs job).stopped hs
    cases hp : t.stop with
    | done j =>
      rw [hp] at hexpects
      rw [show t.history job = [.pushed] from hexpects]
      simp
    | delete j =>
      rw [hp] at hexpects
      rw [show t.history job = [.pushed, .done 1] from hexpects]
      simp
    | popFront j =>
      rw [hp] at hstop
      cases hstop
    | _ =>
      rw [hp] at hs
      cases hs
  · rw [(h.jobs job).queued hjob hs]
    simp

/-- The job that a worker has lives. -/
theorem Inv.live_held (h : Inv t) (hi : t.workers[i]? = some p) (hp : p.job = some job) : .deleted ∉ t.history job := by
  have hexpects := (h.jobs job).held i p hi hp
  cases p <;> cases hp
  case find | process =>
    rw [show t.history job = [.pushed, .taken i] from hexpects]
    simp
  case done | delete =>
    obtain ⟨process, hhistory⟩ := hexpects
    rw [hhistory]
    simp

/-- No submitter has a job when the one that submitted it has come back. -/
theorem Calls.back (h : Calls t) (hback : ∀ s, t.submits[job.id]? = some s → s.job ≠ some job) :
    ∀ s ∈ t.submits, s.job ≠ some job := by
  intro s hs hjob
  obtain ⟨k, hk⟩ := List.mem_iff_getElem?.1 hs
  rw [← h.own k s job hk hjob] at hk
  exact hback s hk hjob

/-- A submitter goes on with its job or comes back. -/
theorem Kept.submits_set (h : Kept t) (hi : t.submits[i]? = some s) (hs' : ∀ job, s'.job = some job → s.job = some job)
    (hdeleted : .deleted ∈ t.history job) : ∀ x ∈ t.submits.set i s', x.job ≠ some job := by
  intro x hx hjob
  rcases List.mem_or_eq_of_mem_set hx with hx | rfl
  · exact h.back job hdeleted x hx hjob
  · exact h.back job hdeleted s (List.mem_of_getElem? hi) (hs' job hjob)

theorem Kept.stepSubmit (h : Kept t) (hi : t.submits[i]? = some s) (hok : Orderly t (.submitter i))
    (hstep : t.stepSubmit i s = .ok t') : Kept t' := by
  have hinv := h.inv.stepSubmit hi hstep
  cases s with
  | test job =>
    cases hstep
    exact ⟨hinv, h.untouched, fun _ => h.submits_set hi (by split_ifs <;> simp [SubmitPlace.job]), h.ended⟩
  | lock job =>
    cases hstep
    obtain ⟨hnotEnded, hmerge⟩ := hok.2 _ hi
    obtain ⟨jobs, hsub, hnil, heq⟩ := lockSubmit_eq t i job
    have hlive : (t.touch jobs).late = [] := by
      rw [touch_live fun j hj => ?_, h.untouched]
      refine h.inv.live (hmerge fun hlow => ?_) (hsub hj)
      rw [hnil hlow] at hj
      cases hj
    have hnew := h.inv.calls.waiting i job (.inr hi)
    have hid : job.id = i := h.inv.calls.own i _ job hi rfl
    rcases heq with ⟨hlow, heq⟩ | heq
    · rw [heq] at hinv ⊢
      refine ⟨hinv, hlive, fun j hj => ?_, h.ended⟩
      by_cases hjob : j = job
      · refine hinv.calls.back fun x hx => ?_
        change (t.submits.set i (.returned (some (-2))))[j.id]? = some x at hx
        rw [hjob, hid, List.getElem?_set_self (List.getElem?_eq_some_iff.1 hi).1] at hx
        cases hx
        nofun
      · change .deleted ∈ Function.update t.history job _ j at hj
        rw [Function.update_of_ne hjob] at hj
        exact h.submits_set hi nofun hj
    · rw [heq] at hinv ⊢
      refine ⟨hinv, hlive, fun j hj => ?_, fun hended => absurd hended hnotEnded⟩
      change .deleted ∈ Function.update t.history job (t.history job ++ [.pushed]) j at hj
      by_cases hjob : j = job
      · rw [hjob, Function.update_self, hnew] at hj
        simp at hj
      · rw [Function.update_of_ne hjob] at hj
        exact h.submits_set hi (fun _ => id) hj
  | post job =>
    cases hstep
    exact ⟨hinv, h.untouched, fun _ => h.submits_set hi fun _ => id, h.ended⟩
  | wait job =>
    cases hstep
    refine ⟨hinv, ?_, fun _ => h.submits_set hi nofun, h.ended⟩
    have hlive : (t.touch [job]).late = [] := by
      rw [touch_live fun j hj hdeleted => ?_, h.untouched]
      rw [List.mem_singleton.1 hj] at hdeleted
      exact h.back job hdeleted _ (List.mem_of_getElem? hi) rfl
    exact hlive
  | returned r => cases hstep

/-- Something is done with a job, but it is not deleted. -/
theorem Kept.note (h : Kept t) {e : TaskEvent} (he : e ≠ .deleted) {j : Task}
    (hj : .deleted ∈ Function.update t.history job (t.history job ++ [e]) j) : ∀ s ∈ t.submits, s.job ≠ some j := by
  refine h.back j ?_
  by_cases hjob : j = job
  · rw [hjob, Function.update_self, List.mem_append, List.mem_singleton] at hj
    rw [hjob]
    exact hj.resolve_right fun heq => he heq.symm
  · rwa [Function.update_of_ne hjob] at hj

/-- A job is deleted whose submitter has come back. -/
theorem Kept.delete (h : Kept t) (hback : t.submits[job.id]? = some (.returned none)) {j : Task}
    (hj : .deleted ∈ Function.update t.history job (t.history job ++ [.deleted]) j) : ∀ s ∈ t.submits, s.job ≠ some j := by
  by_cases hjob : j = job
  · rw [hjob]
    refine h.inv.calls.back fun s hs => ?_
    rw [hback] at hs
    cases hs
    nofun
  · rw [Function.update_of_ne hjob] at hj
    exact h.back j hj

theorem Kept.stepRun (h : Kept t) (hi : t.workers[i]? = some p) (hok : Orderly t (.worker i))
    (hstep : t.stepRun i p = .ok t') : Kept t' := by
  have hinv := h.inv.stepRun hi hok.1 hstep
  have hlive : ∀ job, p.job = some job → (t.touch [job]).late = [] := by
    intro job hp
    rw [touch_live fun j hj => ?_, h.untouched]
    rw [List.mem_singleton.1 hj]
    exact h.inv.live_held hi hp
  cases p with
  | loop =>
    cases hstep
    exact ⟨hinv, h.untouched, h.back, h.ended⟩
  | semWait =>
    rw [ThreadPoolImpl.stepRun] at hstep
    split_ifs at hstep
    cases hstep
    exact ⟨hinv, h.untouched, h.back, h.ended⟩
  | lock =>
    have hdrains := h.inv.not_drains hi rfl
    obtain ⟨job, jobs, l₁, l₂, hsub, hl, rfl⟩ := lockRun_eq_ok hstep
    refine ⟨hinv, ?_, fun j => h.note (by simp), fun hended => ?_⟩
    · have htouch : (t.touch jobs).late = [] := by
        rw [touch_live fun j hj => ?_, h.untouched]
        exact h.inv.live (StopPlace.pops_eq_false hdrains) (hsub hj)
      exact htouch
    · rw [show t.stop = .ended from hended] at hdrains
      cases hdrains
  | find job =>
    cases hstep
    exact ⟨hinv, hlive job rfl, h.back, h.ended⟩
  | process job =>
    rw [ThreadPoolImpl.stepRun] at hstep
    split at hstep
    case h_1 => cases hstep
    case h_2 process hfind =>
      cases hstep
      exact ⟨hinv, hlive job rfl, fun j => h.note (by simp), h.ended⟩
  | done job =>
    cases hstep
    exact ⟨hinv, hlive job rfl, fun j => h.note (by simp), h.ended⟩
  | delete job =>
    cases hstep
    exact ⟨hinv, hlive job rfl, fun j => h.delete (hok.2 _ hi), h.ended⟩
  | ended => cases hstep

theorem Kept.stepStop (h : Kept t) (hok : Orderly t .stop) (hstep : t.stepStop = .ok t') : Kept t' := by
  have hinv := h.inv.stepStop hok.1 hstep
  have hlive : ∀ job, t.stop.job = some job → t.stop.pops = false → (t.touch [job]).late = [] := by
    intro job hjob hpops
    rw [touch_live fun j hj => ?_, h.untouched]
    rw [List.mem_singleton.1 hj]
    exact h.inv.live hpops (List.mem_of_mem_head? (h.inv.permits.front job hjob))
  rw [ThreadPoolImpl.stepStop] at hstep
  cases hstop : t.stop with
  | idle =>
    rw [hstop] at hstep
    dsimp only at hstep
    rw [if_pos (h.inv.permits.flag.2 hstop)] at hstep
    cases hstep
    exact ⟨hinv, h.untouched, h.back, fun hended => by cases hended⟩
  | post k =>
    rw [hstop] at hstep
    cases k with
    | zero =>
      cases hstep
      exact ⟨hinv, h.untouched, h.back, fun hended => by cases hended⟩
    | succ k =>
      cases hstep
      exact ⟨hinv, h.untouched, h.back, fun hended => by cases hended⟩
  | clear =>
    rw [hstop] at hstep
    cases hstep
    exact ⟨hinv, h.untouched, h.back, fun hended => by cases hended⟩
  | empty =>
    rw [hstop] at hstep
    cases hstep
    refine ⟨hinv, h.untouched, h.back, fun hended => ?_⟩
    dsimp only at hended
    split_ifs at hended with hnil
    exact hnil
  | front =>
    rw [hstop] at hstep
    dsimp only at hstep
    rw [stopFront] at hstep
    split at hstep
    case h_1 => cases hstep
    case h_2 =>
      cases hstep
      exact ⟨hinv, h.untouched, h.back, fun hended => by cases hended⟩
  | done job =>
    rw [hstop] at hstep
    cases hstep
    exact ⟨hinv, hlive job (by rw [hstop]; rfl) (by rw [hstop]; rfl), fun j => h.note (by simp), fun hended => by cases hended⟩
  | delete job =>
    rw [hstop] at hstep
    cases hstep
    have hback := hok.2
    rw [hstop] at hback
    exact ⟨hinv, hlive job (by rw [hstop]; rfl) (by rw [hstop]; rfl), fun j => h.delete hback, fun hended => by cases hended⟩
  | popFront job =>
    rw [hstop] at hstep
    dsimp only at hstep
    rw [stopPopFront] at hstep
    split at hstep
    case h_1 => cases hstep
    case h_2 =>
      cases hstep
      exact ⟨hinv, h.untouched, h.back, fun hended => by cases hended⟩
  | ended =>
    rw [hstop] at hstep
    cases hstep

theorem Kept.step (h : Kept t) (hok : Orderly t a) (hstep : t.step a = .ok t') : Kept t' := by
  have hinv := h.inv.step hok.1 hstep
  cases a with
  | register type process =>
    cases hstep
    exact ⟨hinv, h.untouched, h.back, h.ended⟩
  | submit type =>
    cases hstep
    refine ⟨hinv, h.untouched, fun job hdeleted s hs hjob => ?_, h.ended⟩
    rcases List.mem_append.1 hs with hs | hs
    · exact h.back job hdeleted s hs hjob
    · rw [List.mem_singleton.1 hs] at hjob
      cases hjob
      rw [h.inv.calls.fresh _ le_rfl] at hdeleted
      cases hdeleted
  | submitter i =>
    rw [ThreadPoolImpl.step] at hstep
    split at hstep
    case h_1 => cases hstep
    case h_2 s hi => exact h.stepSubmit hi hok hstep
  | worker i =>
    rw [ThreadPoolImpl.step] at hstep
    split at hstep
    case h_1 => cases hstep
    case h_2 p hi => exact h.stepRun hi hok hstep
  | stop => exact h.stepStop hok hstep

theorem Kept.lifetime (h : Kept t) : Lifetime t := by
  constructor
  case untouched => exact h.untouched
  case nonempty =>
    intro i hi hnil
    have henough := h.inv.permits.enough (h.inv.not_drains hi rfl)
    rw [hnil, List.length_nil, Nat.le_zero, List.countP_eq_zero] at henough
    exact henough _ (List.mem_of_getElem? hi) rfl
  case ordered =>
    intro job hpushed
    have hlocated := (h.inv.jobs job).located
    generalize t.history job = l at hlocated hpushed ⊢
    cases hlocated with
    | new => cases hpushed
    | merged => simp at hpushed
    | queued => exact .inr ⟨_, rfl⟩
    | taken i => exact .inl ⟨i, 0, _, rfl⟩
    | processed i p => exact .inl ⟨i, p, _, rfl⟩
    | told i p => exact .inl ⟨i, p, _, rfl⟩
    | finished i p => exact .inl ⟨i, p, _, rfl⟩
    | cancelled => exact .inr ⟨_, rfl⟩
    | dropped => exact .inr ⟨_, rfl⟩
  case complete =>
    intro hended hworkers job hpushed
    rcases (h.inv.jobs job).pushed hpushed with hjob | ⟨p, hp, hjob⟩ | hjob | hdone
    · rw [h.ended hended] at hjob
      cases hjob
    · rw [hworkers p hp] at hjob
      cases hjob
    · rw [hended] at hjob
      cases hjob
    · exact hdone

/-- In every run whose steps are orderly, with any types and any interleaving with `Stop`, the jobs keep their
lifetime. -/
theorem lifetime_run (hk : Along step Orderly (begin limit m_MaxPriority m_LowPriority m_taskCmp) acts)
    (hrun : acts.foldlM step (begin limit m_MaxPriority m_LowPriority m_taskCmp) = .ok t) : Lifetime t := by
  have hbegin : Kept (begin limit m_MaxPriority m_LowPriority m_taskCmp) := ⟨inv_begin, rfl, nofun, nofun⟩
  exact (hk.keeps Kept hrun hbegin fun _ _ _ h hok hstep => h.step hok hstep).lifetime

instance decServes (t : ThreadPoolImpl) : ∀ a, Decidable (Serves t a)
  | .worker i =>
    have : DecidablePred fun p : RunPlace => match p with
        | .semWait => t.m_flag = false → t.stop.drains = false ∧ t.workers.countP RunPlace.locks < t.m_jobs.length
        | .find job => (t.m_tasks.find? job.m_type).isSome = true
        | _ => True := fun p => by cases p <;> infer_instance
    decForallSome (t.workers[i]?)
  | .stop => (inferInstance : Decidable (t.stop = .clear → ∀ p ∈ t.workers, p.works = false))
  | .register .. | .submit _ | .submitter _ => isTrue trivial

instance decOrderly (t : ThreadPoolImpl) (a : Action) : Decidable (Orderly t a) :=
  have : Decidable (match a with
      | .submitter i => ∀ s, t.submits[i]? = some s → match s with
        | .lock _ => t.stop ≠ .ended ∧ (t.m_LowPriority ≠ "-1" → t.stop.pops = false)
        | _ => True
      | .worker i => ∀ p, t.workers[i]? = some p → match p with
        | .delete job => t.submits[job.id]? = some (.returned none)
        | _ => True
      | .stop => match t.stop with
        | .delete job => t.submits[job.id]? = some (.returned none)
        | _ => True
      | _ => True) :=
    match a with
    | .submitter i =>
      have : DecidablePred fun s : SubmitPlace => match s with
          | .lock _ => t.stop ≠ .ended ∧ (t.m_LowPriority ≠ "-1" → t.stop.pops = false)
          | _ => True := fun s => by cases s <;> infer_instance
      decForallSome (t.submits[i]?)
    | .worker i =>
      have : DecidablePred fun p : RunPlace => match p with
          | .delete job => t.submits[job.id]? = some (.returned none)
          | _ => True := fun p => by cases p <;> infer_instance
      decForallSome (t.workers[i]?)
    | .stop => by dsimp only; cases t.stop <;> infer_instance
    | .register .. | .submit _ => isTrue trivial
  inferInstanceAs (Decidable (Serves t a ∧ _))

/-- The thread of the pool runs one job, and `Stop` cancels another. -/
def stoppedActions : List Action :=
  [.register "test" 5, .submit "test", .submit "test"] ++ List.replicate 4 (Action.submitter 0) ++
    List.replicate 7 (Action.worker 0) ++ List.replicate 4 (Action.submitter 1) ++ List.replicate 10 Action.stop ++ [Action.worker 0]

theorem lifetime_run_stopped : ∃ t, stoppedActions.foldlM step (begin 1 "-1" "-1" none) = .ok t ∧
    t.history ⟨0, "test"⟩ = served 0 5 ∧ t.history ⟨1, "test"⟩ = cancelled ∧ t.stop = .ended ∧ Lifetime t := by
  have hended : ∃ t, stoppedActions.foldlM step (begin 1 "-1" "-1" none) = .ok t ∧
      t.history ⟨0, "test"⟩ = served 0 5 ∧ t.history ⟨1, "test"⟩ = cancelled ∧ t.stop = .ended := by decide +kernel
  obtain ⟨t, ht, hserved, hcancelled, hstop⟩ := hended
  exact ⟨t, ht, hserved, hcancelled, hstop, lifetime_run (by decide +kernel) ht⟩

/-- The worker has deleted the job before its submitter calls `wait`. -/
def lateActions : List Action :=
  [.register "test" 5, .submit "test"] ++ List.replicate 3 (Action.submitter 0) ++ List.replicate 7 (Action.worker 0) ++
    [Action.submitter 0]

theorem not_lifetime_late : ∃ t, lateActions.foldlM step (begin 1 "-1" "-1" none) = .ok t ∧
    t.late = [⟨0, "test"⟩] ∧ ¬Lifetime t := by
  have hended : ∃ t, lateActions.foldlM step (begin 1 "-1" "-1" none) = .ok t ∧ t.late = [⟨0, "test"⟩] := by decide +kernel
  obtain ⟨t, ht, hlate⟩ := hended
  refine ⟨t, ht, hlate, fun h => ?_⟩
  have huntouched := h.untouched
  rw [hlate] at huntouched
  cases huntouched

end ThreadPool
