/-
The invariant of the thread pool (Thread/ThreadPoolImpl_Linux.cpp).

Each job is where its history says (`JobAt`), and until `Stop` takes the jobs
out there is a job for every permit that was posted, is on its way, or was
taken by a worker that has not popped (`Permits`). A step touches the place of
one job, so the others stay where they are (`JobAt.frame`).
-/
import XFramework.Thread.ThreadPool

open Fallible

namespace ThreadPool

open ThreadPoolImpl

/-- The job that a call still uses. -/
def SubmitPlace.job : SubmitPlace → Option Task
  | .test job | .lock job | .post job | .wait job => some job
  | .returned _ => none

/-- The job that a worker has taken. -/
def RunPlace.job : RunPlace → Option Task
  | .find job | .process job | .done job | .delete job => some job
  | _ => none

/-- The job that `Stop` has found at the front. -/
def StopPlace.job : StopPlace → Option Task
  | .done job | .delete job | .popFront job => some job
  | _ => none

/-- `Stop` has cleared `m_tasks`, and takes the jobs out. -/
def StopPlace.drains : StopPlace → Bool
  | .idle | .post _ | .clear => false
  | _ => true

/-- The history of the job that the worker `i` has. -/
def RunPlace.Expects (i : Nat) : RunPlace → List TaskEvent → Prop
  | .find _, h | .process _, h => h = [.pushed, .taken i]
  | .done _, h => ∃ p, h = [.pushed, .taken i, .processed p]
  | .delete _, h => ∃ p, h = [.pushed, .taken i, .processed p, .done 0]
  | _, _ => True

/-- The history of the job that `Stop` has. -/
def StopPlace.Expects : StopPlace → List TaskEvent → Prop
  | .done _, h => h = [.pushed]
  | .delete _, h => h = [.pushed, .done 1]
  | .popFront _, h => h = [.pushed, .done 1, .deleted]
  | _, _ => True

/-- A job with this history is where it should be. -/
inductive Located (t : ThreadPoolImpl) (job : Task) : List TaskEvent → Prop
  | new : Located t job []
  | merged (h : t.m_LowPriority ≠ "-1") : Located t job [.deleted]
  | queued (h : job ∈ t.m_jobs) : Located t job [.pushed]
  | taken (i : Nat) (h : t.workers[i]? = some (.find job) ∨ t.workers[i]? = some (.process job)) :
      Located t job [.pushed, .taken i]
  | processed (i p : Nat) (h : t.workers[i]? = some (.done job)) : Located t job [.pushed, .taken i, .processed p]
  | told (i p : Nat) (h : t.workers[i]? = some (.delete job)) : Located t job [.pushed, .taken i, .processed p, .done 0]
  | finished (i p : Nat) : Located t job [.pushed, .taken i, .processed p, .done 0, .deleted]
  | cancelled (h : t.stop = .delete job) : Located t job [.pushed, .done 1]
  | dropped (h : t.stop ≠ .idle) : Located t job [.pushed, .done 1, .deleted]

/-- The job is in no place that its history does not tell. -/
structure JobAt (t : ThreadPoolImpl) (job : Task) : Prop where
  located : Located t job (t.history job)
  queued : job ∈ t.m_jobs → t.stop.job ≠ some job → t.history job = [.pushed]
  held : ∀ (i : Nat) p, t.workers[i]? = some p → p.job = some job → p.Expects i (t.history job)
  stopped : t.stop.job = some job → t.stop.Expects (t.history job)

/-- A call of `submit_job_req` has its own job, with which nothing was done before it has the lock. -/
structure Calls (t : ThreadPoolImpl) : Prop where
  own : ∀ (i : Nat) p job, t.submits[i]? = some p → p.job = some job → job.id = i
  waiting : ∀ (i : Nat) job, t.submits[i]? = some (.test job) ∨ t.submits[i]? = some (.lock job) → t.history job = []
  fresh : ∀ job, t.submits.length ≤ job.id → t.history job = []

variable {t t' : ThreadPoolImpl} {i j : Nat} {job : Task} {p p' : RunPlace} {s s' : SubmitPlace} {jobs : List Task}

theorem Located.imp {l : List TaskEvent} (h : Located t job l) (hlow : t.m_LowPriority ≠ "-1" → t'.m_LowPriority ≠ "-1")
    (hjobs : job ∈ t.m_jobs → job ∈ t'.m_jobs)
    (hworkers : ∀ (i : Nat) p, p.job = some job → t.workers[i]? = some p → t'.workers[i]? = some p)
    (hstop : ∀ p : StopPlace, p.job = some job → t.stop = p → t'.stop = p) (hidle : t.stop ≠ .idle → t'.stop ≠ .idle) :
    Located t' job l := by
  cases h with
  | new => exact .new
  | merged h => exact .merged (hlow h)
  | queued h => exact .queued (hjobs h)
  | taken i h => exact .taken i (h.imp (hworkers i _ rfl) (hworkers i _ rfl))
  | processed i p h => exact .processed i p (hworkers i _ rfl h)
  | told i p h => exact .told i p (hworkers i _ rfl h)
  | finished i p => exact .finished i p
  | cancelled h => exact .cancelled (hstop _ rfl h)
  | dropped h => exact .dropped (hidle h)

/-- A job stays where it is when the places of other jobs change. -/
theorem JobAt.frame (h : JobAt t job) (hhistory : t'.history job = t.history job)
    (hlow : t'.m_LowPriority = t.m_LowPriority) (hjobs : job ∈ t'.m_jobs ↔ job ∈ t.m_jobs)
    (hworkers : ∀ (i : Nat) p, p.job = some job → (t'.workers[i]? = some p ↔ t.workers[i]? = some p))
    (hstop : ∀ p : StopPlace, p.job = some job → (t'.stop = p ↔ t.stop = p)) (hidle : t.stop ≠ .idle → t'.stop ≠ .idle) :
    JobAt t' job := by
  have hsame : t'.stop.job = some job ↔ t.stop.job = some job :=
    ⟨fun hs => by rw [(hstop _ hs).1 rfl]; exact hs, fun hs => by rw [(hstop _ hs).2 rfl]; exact hs⟩
  constructor
  case located =>
    rw [hhistory]
    exact h.located.imp (fun h => hlow ▸ h) hjobs.2 (fun i p hp => (hworkers i p hp).2) (fun p hp => (hstop p hp).2) hidle
  case queued =>
    intro hjob hne
    rw [hhistory]
    exact h.queued (hjobs.1 hjob) (hsame.not.1 hne)
  case held =>
    intro i p hp hjob
    rw [hhistory]
    exact h.held i p ((hworkers i p hjob).1 hp) hjob
  case stopped =>
    intro hjob
    rw [hhistory, (hstop t.stop (hsame.1 hjob)).2 rfl]
    exact h.stopped (hsame.1 hjob)

theorem RunPlace.Expects.second {l : List TaskEvent} (h : p.Expects i l) (hp : p.job = some job) : l[1]? = some (.taken i) := by
  cases p <;> simp only [RunPlace.job, reduceCtorEq] at hp
  case find | process =>
    rw [RunPlace.Expects] at h
    rw [h]
    rfl
  case done | delete =>
    obtain ⟨process, rfl⟩ := h
    rfl

theorem StopPlace.Expects.second {stop : StopPlace} {l : List TaskEvent} (h : stop.Expects l) (hstop : stop.job = some job) :
    l[1]? ≠ some (.taken i) := by
  cases stop <;> simp only [StopPlace.job, reduceCtorEq] at hstop
  case done | delete | popFront =>
    rw [StopPlace.Expects] at h
    simp [h]

/-- A job that a worker has is nowhere else. -/
theorem JobAt.alone (h : JobAt t job) (hi : t.workers[i]? = some p) (hp : p.job = some job) :
    job ∉ t.m_jobs ∧ t.stop.job ≠ some job ∧ ∀ (j : Nat) q, t.workers[j]? = some q → q.job = some job → j = i := by
  have hsecond := (h.held i p hi hp).second hp
  have hstop : t.stop.job ≠ some job := fun hstop => (h.stopped hstop).second hstop hsecond
  refine ⟨fun hjob => ?_, hstop, fun j q hj hq => ?_⟩
  · rw [h.queued hjob hstop] at hsecond
    cases hsecond
  · have hother := (h.held j q hj hq).second hq
    rw [hsecond] at hother
    cases hother
    rfl

theorem workers_set (hi : t.workers[i]? = some p) (hp : p.job ≠ some job) (hp' : p'.job ≠ some job) (j : Nat) (q : RunPlace)
    (hq : q.job = some job) : (t.workers.set i p')[j]? = some q ↔ t.workers[j]? = some q := by
  by_cases hij : i = j
  · rw [← hij, List.getElem?_set_self (List.getElem?_eq_some_iff.1 hi).1, hi]
    refine iff_of_false (fun h => ?_) fun h => ?_
    · cases h
      exact hp' hq
    · cases h
      exact hp hq
  · rw [List.getElem?_set_ne hij]

/-- A worker makes a step with the job it has. -/
theorem JobAt.run {l : List TaskEvent} (h : ∀ job, JobAt t job) (hi : t.workers[i]? = some p) (hp : p.job = some job)
    (hp' : p'.job = some job ∨ p'.job = none) (hhistory : t'.history = Function.update t.history job l)
    (hworkers : t'.workers = t.workers.set i p') (hlow : t'.m_LowPriority = t.m_LowPriority) (hjobs : t'.m_jobs = t.m_jobs)
    (hstop : t'.stop = t.stop) (hlocated : Located t' job l) (hexpects : p'.job = some job → p'.Expects i l) (job' : Task) :
    JobAt t' job' := by
  by_cases hjob : job' = job
  case neg =>
    refine (h job').frame (by rw [hhistory, Function.update_of_ne hjob]) hlow (by rw [hjobs]) ?_
      (fun p _ => by rw [hstop]) (by rw [hstop]; exact id)
    rw [hworkers]
    refine workers_set hi (by rw [hp]; exact fun h => hjob (Option.some.inj h).symm) ?_
    cases hp' with
    | inl hp' => rw [hp']; exact fun h => hjob (Option.some.inj h).symm
    | inr hp' => rw [hp']; nofun
  rw [hjob]
  obtain ⟨hqueue, hnot, hother⟩ := (h job).alone hi hp
  have hself : t'.history job = l := by rw [hhistory, Function.update_self]
  constructor
  case located => exact hself ▸ hlocated
  case queued => exact fun hin => absurd (hjobs ▸ hin) hqueue
  case stopped => exact fun hin => absurd (hstop ▸ hin) hnot
  case held =>
    intro j q hj hq
    rw [hworkers] at hj
    by_cases hij : i = j
    · rw [← hij, List.getElem?_set_self (List.getElem?_eq_some_iff.1 hi).1] at hj
      cases hj
      rw [hself, ← hij]
      exact hexpects hq
    · rw [List.getElem?_set_ne hij] at hj
      exact absurd (hother j q hj hq).symm hij

/-! ## Permits -/

/-- The submitter has pushed its job and not posted the permit for it. -/
def SubmitPlace.posts : SubmitPlace → Bool
  | .post _ => true
  | _ => false

/-- The worker has a permit and has not popped a job for it. -/
def RunPlace.locks : RunPlace → Bool
  | .lock => true
  | _ => false

/-- The worker has a permit, and its `TaskProcess` has not come back. -/
def RunPlace.works : RunPlace → Bool
  | .lock | .find _ | .process _ => true
  | _ => false

/-- There is a job for every permit. -/
structure Permits (t : ThreadPoolImpl) : Prop where
  nodup : t.m_jobs.Nodup
  front : ∀ job, t.stop.job = some job → t.m_jobs.head? = some job
  flag : t.m_flag = true ↔ t.stop = .idle
  permits : t.m_flag = true → t.m_ctrl + t.workers.countP RunPlace.locks + t.submits.countP SubmitPlace.posts = t.m_jobs.length
  enough : t.stop.drains = false → t.workers.countP RunPlace.locks ≤ t.m_jobs.length
  quiet : t.stop.drains = true → ∀ p ∈ t.workers, p.works = false
  types : ∀ job, .process job ∈ t.workers → (t.m_tasks.find? job.m_type).isSome

structure Inv (t : ThreadPoolImpl) : Prop where
  jobs : ∀ job, JobAt t job
  calls : Calls t
  permits : Permits t

/-- After `Stop` was called, a worker takes a permit only if there is a job for it and `Stop` does not take the
jobs out yet, and `m_tasks` is cleared when no worker needs it. A worker finds the type of its job. -/
def Serves (t : ThreadPoolImpl) : Action → Prop
  | .worker i => ∀ p, t.workers[i]? = some p → match p with
    | .semWait => t.m_flag = false → t.stop.drains = false ∧ t.workers.countP RunPlace.locks < t.m_jobs.length
    | .find job => (t.m_tasks.find? job.m_type).isSome
    | _ => True
  | .stop => t.stop = .clear → ∀ p ∈ t.workers, p.works = false
  | _ => True

/-- A worker makes a step, but does not pop a job. -/
theorem Permits.run (h : Permits t) (hi : t.workers[i]? = some p) (hp : p.locks = false)
    (hworkers : t'.workers = t.workers.set i p') (hflag : t'.m_flag = t.m_flag) (hstop : t'.stop = t.stop)
    (hjobs : t'.m_jobs = t.m_jobs) (hsubmits : t'.submits = t.submits) (htasks : t'.m_tasks = t.m_tasks)
    (hctrl : t'.m_ctrl + p'.locks.toNat = t.m_ctrl)
    (henough : p'.locks = true → t.stop.drains = false → t.workers.countP RunPlace.locks < t.m_jobs.length)
    (hquiet : p'.works = true → t.stop.drains = false)
    (htypes : ∀ job, p' = .process job → (t.m_tasks.find? job.m_type).isSome) : Permits t' := by
  have hcount := Threads.countP_set (p := RunPlace.locks) (b := p') hi
  rw [hp, Bool.toNat_false] at hcount
  constructor
  case nodup => exact hjobs ▸ h.nodup
  case front => rw [hstop, hjobs]; exact h.front
  case flag => rw [hflag, hstop]; exact h.flag
  case permits =>
    intro hon
    have := h.permits (hflag ▸ hon)
    rw [hworkers, hsubmits, hjobs]
    omega
  case enough =>
    intro hdrains
    rw [hstop] at hdrains
    have := h.enough hdrains
    rw [hworkers, hjobs]
    cases hp' : p'.locks with
    | false =>
      rw [hp', Bool.toNat_false] at hcount
      omega
    | true =>
      have := henough hp' hdrains
      rw [hp', Bool.toNat_true] at hcount
      omega
  case quiet =>
    intro hdrains q hq
    rw [hstop] at hdrains
    rw [hworkers] at hq
    rcases List.mem_or_eq_of_mem_set hq with hq | rfl
    · exact h.quiet hdrains q hq
    · cases hworks : q.works with
      | false => rfl
      | true => rw [hquiet hworks] at hdrains; cases hdrains
  case types =>
    intro job hjob
    rw [hworkers] at hjob
    rw [htasks]
    rcases List.mem_or_eq_of_mem_set hjob with hjob | hjob
    · exact h.types job hjob
    · exact htypes job hjob.symm

/-- Something is done with a job that was pushed. -/
theorem Calls.keep (h : Calls t) (job : Task) (hne : t.history job ≠ []) (hsubmits : t'.submits = t.submits)
    (hhistory : ∀ j ≠ job, t'.history j = t.history j) : Calls t' := by
  constructor
  case own => rw [hsubmits]; exact h.own
  case waiting =>
    intro i j hj
    rw [hsubmits] at hj
    have hnil := h.waiting i j hj
    by_cases hjob : j = job
    · exact absurd (hjob ▸ hnil) hne
    · rw [hhistory j hjob, hnil]
  case fresh =>
    intro j hle
    rw [hsubmits] at hle
    have hnil := h.fresh j hle
    by_cases hjob : j = job
    · exact absurd (hjob ▸ hnil) hne
    · rw [hhistory j hjob, hnil]

theorem StopPlace.job_eq_none {stop : StopPlace} (h : stop.drains = false) : stop.job = none := by
  cases stop <;> first | rfl | cases h

/-- While the jobs are not taken out by `Stop`, those in `m_jobs` were pushed and nothing else. -/
theorem Inv.queued (h : Inv t) (hdrains : t.stop.drains = false) (hjob : job ∈ t.m_jobs) : t.history job = [.pushed] :=
  (h.jobs job).queued hjob (by rw [StopPlace.job_eq_none hdrains]; nofun)

/-- `Stop` does not take the jobs out while a worker needs them. -/
theorem Inv.not_drains (h : Inv t) (hi : t.workers[i]? = some p) (hp : p.works = true) : t.stop.drains = false := by
  cases hdrains : t.stop.drains with
  | false => rfl
  | true =>
    rw [h.permits.quiet hdrains p (List.mem_of_getElem? hi)] at hp
    cases hp

/-- A worker pops a job. -/
theorem Inv.pop {l₁ l₂ : List Task} (h : Inv t) (hi : t.workers[i]? = some .lock) (hl : t.m_jobs = l₁ ++ job :: l₂) :
    Inv { (t.touch jobs).note job (.taken i) with m_jobs := l₁ ++ l₂, workers := t.workers.set i (.find job) } := by
  have hdrains := h.not_drains hi rfl
  have hnone := StopPlace.job_eq_none hdrains
  have hin : job ∈ t.m_jobs := by rw [hl]; exact List.mem_append_right _ List.mem_cons_self
  have hpushed := h.queued hdrains hin
  have hnodup := h.permits.nodup
  rw [hl, List.nodup_middle, List.nodup_cons] at hnodup
  have hlt := (List.getElem?_eq_some_iff.1 hi).1
  constructor
  case jobs =>
    intro j
    by_cases hj : j = job
    case neg =>
      refine (h.jobs j).frame (Function.update_of_ne hj ..) rfl ?_ (workers_set hi nofun ?_) (fun _ _ => Iff.rfl) id
      · rw [hl]
        simp [hj]
      · exact fun heq => hj (Option.some.inj heq).symm
    rw [hj]
    have hself : Function.update t.history job (t.history job ++ [.taken i]) job = [.pushed, .taken i] := by
      rw [Function.update_self, hpushed]
      rfl
    constructor
    case located =>
      change Located _ job (Function.update t.history job (t.history job ++ [.taken i]) job)
      rw [hself]
      exact .taken i (.inl (List.getElem?_set_self hlt))
    case queued => exact fun hjob => absurd hjob hnodup.1
    case stopped => exact fun hjob => nomatch hnone.symm.trans hjob
    case held =>
      intro k q hk hq
      change q.Expects k (Function.update t.history job (t.history job ++ [.taken i]) job)
      rw [hself]
      by_cases hik : i = k
      · rw [← hik, List.getElem?_set_self hlt] at hk
        cases hk
        rw [hik]
        rfl
      · rw [List.getElem?_set_ne hik] at hk
        exact absurd hin ((h.jobs job).alone hk hq).1
  case calls => exact h.calls.keep job (by rw [hpushed]; nofun) rfl fun j hj => Function.update_of_ne hj ..
  case permits =>
    have hcount := Threads.countP_set (p := RunPlace.locks) (b := .find job) hi
    simp only [RunPlace.locks, Bool.toNat_false, Bool.toNat_true] at hcount
    have hlength : t.m_jobs.length = (l₁ ++ l₂).length + 1 := by
      rw [hl]
      simp
      omega
    constructor
    case nodup => exact hnodup.2
    case front => exact fun j hj => nomatch hnone.symm.trans hj
    case flag => exact h.permits.flag
    case permits =>
      intro hon
      have := h.permits.permits hon
      change t.m_ctrl + (t.workers.set i (.find job)).countP RunPlace.locks + t.submits.countP SubmitPlace.posts =
        (l₁ ++ l₂).length
      omega
    case enough =>
      intro _
      have := h.permits.enough hdrains
      change (t.workers.set i (.find job)).countP RunPlace.locks ≤ (l₁ ++ l₂).length
      omega
    case quiet => exact fun hd => nomatch hdrains.symm.trans hd
    case types =>
      intro j hj
      rcases List.mem_or_eq_of_mem_set hj with hj | hj
      · exact h.permits.types j hj
      · cases hj

/-- A worker makes a step with the job it has. -/
theorem Inv.run {l : List TaskEvent} (h : Inv t) (hi : t.workers[i]? = some p) (hp : p.job = some job) (place : RunPlace)
    (hplace : place.job = some job ∨ place.job = none) (hlocks : place.locks = false)
    (hworks : place.works = true → p.works = true)
    (htypes : ∀ job, place = .process job → (t.m_tasks.find? job.m_type).isSome)
    (hlocated : Located { t with workers := t.workers.set i place } job l)
    (hexpects : place.job = some job → place.Expects i l) (late : List Task) :
    Inv { t with history := Function.update t.history job l, workers := t.workers.set i place, late := late } := by
  have hhold := ((h.jobs job).held i p hi hp).second hp
  have hbehind : p.locks = false := by cases p <;> first | rfl | cases hp
  constructor
  case jobs =>
    refine JobAt.run h.jobs hi hp hplace rfl rfl rfl rfl rfl ?_ hexpects
    exact hlocated.imp id id (fun _ _ _ => id) (fun _ _ => id) id
  case calls =>
    refine h.calls.keep job (fun hnil => ?_) rfl fun j hj => Function.update_of_ne hj ..
    rw [hnil] at hhold
    cases hhold
  case permits =>
    refine h.permits.run hi hbehind rfl rfl rfl rfl rfl rfl (by rw [hlocks]; rfl) (fun hp => ?_) (fun hp => ?_) htypes
    · rw [hlocks] at hp
      cases hp
    · exact h.not_drains hi (hworks hp)

/-- A worker without a job makes a step, with a permit at most. -/
theorem Inv.idle (h : Inv t) (hi : t.workers[i]? = some p) (hp : p.job = none) (hp' : p'.job = none) (hlocks : p.locks = false)
    {m_ctrl : Nat} (hctrl : m_ctrl + p'.locks.toNat = t.m_ctrl)
    (henough : p'.locks = true → t.stop.drains = false ∧ t.workers.countP RunPlace.locks < t.m_jobs.length) :
    Inv { t with m_ctrl := m_ctrl, workers := t.workers.set i p' } := by
  have hworks : p'.works = true → p'.locks = true := by cases p' <;> first | exact id | cases hp'
  constructor
  case jobs =>
    exact fun job => (h.jobs job).frame rfl rfl Iff.rfl (workers_set hi (by rw [hp]; nofun) (by rw [hp']; nofun))
      (fun _ _ => Iff.rfl) id
  case calls => exact ⟨h.calls.own, h.calls.waiting, h.calls.fresh⟩
  case permits =>
    refine h.permits.run hi hlocks rfl rfl rfl rfl rfl rfl hctrl (fun hp _ => (henough hp).2)
      (fun hp => (henough (hworks hp)).1) fun job heq => ?_
    rw [heq] at hp'
    cases hp'

theorem Inv.stepRun (h : Inv t) (hi : t.workers[i]? = some p) (hok : Serves t (.worker i)) (hstep : t.stepRun i p = .ok t') :
    Inv t' := by
  have hlt := (List.getElem?_eq_some_iff.1 hi).1
  cases p with
  | loop =>
    cases hstep
    refine h.idle hi rfl ?_ rfl ?_ ?_ <;> split_ifs <;> first | rfl | nofun
  | semWait =>
    rw [ThreadPoolImpl.stepRun] at hstep
    split_ifs at hstep with hctrl
    cases hstep
    refine h.idle hi rfl rfl rfl (by rw [RunPlace.locks, Bool.toNat_true]; omega) fun _ => ?_
    cases hflag : t.m_flag with
    | false => exact hok _ hi hflag
    | true =>
      have hpermits := h.permits.permits hflag
      rw [h.permits.flag.1 hflag]
      exact ⟨rfl, by omega⟩
  | lock =>
    obtain ⟨job, jobs, l₁, l₂, -, hl, rfl⟩ := lockRun_eq_ok hstep
    exact h.pop hi hl
  | find job =>
    cases hstep
    rw [if_pos (hok _ hi)]
    have hhold : t.history job = [.pushed, .taken i] := (h.jobs job).held i _ hi rfl
    have hrun := h.run hi rfl (.process job) (.inl rfl) rfl (fun _ => rfl) (fun j hj => by cases hj; exact hok _ hi)
      (.taken i (.inr (List.getElem?_set_self hlt))) (fun _ => rfl) (t.touch [job]).late
    rw [← hhold, Function.update_eq_self] at hrun
    exact hrun
  | process job =>
    rw [ThreadPoolImpl.stepRun] at hstep
    split at hstep
    case h_1 => cases hstep
    case h_2 process hfind =>
      cases hstep
      have hhold : t.history job = [.pushed, .taken i] := (h.jobs job).held i _ hi rfl
      have hrun := h.run hi rfl (.done job) (.inl rfl) rfl nofun nofun
        (.processed i process (List.getElem?_set_self hlt)) (fun _ => ⟨process, rfl⟩) (t.touch [job]).late
      rw [show [.pushed, .taken i, .processed process] = t.history job ++ [.processed process] by rw [hhold]; rfl] at hrun
      exact hrun
  | done job =>
    cases hstep
    obtain ⟨process, hhold⟩ : ∃ p, t.history job = [.pushed, .taken i, .processed p] := (h.jobs job).held i _ hi rfl
    have hrun := h.run hi rfl (.delete job) (.inl rfl) rfl nofun nofun (.told i process (List.getElem?_set_self hlt))
      (fun _ => ⟨process, rfl⟩) (t.touch [job]).late
    rw [show [.pushed, .taken i, .processed process, .done 0] = t.history job ++ [.done 0] by rw [hhold]; rfl] at hrun
    exact hrun
  | delete job =>
    cases hstep
    obtain ⟨process, hhold⟩ : ∃ p, t.history job = [.pushed, .taken i, .processed p, .done 0] := (h.jobs job).held i _ hi rfl
    have hrun := h.run hi rfl .loop (.inr rfl) rfl nofun nofun (.finished i process) nofun (t.touch [job]).late
    rw [show [.pushed, .taken i, .processed process, .done 0, .deleted] = t.history job ++ [.deleted] by rw [hhold]; rfl] at hrun
    exact hrun
  | ended => cases hstep

/-! ## The steps of the submitters -/

/-- Nothing was done with the job, so it is nowhere. -/
theorem JobAt.new (h : JobAt t job) (hnil : t.history job = []) :
    job ∉ t.m_jobs ∧ t.stop.job ≠ some job ∧ ∀ (i : Nat) p, t.workers[i]? = some p → p.job ≠ some job := by
  have hstop : t.stop.job ≠ some job := by
    intro hstop
    have hexpects := h.stopped hstop
    rw [hnil] at hexpects
    cases hs : t.stop <;> rw [hs] at hstop hexpects <;> cases hstop <;> cases hexpects
  refine ⟨fun hjob => ?_, hstop, fun i p hp hjob => ?_⟩
  · have hqueued := h.queued hjob hstop
    rw [hnil] at hqueued
    cases hqueued
  · have hsecond := (h.held i p hp hjob).second hjob
    rw [hnil] at hsecond
    cases hsecond

/-- A call goes on, and something may be done with its job. -/
theorem Calls.set (h : Calls t) (hi : t.submits[i]? = some s) (hs : s.job = some job) (hs' : s'.job = some job ∨ s'.job = none)
    (hsubmits : t'.submits = t.submits.set i s') (hhistory : ∀ j ≠ job, t'.history j = t.history j)
    (hwaiting : s' = .test job ∨ s' = .lock job → t'.history job = []) : Calls t' := by
  have hlt := (List.getElem?_eq_some_iff.1 hi).1
  have hid := h.own i s job hi hs
  have hof : ∀ j, s'.job = some j → j = job := by
    intro j hj
    rcases hs' with hs' | hs' <;> rw [hs'] at hj <;> cases hj
    rfl
  constructor
  case own =>
    intro k q j hk hq
    rw [hsubmits] at hk
    by_cases hik : i = k
    · rw [← hik, List.getElem?_set_self hlt] at hk
      cases hk
      rw [hof j hq, hid, hik]
    · rw [List.getElem?_set_ne hik] at hk
      exact h.own k q j hk hq
  case waiting =>
    intro k j hk
    rw [hsubmits] at hk
    by_cases hik : i = k
    · rw [← hik, List.getElem?_set_self hlt, Option.some.injEq, Option.some.injEq] at hk
      have hj : j = job := hof j (by rcases hk with hk | hk <;> rw [hk] <;> rfl)
      rw [hj] at hk ⊢
      exact hwaiting hk
    · rw [List.getElem?_set_ne hik] at hk
      have hjid : j.id = k := hk.elim (fun hk => h.own k _ j hk rfl) fun hk => h.own k _ j hk rfl
      rw [hhistory j (fun heq => hik (by rw [← hid, ← heq, hjid]))]
      exact h.waiting k j hk
  case fresh =>
    intro j hle
    rw [hsubmits, List.length_set] at hle
    rw [hhistory j (fun heq => by rw [heq, hid] at hle; omega)]
    exact h.fresh j hle

/-- A call goes on and does nothing with its job; it may post its permit. -/
theorem Inv.call (h : Inv t) (hi : t.submits[i]? = some s) (hs : s.job = some job) (place : SubmitPlace)
    (hplace : place.job = some job ∨ place.job = none)
    (hwaiting : place = .test job ∨ place = .lock job → s = .test job ∨ s = .lock job) (m_ctrl : Nat)
    (hctrl : m_ctrl + place.posts.toNat = t.m_ctrl + s.posts.toNat) (late : List Task) :
    Inv { t with m_ctrl := m_ctrl, submits := t.submits.set i place, late := late } := by
  have hcount := Threads.countP_set (p := SubmitPlace.posts) (b := place) hi
  constructor
  case jobs => exact fun job => (h.jobs job).frame rfl rfl Iff.rfl (fun _ _ _ => Iff.rfl) (fun _ _ => Iff.rfl) id
  case calls =>
    refine h.calls.set hi hs hplace rfl (fun _ _ => rfl) fun hplace => h.calls.waiting i job ?_
    rw [hi, Option.some.injEq, Option.some.injEq]
    exact hwaiting hplace
  case permits =>
    refine ⟨h.permits.nodup, h.permits.front, h.permits.flag, fun hon => ?_, h.permits.enough, h.permits.quiet, h.permits.types⟩
    have := h.permits.permits hon
    dsimp only
    omega

/-- A submitter pushes its job. -/
theorem Inv.push (h : Inv t) (hi : t.submits[i]? = some (.lock job)) :
    Inv { (t.touch jobs).note job .pushed with m_jobs := t.m_jobs ++ [job], submits := t.submits.set i (.post job) } := by
  have hnil := h.calls.waiting i job (.inr hi)
  obtain ⟨hqueue, hstop, hworkers⟩ := (h.jobs job).new hnil
  have hself : Function.update t.history job (t.history job ++ [.pushed]) job = [.pushed] := by
    rw [Function.update_self, hnil]
    rfl
  have hcount := Threads.countP_set (p := SubmitPlace.posts) (b := .post job) hi
  simp only [SubmitPlace.posts, Bool.toNat_false, Bool.toNat_true] at hcount
  constructor
  case jobs =>
    intro j
    by_cases hj : j = job
    case neg =>
      refine (h.jobs j).frame (Function.update_of_ne hj ..) rfl ?_ (fun _ _ _ => Iff.rfl) (fun _ _ => Iff.rfl) id
      simp [hj]
    rw [hj]
    constructor
    case located =>
      change Located _ job (Function.update t.history job (t.history job ++ [.pushed]) job)
      rw [hself]
      exact .queued (List.mem_append_right _ (List.mem_singleton_self _))
    case queued => exact fun _ _ => hself
    case stopped => exact fun heq => absurd heq hstop
    case held => exact fun k q hk hq => absurd hq (hworkers k q hk)
  case calls => exact h.calls.set hi rfl (.inl rfl) rfl (fun j hj => Function.update_of_ne hj ..) nofun
  case permits =>
    constructor
    case nodup =>
      have hnodup := h.permits.nodup.concat hqueue
      rw [List.concat_eq_append] at hnodup
      exact hnodup
    case front =>
      intro j hj
      rw [List.head?_append, h.permits.front j hj]
      rfl
    case flag => exact h.permits.flag
    case permits =>
      intro hon
      have := h.permits.permits hon
      change t.m_ctrl + t.workers.countP RunPlace.locks + (t.submits.set i (.post job)).countP SubmitPlace.posts =
        (t.m_jobs ++ [job]).length
      rw [List.length_append, List.length_singleton]
      omega
    case enough =>
      intro hdrains
      have := h.permits.enough hdrains
      change t.workers.countP RunPlace.locks ≤ (t.m_jobs ++ [job]).length
      rw [List.length_append]
      omega
    case quiet => exact h.permits.quiet
    case types => exact h.permits.types

/-- A submitter deletes its job, as one of the type to merge is queued. -/
theorem Inv.merge (h : Inv t) (hi : t.submits[i]? = some (.lock job)) (hlow : t.m_LowPriority ≠ "-1") {r : Option Int} :
    Inv { (t.touch jobs).note job .deleted with submits := t.submits.set i (.returned r) } := by
  have hnil := h.calls.waiting i job (.inr hi)
  obtain ⟨hqueue, hstop, hworkers⟩ := (h.jobs job).new hnil
  have hcount := Threads.countP_set (p := SubmitPlace.posts) (b := .returned r) hi
  simp only [SubmitPlace.posts, Bool.toNat_false] at hcount
  constructor
  case jobs =>
    intro j
    by_cases hj : j = job
    case neg => exact (h.jobs j).frame (Function.update_of_ne hj ..) rfl Iff.rfl (fun _ _ _ => Iff.rfl) (fun _ _ => Iff.rfl) id
    rw [hj]
    constructor
    case located =>
      change Located _ job (Function.update t.history job (t.history job ++ [.deleted]) job)
      rw [Function.update_self, hnil]
      exact .merged hlow
    case queued => exact fun hin => absurd hin hqueue
    case stopped => exact fun heq => absurd heq hstop
    case held => exact fun k q hk hq => absurd hq (hworkers k q hk)
  case calls => exact h.calls.set hi rfl (.inr rfl) rfl (fun j hj => Function.update_of_ne hj ..) nofun
  case permits =>
    refine ⟨h.permits.nodup, h.permits.front, h.permits.flag, fun hon => ?_, h.permits.enough, h.permits.quiet, h.permits.types⟩
    have := h.permits.permits hon
    change t.m_ctrl + t.workers.countP RunPlace.locks + (t.submits.set i (.returned r)).countP SubmitPlace.posts = t.m_jobs.length
    omega

theorem Inv.stepSubmit (h : Inv t) (hi : t.submits[i]? = some s) (hstep : t.stepSubmit i s = .ok t') : Inv t' := by
  cases s with
  | test job =>
    rw [ThreadPoolImpl.stepSubmit] at hstep
    cases hstep
    split_ifs
    · exact h.call hi rfl (.lock job) (.inl rfl) (fun _ => .inl rfl) t.m_ctrl rfl t.late
    · exact h.call hi rfl (.returned (some (-1))) (.inr rfl) nofun t.m_ctrl rfl t.late
  | lock job =>
    cases hstep
    obtain ⟨jobs, -, -, ⟨hlow, heq⟩ | heq⟩ := lockSubmit_eq t i job
    · rw [heq]
      exact h.merge hi hlow
    · rw [heq]
      exact h.push hi
  | post job =>
    cases hstep
    exact h.call hi rfl (.wait job) (.inl rfl) nofun (t.m_ctrl + 1) rfl t.late
  | wait job =>
    cases hstep
    exact h.call hi rfl (.returned none) (.inr rfl) nofun t.m_ctrl rfl (t.touch [job]).late
  | returned r => cases hstep

/-! ## The steps of `Stop` -/

/-- `Stop` goes on, and has another job or none. -/
theorem JobAt.halt (h : JobAt t job) (hhistory : t'.history job = t.history job) (hlow : t'.m_LowPriority = t.m_LowPriority)
    (hjobs : job ∈ t'.m_jobs ↔ job ∈ t.m_jobs) (hworkers : t'.workers = t.workers) (hstop : t.stop.job ≠ some job)
    (hstop' : t'.stop.job ≠ some job) (hidle : t'.stop ≠ .idle) : JobAt t' job :=
  h.frame hhistory hlow hjobs (fun _ _ _ => by rw [hworkers])
    (fun _ hp => iff_of_false (fun heq => hstop' (heq ▸ hp)) fun heq => hstop (heq ▸ hp)) fun _ => hidle

/-- `Stop` takes jobs out, and goes on with it. -/
theorem Permits.halt (h : Permits t) (hdrains : t.stop.drains = true) (hdrains' : t'.stop.drains = true)
    (hflag : t'.m_flag = t.m_flag) (hworkers : t'.workers = t.workers) (htasks : t'.m_tasks = t.m_tasks)
    (hnodup : t'.m_jobs.Nodup) (hfront : ∀ job, t'.stop.job = some job → t'.m_jobs.head? = some job) : Permits t' := by
  have hoff : t'.m_flag = false := by
    rw [hflag, Bool.eq_false_iff]
    intro hon
    rw [h.flag.1 hon] at hdrains
    cases hdrains
  constructor
  case nodup => exact hnodup
  case front => exact hfront
  case flag =>
    rw [hoff]
    refine iff_of_false nofun fun hidle => ?_
    rw [hidle] at hdrains'
    cases hdrains'
  case permits => exact fun hon => nomatch hoff.symm.trans hon
  case enough => exact fun hd => nomatch hdrains'.symm.trans hd
  case quiet => exact fun _ => hworkers ▸ h.quiet hdrains
  case types => rw [hworkers, htasks]; exact h.types

/-- `Stop` does something with the job at the front. -/
theorem Inv.halt {l : List TaskEvent} (h : Inv t) (hjob : t.stop.job = some job) (stop : StopPlace) (hstop : stop.job = some job)
    (hlocated : Located { t with stop := stop } job l) (hexpects : stop.Expects l) (late : List Task) :
    Inv { t with history := Function.update t.history job l, stop := stop, late := late } := by
  have hdrains : ∀ s : StopPlace, s.job = some job → s.drains = true := by intro s hs; cases s <;> first | rfl | cases hs
  have hin : job ∈ t.m_jobs := List.mem_of_mem_head? (h.permits.front job hjob)
  constructor
  case jobs =>
    intro j
    by_cases hj : j = job
    case neg =>
      refine (h.jobs j).halt (Function.update_of_ne hj ..) rfl Iff.rfl rfl ?_ ?_ ?_
      · rw [hjob]
        exact fun heq => hj (Option.some.inj heq).symm
      · rw [hstop]
        exact fun heq => hj (Option.some.inj heq).symm
      · intro hidle
        rw [show stop = .idle from hidle] at hstop
        cases hstop
    rw [hj]
    have hself : Function.update t.history job l job = l := Function.update_self ..
    constructor
    case located =>
      change Located _ job (Function.update t.history job l job)
      rw [hself]
      exact hlocated.imp id id (fun _ _ _ => id) (fun _ _ => id) id
    case queued => exact fun _ hne => absurd hstop hne
    case held => exact fun k q hk hq => absurd hin ((h.jobs job).alone hk hq).1
    case stopped =>
      intro _
      change stop.Expects (Function.update t.history job l job)
      rw [hself]
      exact hexpects
  case calls =>
    refine h.calls.keep job (fun hnil => ?_) rfl fun j hj => Function.update_of_ne hj ..
    exact ((h.jobs job).new hnil).1 hin
  case permits =>
    refine h.permits.halt (hdrains _ hjob) (hdrains _ hstop) rfl rfl rfl h.permits.nodup fun j hj => ?_
    rw [← hj, show ThreadPoolImpl.stop _ = stop from rfl, hstop]
    exact h.permits.front job hjob

/-- `Stop` has begun and does not take jobs out yet: it posts permits, and may leave `m_tasks` as it is. -/
theorem Inv.begins (h : Inv t) (hnone : t.stop.job = none) (hdrains : t.stop.drains = false) (stop : StopPlace)
    (hstop : stop.job = none) (hidle : stop ≠ .idle) (hnot : stop.drains = false) (m_ctrl : Nat) :
    Inv { t with m_flag := false, m_ctrl := m_ctrl, stop := stop } := by
  constructor
  case jobs =>
    exact fun job => (h.jobs job).halt rfl rfl Iff.rfl rfl (by rw [hnone]; nofun) (by rw [hstop]; nofun) hidle
  case calls => exact ⟨h.calls.own, h.calls.waiting, h.calls.fresh⟩
  case permits =>
    exact ⟨h.permits.nodup, fun j hj => (nomatch hstop.symm.trans hj), iff_of_false nofun hidle, nofun,
      fun _ => h.permits.enough hdrains, fun hd => (nomatch hnot.symm.trans hd), h.permits.types⟩

/-- `Stop` takes jobs out, and has none. -/
theorem Inv.between (h : Inv t) (hdrains : t.stop.drains = true) (hnone : t.stop.job = none) (stop : StopPlace)
    (hstop : stop.job = none) (hdrains' : stop.drains = true) : Inv { t with stop := stop } := by
  constructor
  case jobs =>
    refine fun job => (h.jobs job).halt rfl rfl Iff.rfl rfl (by rw [hnone]; nofun) (by rw [hstop]; nofun) fun hidle => ?_
    rw [show stop = .idle from hidle] at hdrains'
    cases hdrains'
  case calls => exact ⟨h.calls.own, h.calls.waiting, h.calls.fresh⟩
  case permits => exact h.permits.halt hdrains hdrains' rfl rfl rfl h.permits.nodup fun j hj => nomatch hstop.symm.trans hj

/-- `Stop` clears `m_tasks`. -/
theorem Inv.clear (h : Inv t) (hstop : t.stop = .clear) (hworks : ∀ p ∈ t.workers, p.works = false) :
    Inv { t with m_tasks := .empty, stop := .empty } := by
  constructor
  case jobs => exact fun job => (h.jobs job).halt rfl rfl Iff.rfl rfl (by rw [hstop]; nofun) nofun nofun
  case calls => exact ⟨h.calls.own, h.calls.waiting, h.calls.fresh⟩
  case permits =>
    have hoff : t.m_flag = false := by
      rw [Bool.eq_false_iff]
      intro hon
      rw [h.permits.flag.1 hon] at hstop
      cases hstop
    exact ⟨h.permits.nodup, nofun, iff_of_false (by rw [hoff]; nofun) nofun, fun hon => (nomatch hoff.symm.trans hon), nofun,
      fun _ => hworks, fun job hjob => (nomatch hworks _ hjob)⟩

/-- `Stop` takes the first job of `m_jobs`. -/
theorem Inv.stopFront (h : Inv t) (hstop : t.stop = .front) (hstep : t.stopFront = .ok t') : Inv t' := by
  rw [ThreadPoolImpl.stopFront] at hstep
  split at hstep
  case h_1 => cases hstep
  case h_2 job rest hl =>
    cases hstep
    have hpushed : t.history job = [.pushed] :=
      (h.jobs job).queued (by rw [hl]; exact List.mem_cons_self) (by rw [hstop]; nofun)
    constructor
    case jobs =>
      intro j
      by_cases hj : j = job
      case neg => exact (h.jobs j).halt rfl rfl Iff.rfl rfl (by rw [hstop]; nofun) (fun heq => hj (Option.some.inj heq).symm) nofun
      rw [hj]
      constructor
      case located => exact (h.jobs job).located.imp id id (fun _ _ _ => id) (fun p hp heq => by rw [← heq, hstop] at hp; cases hp) nofun
      case queued => exact fun _ _ => hpushed
      case held => exact (h.jobs job).held
      case stopped => exact fun _ => hpushed
    case calls => exact ⟨h.calls.own, h.calls.waiting, h.calls.fresh⟩
    case permits =>
      refine h.permits.halt (by rw [hstop]; rfl) rfl rfl rfl rfl h.permits.nodup fun j hj => ?_
      rw [hl]
      exact hj

/-- `Stop` pops the job that it has deleted. -/
theorem Inv.stopPopFront (h : Inv t) (hstop : t.stop = .popFront job) (hstep : t.stopPopFront = .ok t') : Inv t' := by
  have hfront := h.permits.front job (by rw [hstop]; rfl)
  have hgone : t.history job = [.pushed, .done 1, .deleted] := by
    have := (h.jobs job).stopped (by rw [hstop]; rfl)
    rwa [hstop] at this
  have hnodup := h.permits.nodup
  rw [ThreadPoolImpl.stopPopFront] at hstep
  split at hstep
  case h_1 => cases hstep
  case h_2 front rest hl =>
    cases hstep
    rw [hl] at hfront hnodup
    cases hfront
    rw [List.nodup_cons] at hnodup
    constructor
    case jobs =>
      intro j
      by_cases hj : j = job
      case neg =>
        refine (h.jobs j).halt rfl rfl ?_ rfl ?_ nofun nofun
        · rw [hl, List.mem_cons]
          exact (or_iff_right hj).symm
        · rw [hstop]
          exact fun heq => hj (Option.some.inj heq).symm
      rw [hj]
      have hin : job ∈ t.m_jobs := by rw [hl]; exact List.mem_cons_self
      constructor
      case located =>
        change Located _ job (t.history job)
        rw [hgone]
        exact .dropped nofun
      case queued => exact fun hmem => absurd hmem hnodup.1
      case held => exact fun k q hk hq => absurd hin ((h.jobs job).alone hk hq).1
      case stopped => nofun
    case calls => exact ⟨h.calls.own, h.calls.waiting, h.calls.fresh⟩
    case permits => exact h.permits.halt (by rw [hstop]; rfl) rfl rfl rfl rfl hnodup.2 nofun

theorem Inv.stepStop (h : Inv t) (hok : Serves t .stop) (hstep : t.stepStop = .ok t') : Inv t' := by
  have hoff : t.stop ≠ .idle → false = t.m_flag := fun hne => (Bool.eq_false_iff.2 fun hon => hne (h.permits.flag.1 hon)).symm
  rw [ThreadPoolImpl.stepStop] at hstep
  cases hstop : t.stop with
  | idle =>
    rw [hstop] at hstep
    dsimp only at hstep
    rw [if_pos (h.permits.flag.2 hstop)] at hstep
    cases hstep
    exact h.begins (by rw [hstop]; rfl) (by rw [hstop]; rfl) (.post t.m_thread_sum) rfl nofun rfl t.m_ctrl
  | post k =>
    rw [hstop] at hstep
    cases k with
    | zero =>
      cases hstep
      have hbegins := h.begins (by rw [hstop]; rfl) (by rw [hstop]; rfl) .clear rfl nofun rfl t.m_ctrl
      rw [hoff (by rw [hstop]; nofun)] at hbegins
      exact hbegins
    | succ k =>
      cases hstep
      have hbegins := h.begins (by rw [hstop]; rfl) (by rw [hstop]; rfl) (.post k) rfl nofun rfl (t.m_ctrl + 1)
      rw [hoff (by rw [hstop]; nofun)] at hbegins
      exact hbegins
  | clear =>
    rw [hstop] at hstep
    cases hstep
    exact h.clear hstop (hok hstop)
  | empty =>
    rw [hstop] at hstep
    cases hstep
    split_ifs
    · exact h.between (by rw [hstop]; rfl) (by rw [hstop]; rfl) .ended rfl rfl
    · exact h.between (by rw [hstop]; rfl) (by rw [hstop]; rfl) .front rfl rfl
  | front =>
    rw [hstop] at hstep
    exact h.stopFront hstop hstep
  | done job =>
    rw [hstop] at hstep
    cases hstep
    have hhold : t.history job = [.pushed] := by
      have := (h.jobs job).stopped (by rw [hstop]; rfl)
      rwa [hstop] at this
    have hhalt := h.halt (by rw [hstop]; rfl) (.delete job) rfl (.cancelled rfl) rfl (t.touch [job]).late
    rw [show [.pushed, .done 1] = t.history job ++ [.done 1] by rw [hhold]; rfl] at hhalt
    exact hhalt
  | delete job =>
    rw [hstop] at hstep
    cases hstep
    have hhold : t.history job = [.pushed, .done 1] := by
      have := (h.jobs job).stopped (by rw [hstop]; rfl)
      rwa [hstop] at this
    have hhalt := h.halt (by rw [hstop]; rfl) (.popFront job) rfl (.dropped nofun) rfl (t.touch [job]).late
    rw [show [.pushed, .done 1, .deleted] = t.history job ++ [.deleted] by rw [hhold]; rfl] at hhalt
    exact hhalt
  | popFront job =>
    rw [hstop] at hstep
    exact h.stopPopFront hstop hstep
  | ended =>
    rw [hstop] at hstep
    cases hstep

theorem Inv.step {a : Action} (h : Inv t) (hok : Serves t a) (hstep : t.step a = .ok t') : Inv t' := by
  cases a with
  | register type process =>
    cases hstep
    refine ⟨fun job => (h.jobs job).frame rfl rfl Iff.rfl (fun _ _ _ => Iff.rfl) (fun _ _ => Iff.rfl) id,
      ⟨h.calls.own, h.calls.waiting, h.calls.fresh⟩,
      ⟨h.permits.nodup, h.permits.front, h.permits.flag, h.permits.permits, h.permits.enough, h.permits.quiet, fun job hjob => ?_⟩⟩
    obtain ⟨process', hfind⟩ := Option.isSome_iff_exists.1 (h.permits.types job hjob)
    exact Option.isSome_iff_exists.2 ⟨process', StdMap.find?_insert_keep hfind⟩
  | submit type =>
    cases hstep
    constructor
    case jobs => exact fun job => (h.jobs job).frame rfl rfl Iff.rfl (fun _ _ _ => Iff.rfl) (fun _ _ => Iff.rfl) id
    case calls =>
      constructor
      case own =>
        intro k p job hk hp
        rcases Threads.getElem?_concat.1 hk with hk | ⟨rfl, rfl⟩
        · exact h.calls.own k p job hk hp
        · cases hp
          rfl
      case waiting =>
        intro k job hk
        simp only [Threads.getElem?_concat] at hk
        rcases hk with (hk | ⟨-, hk⟩) | hk | ⟨-, hk⟩
        · exact h.calls.waiting k job (.inl hk)
        · cases hk
          exact h.calls.fresh _ le_rfl
        · exact h.calls.waiting k job (.inr hk)
        · cases hk
      case fresh =>
        intro job hle
        refine h.calls.fresh job ?_
        rw [List.length_append] at hle
        omega
    case permits =>
      refine ⟨h.permits.nodup, h.permits.front, h.permits.flag, fun hon => ?_, h.permits.enough, h.permits.quiet, h.permits.types⟩
      rw [Threads.countP_concat]
      exact h.permits.permits hon
  | submitter i =>
    rw [ThreadPoolImpl.step] at hstep
    split at hstep
    case h_1 => cases hstep
    case h_2 s hi => exact h.stepSubmit hi hstep
  | worker i =>
    rw [ThreadPoolImpl.step] at hstep
    split at hstep
    case h_1 => cases hstep
    case h_2 p hi => exact h.stepRun hi hok hstep
  | stop => exact h.stepStop hok hstep

end ThreadPool
