/-
Tasks that are merged (Thread/ThreadPoolImpl_Linux.cpp, Thread/Task.h,
Net/AsyncNetDefine.h).

`submit_job_req` ignores a job when `TaskTypeCompare` finds one in `m_jobs` for
the type that may be merged. Without a comparator it looks at the type of the
queued job only, so a job of any other type is ignored as well
(`submit_job_req_merges_iff`). `AsyncNetRWTask::tCompare` looks at both jobs, and
keeps the write tasks of one socket down to one (`Merged`).
-/
import XFramework.Thread.ThreadPool

open Fallible

namespace ThreadPool

def READTASK : String := "0"

def WRITETASK : String := "1"

/-- `AsyncNetRWTask::tCompare`, where every job is an `AsyncNetRWTask`. -/
def tCompare (m_cSock : Task → Int) : TCompare := fun type other pTask =>
  m_cSock other = m_cSock pTask ∧ other.m_type = pTask.m_type ∧ other.m_type = type

namespace ThreadPoolImpl

/-- Without a comparator the types tell. -/
def Equivalent (t : ThreadPoolImpl) (other job : Task) : Prop :=
  match t.m_taskCmp with
  | none => other.m_type = job.m_type
  | some f => f t.m_LowPriority other job

/-- The job is of the type that may be merged, and an equivalent one of that type is queued. -/
def Duplicate (t : ThreadPoolImpl) (job : Task) : Prop :=
  job.m_type = t.m_LowPriority ∧ ∃ other ∈ t.m_jobs, other.m_type = t.m_LowPriority ∧ t.Equivalent other job

/-- What is looked for in `m_jobs` tells a duplicate. -/
def Tells (t : ThreadPoolImpl) (job : Task) : Prop :=
  t.m_LowPriority ≠ "-1" → match t.m_taskCmp with
    | none => (∃ other ∈ t.m_jobs, other.m_type = t.m_LowPriority) → job.m_type = t.m_LowPriority
    | some f => (∃ other ∈ t.m_jobs, f t.m_LowPriority other job) →
        job.m_type = t.m_LowPriority ∧ ∃ other ∈ t.m_jobs, f t.m_LowPriority other job ∧ other.m_type = t.m_LowPriority

/-- Of the jobs in `m_jobs` no two are write tasks of one socket. -/
def Merged (m_cSock : Task → Int) (t : ThreadPoolImpl) : Prop :=
  t.m_jobs.Pairwise fun a b => ¬(a.m_type = WRITETASK ∧ b.m_type = WRITETASK ∧ m_cSock a = m_cSock b)

variable {t t' : ThreadPoolImpl} {i : Nat} {job : Task} {m_cSock : Task → Int} {a : Action}

/-- `find_if` finds one. -/
def Found (t : ThreadPoolImpl) (job : Task) : Prop :=
  t.m_LowPriority ≠ "-1" ∧ ∃ other ∈ t.m_jobs, taskTypeCompare t.m_LowPriority (some job) t.m_taskCmp other = true

theorem lockSubmit_found (h : t.Found job) : ∃ jobs, t.lockSubmit i job =
    { (t.touch jobs).note job .deleted with submits := t.submits.set i (.returned (some (-2))) } := by
  refine ⟨t.tested t.m_LowPriority (taskTypeCompare t.m_LowPriority (some job) t.m_taskCmp), ?_⟩
  rw [lockSubmit]
  exact if_pos ⟨h.1, List.any_eq_true.2 h.2⟩

theorem lockSubmit_not_found (h : ¬t.Found job) : ∃ jobs, t.lockSubmit i job = { (t.touch jobs).note job .pushed with
    m_jobs := t.m_jobs ++ [job], submits := t.submits.set i (.post job) } := by
  refine ⟨t.tested t.m_LowPriority (taskTypeCompare t.m_LowPriority (some job) t.m_taskCmp), ?_⟩
  rw [lockSubmit]
  exact if_neg fun hand => h ⟨hand.1, List.any_eq_true.1 hand.2⟩

/-- The call comes back with -2 when one is found. -/
theorem returned_iff (hi : t.submits[i]? = some (.lock job)) :
    (t.lockSubmit i job).submits[i]? = some (.returned (some (-2))) ↔ t.Found job := by
  have hlt := (List.getElem?_eq_some_iff.1 hi).1
  by_cases h : t.Found job
  · obtain ⟨jobs, heq⟩ := lockSubmit_found (i := i) h
    rw [heq]
    exact iff_of_true (List.getElem?_set_self hlt) h
  · obtain ⟨jobs, heq⟩ := lockSubmit_not_found (i := i) h
    rw [heq]
    refine iff_of_false (fun hreturned => ?_) h
    rw [List.getElem?_set_self hlt] at hreturned
    cases hreturned

theorem tells_iff : (t.Found job → t.Duplicate job) ↔ t.Tells job := by
  rw [Tells, Found, and_imp]
  refine imp_congr_right fun _ => ?_
  cases hcmp : t.m_taskCmp with
  | none =>
    simp only [Duplicate, Equivalent, hcmp, taskTypeCompare, decide_eq_true_eq]
    refine imp_congr_right fun hfound => ⟨And.left, fun htype => ⟨htype, ?_⟩⟩
    obtain ⟨other, hother, hlow⟩ := hfound
    exact ⟨other, hother, hlow, hlow.trans htype.symm⟩
  | some f =>
    simp only [Duplicate, Equivalent, hcmp, taskTypeCompare]
    exact imp_congr_right fun _ => and_congr_right fun _ =>
      exists_congr fun other => and_congr_right fun _ => and_comm

theorem tells_tCompare (hcmp : t.m_taskCmp = some (tCompare m_cSock)) : t.Tells job := by
  rw [Tells, hcmp]
  intro _ ⟨other, hother, hsame⟩
  have htypes : m_cSock other = m_cSock job ∧ other.m_type = job.m_type ∧ other.m_type = t.m_LowPriority := by
    simpa [tCompare] using hsame
  exact ⟨htypes.2.1.symm.trans htypes.2.2, other, hother, hsame, htypes.2.2⟩

/-! ## Write tasks -/

/-- The comparator and the type are set, and the write tasks are merged. -/
structure Merging (m_cSock : Task → Int) (t : ThreadPoolImpl) : Prop where
  low : t.m_LowPriority = WRITETASK
  cmp : t.m_taskCmp = some (tCompare m_cSock)
  merged : t.Merged m_cSock

/-- A job that is pushed has no other of its socket before it. -/
theorem Merging.lockSubmit (h : Merging m_cSock t) : Merging m_cSock (t.lockSubmit i job) := by
  by_cases hfound : t.Found job
  · obtain ⟨jobs, heq⟩ := lockSubmit_found (i := i) hfound
    rw [heq]
    exact ⟨h.low, h.cmp, h.merged⟩
  · obtain ⟨jobs, heq⟩ := lockSubmit_not_found (i := i) hfound
    rw [heq]
    refine ⟨h.low, h.cmp, List.pairwise_append.2 ⟨h.merged, List.pairwise_singleton _ _, fun a ha b hb hsame => hfound ?_⟩⟩
    rw [List.mem_singleton.1 hb] at hsame
    obtain ⟨hwrite, hjob, hsock⟩ := hsame
    refine ⟨by rw [h.low]; decide, a, ha, ?_⟩
    rw [h.cmp, h.low]
    simp [taskTypeCompare, tCompare, hwrite, hjob, hsock]

/-- Jobs that are taken out leave the others as they are. -/
theorem Merging.sublist (h : Merging m_cSock t) (hlow : t'.m_LowPriority = t.m_LowPriority)
    (hcmp : t'.m_taskCmp = t.m_taskCmp) (hjobs : t'.m_jobs.Sublist t.m_jobs) : Merging m_cSock t' :=
  ⟨hlow.trans h.low, hcmp.trans h.cmp, h.merged.sublist hjobs⟩

theorem Merging.same (h : Merging m_cSock t) (hlow : t'.m_LowPriority = t.m_LowPriority)
    (hcmp : t'.m_taskCmp = t.m_taskCmp) (hjobs : t'.m_jobs = t.m_jobs) : Merging m_cSock t' :=
  h.sublist hlow hcmp (hjobs ▸ List.Sublist.refl _)

theorem Merging.stepSubmit {s : SubmitPlace} (h : Merging m_cSock t) (hstep : t.stepSubmit i s = .ok t') :
    Merging m_cSock t' := by
  cases s with
  | lock job =>
    cases hstep
    exact h.lockSubmit
  | test job | post job | wait job =>
    cases hstep
    exact h.same rfl rfl rfl
  | returned r => cases hstep

theorem Merging.stepRun {p : RunPlace} (h : Merging m_cSock t) (hstep : t.stepRun i p = .ok t') : Merging m_cSock t' := by
  cases p with
  | lock =>
    obtain ⟨job, jobs, l₁, l₂, -, hl, rfl⟩ := lockRun_eq_ok hstep
    refine h.sublist rfl rfl ?_
    rw [hl]
    exact (List.Sublist.refl l₁).append (List.sublist_cons_self job l₂)
  | semWait =>
    rw [ThreadPoolImpl.stepRun] at hstep
    split_ifs at hstep
    cases hstep
    exact h.same rfl rfl rfl
  | process job =>
    rw [ThreadPoolImpl.stepRun] at hstep
    split at hstep
    case h_1 => cases hstep
    case h_2 =>
      cases hstep
      exact h.same rfl rfl rfl
  | loop | find job | done job | delete job =>
    cases hstep
    exact h.same rfl rfl rfl
  | ended => cases hstep

theorem Merging.stepStop (h : Merging m_cSock t) (hstep : t.stepStop = .ok t') : Merging m_cSock t' := by
  rw [ThreadPoolImpl.stepStop] at hstep
  split at hstep
  case h_1 =>
    split_ifs at hstep <;> cases hstep <;> exact h.same rfl rfl rfl
  case h_6 =>
    rw [stopFront] at hstep
    split at hstep
    case h_1 => cases hstep
    case h_2 =>
      cases hstep
      exact h.same rfl rfl rfl
  case h_9 =>
    rw [stopPopFront] at hstep
    split at hstep
    case h_1 => cases hstep
    case h_2 job rest hjobs =>
      cases hstep
      refine h.sublist rfl rfl ?_
      rw [hjobs]
      exact List.sublist_cons_self job rest
  case h_10 => cases hstep
  all_goals
    cases hstep
    exact h.same rfl rfl rfl

theorem Merging.step (h : Merging m_cSock t) (hstep : t.step a = .ok t') : Merging m_cSock t' := by
  cases a with
  | register type process | submit type =>
    cases hstep
    exact h.same rfl rfl rfl
  | submitter i =>
    rw [ThreadPoolImpl.step] at hstep
    split at hstep
    case h_1 => cases hstep
    case h_2 => exact h.stepSubmit hstep
  | worker i =>
    rw [ThreadPoolImpl.step] at hstep
    split at hstep
    case h_1 => cases hstep
    case h_2 => exact h.stepRun hstep
  | stop => exact h.stepStop hstep

theorem Merging.run {acts : List Action} (h : Merging m_cSock t) (hrun : acts.foldlM ThreadPoolImpl.step t = .ok t') :
    Merging m_cSock t' := by
  induction acts generalizing t with
  | nil =>
    cases foldlM_nil_ok.1 hrun
    exact h
  | cons a acts ih =>
    obtain ⟨t₁, hstep, hrest⟩ := foldlM_cons_ok.1 hrun
    exact ih (h.step hstep) hrest

theorem merging_begin {limit : Int} {m_MaxPriority : String} :
    Merging m_cSock (begin limit m_MaxPriority WRITETASK (some (tCompare m_cSock))) := ⟨rfl, rfl, List.Pairwise.nil⟩

/-- A call is refused for a duplicate only, when what it looks for tells one, and only then; and with the comparator of
`AsyncNetRWTask` the write tasks are merged in every run. -/
theorem submit_job_req_merges_iff (t : ThreadPoolImpl) :
    (∀ (i : Nat) job, t.submits[i]? = some (.lock job) → ((∀ t', t.step (.submitter i) = .ok t' →
      t'.submits[i]? = some (.returned (some (-2))) → t.Duplicate job) ↔ t.Tells job)) ∧
    (∀ job m_cSock, t.m_taskCmp = some (tCompare m_cSock) → t.Tells job) ∧
    ∀ m_cSock limit m_MaxPriority (acts : List Action),
      acts.foldlM step (begin limit m_MaxPriority WRITETASK (some (tCompare m_cSock))) = .ok t → t.Merged m_cSock := by
  refine ⟨fun i job hi => ?_, fun job m_cSock hcmp => tells_tCompare hcmp, fun m_cSock limit m_MaxPriority acts hrun => ?_⟩
  · have hstep : t.step (.submitter i) = .ok (t.lockSubmit i job) := by
      rw [ThreadPoolImpl.step, hi]
      rfl
    rw [← tells_iff, ← returned_iff hi, hstep]
    exact ⟨fun h => h _ rfl, fun h t' ht' => Except.ok.inj ht' ▸ h⟩
  · exact (merging_begin.run hrun).merged

/-- A write task and a read task of one socket. -/
def pairActions : List Action :=
  [.submit WRITETASK, .submit READTASK] ++ List.replicate 2 (Action.submitter 0) ++ [Action.submitter 1]

theorem merged_pair : ∃ t, pairActions.foldlM step (begin 1 READTASK WRITETASK (some (tCompare fun _ => 4))) = .ok t ∧
    t.submits[1]? = some (.lock ⟨1, READTASK⟩) ∧ t.Merged (fun _ => 4) ∧
    ∀ t', t.step (.submitter 1) = .ok t' → t'.submits[1]? = some (.returned (some (-2))) → t.Duplicate ⟨1, READTASK⟩ := by
  have hended : ∃ t, pairActions.foldlM step (begin 1 READTASK WRITETASK (some (tCompare fun _ => 4))) = .ok t ∧
      t.submits[1]? = some (.lock ⟨1, READTASK⟩) := by decide +kernel
  obtain ⟨t, hrun, hi⟩ := hended
  obtain ⟨hdropped, htells, hkept⟩ := submit_job_req_merges_iff t
  have hmerged := hkept _ _ _ _ hrun
  have hcmp : t.m_taskCmp = some (tCompare fun _ => 4) := (merging_begin.run hrun).cmp
  exact ⟨t, hrun, hi, hmerged, (hdropped 1 _ hi).2 (htells _ _ hcmp)⟩

/-- Without the comparator the read task is deleted. -/
theorem not_duplicate_read : ∃ t, pairActions.foldlM step (begin 1 READTASK WRITETASK none) = .ok t ∧
    (∃ t', t.step (.submitter 1) = .ok t' ∧ t'.submits[1]? = some (.returned (some (-2))) ∧
      t'.history ⟨1, READTASK⟩ = [.deleted]) ∧ ¬t.Duplicate ⟨1, READTASK⟩ := by
  have hended : ∃ t, pairActions.foldlM step (begin 1 READTASK WRITETASK none) = .ok t ∧ t.m_LowPriority = WRITETASK ∧
      ∃ t', t.step (.submitter 1) = .ok t' ∧ t'.submits[1]? = some (.returned (some (-2))) ∧
      t'.history ⟨1, READTASK⟩ = [.deleted] := by decide +kernel
  obtain ⟨t, hrun, hlow, hstep⟩ := hended
  refine ⟨t, hrun, hstep, fun h => ?_⟩
  have htype := h.1
  rw [hlow] at htype
  exact absurd htype (by decide)

end ThreadPoolImpl

end ThreadPool
