/-
The timers of a manager as they are one by one (Thread/TimerMgrImpl_Linux.cpp).

Whatever the manager does to a timer is a step of `TimerRun`, so what holds in
all runs of one timer holds of every timer of the manager (`Played.step`).
`ModifyRepeatTimer` is left out here: it changes the times a timer keeps.
-/
import XFramework.Thread.TimerMgr

namespace TimerRun

variable {r : TimerRun} {a : Action} {p : TimeSet}

theorem m_param_step : (r.step a).timer.m_param = r.timer.m_param := by
  cases a with
  | tick =>
    simp only [step, tickOnce, tickRepeat]
    split_ifs <;> cases r.tickAt <;> simp
  | deal =>
    simp only [step, dealOnce, dealRepeat]
    split_ifs <;> cases r.dealAt <;> simp

theorem run_concat {acts : List Action} : r.run (acts ++ [a]) = (r.run acts).step a := by
  rw [run, run, List.foldl_append]
  rfl

/-- Nothing happens to a timer that is gone. -/
theorem step_removed (h : r.removed = true) : r.step a = r := by
  cases a <;> rw [step, if_pos h]

/-- A one-shot timer is called when it is taken out, and not before. -/
theorem count_call (h : r.repeats = false) (hr : r.history.count .call = r.removed.toNat) :
    (r.step a).history.count .call = (r.step a).removed.toNat := by
  cases hremoved : r.removed with
  | true => rw [step_removed hremoved, hr]
  | false =>
    rw [hremoved] at hr
    cases a with
    | tick =>
      rw [removed_tick, hremoved, step, if_neg (by rw [hremoved]; decide), if_neg (by rw [h]; decide), tickOnce]
      dsimp only
      split_ifs <;> simpa using hr
    | deal =>
      cases hover : r.timer.isTimeout with
      | true =>
        rw [deal_call ⟨h, hremoved⟩ hover, history_note, List.count_append, hr]
        rfl
      | false =>
        rw [deal_skip ⟨h, hremoved⟩ hover, history_note, removed_note, hremoved, List.count_append, hr]
        rfl

theorem repeats_step : (r.step a).repeats = r.repeats := by
  cases a with
  | tick => exact repeats_tick
  | deal => exact repeats_deal

theorem repeats_run {acts : List Action} : (r.run acts).repeats = r.repeats := by
  induction acts using List.reverseRecOn with
  | nil => rfl
  | append_singleton acts a ih => rw [run_concat, repeats_step, ih]

theorem count_call_run (acts : List Action) (h : p.nInterval = 0) :
    ((addTimer p).run acts).history.count .call = ((addTimer p).run acts).removed.toNat := by
  induction acts using List.reverseRecOn with
  | nil => rfl
  | append_singleton acts a ih =>
    rw [run_concat]
    exact count_call (repeats_run.trans (decide_eq_false (not_not.2 h))) ih

end TimerRun

namespace TimerMgrImpl

variable {m m' : TimerMgrImpl}

/-- The times of the timers stay as they were given. -/
def Action.Keeps : Action → Prop
  | .modifyRepeatTimer _ _ => False
  | _ => True

instance : ∀ a : Action, Decidable a.Keeps
  | .modifyRepeatTimer _ _ => instDecidableFalse
  | .addTimer _ _ => .isTrue trivial
  | .delTimer _ => .isTrue trivial
  | .alarm => .isTrue trivial
  | .handle => .isTrue trivial
  | .once => .isTrue trivial
  | .repeats => .isTrue trivial

/-- What has happened at the timers is what can happen at each alone; a one-shot timer that was deleted was called. -/
structure Played (m : TimerMgrImpl) : Prop where
  runs : ∀ t < m.created, ∃ acts, m.timers t = (TimerRun.addTimer (m.timers t).timer.m_param).run acts
  deleted : ∀ t ∈ m.deleted, (m.timers t).repeats = false → (m.timers t).removed = true
  refused : ∀ t ∈ m.refused, (m.timers t).repeats = true

namespace Played

/-- A step that changes no collection of the manager's but perhaps the list and the set. -/
theorem frame (h : m.Played) (hcreated : m'.created = m.created)
    (hdeleted : ∀ t ∈ m'.deleted, t ∈ m.deleted ∨ ((m'.timers t).repeats = false → (m'.timers t).removed = true))
    (hrefused : m'.refused = m.refused) (htimers : ∀ t, m'.timers t = m.timers t ∨ ∃ a, m'.timers t = (m.timers t).step a) : m'.Played := by
  refine ⟨fun t ht => ?_, fun t ht hr => ?_, fun t ht => ?_⟩
  · obtain ⟨acts, hrun⟩ := h.runs t (hcreated ▸ ht)
    rcases htimers t with heq | ⟨a, heq⟩
    · exact ⟨acts, by rw [heq, ← hrun]⟩
    · refine ⟨acts ++ [a], ?_⟩
      rw [heq, TimerRun.m_param_step, TimerRun.run_concat, ← hrun]
  · rcases hdeleted t ht with ht | hremoved
    · rcases htimers t with heq | ⟨a, heq⟩
      · rw [heq] at hr ⊢
        exact h.deleted t ht hr
      · rw [heq, TimerRun.repeats_step] at hr
        rw [heq, TimerRun.step_removed (h.deleted t ht hr)]
        exact h.deleted t ht hr
    · exact hremoved hr
  · rcases htimers t with heq | ⟨a, heq⟩
    · rw [heq]
      exact h.refused t (hrefused ▸ ht)
    · rw [heq, TimerRun.repeats_step]
      exact h.refused t (hrefused ▸ ht)

theorem of_init : init.Played := ⟨fun t ht => absurd ht (Nat.not_lt_zero t), List.forall_mem_nil _, List.forall_mem_nil _⟩

theorem update_steps {timers : Nat → TimerRun} {t : Nat} {a : TimerRun.Action} (u : Nat) :
    Function.update timers t ((timers t).step a) u = timers u ∨ ∃ b, Function.update timers t ((timers t).step a) u = (timers u).step b := by
  by_cases hu : u = t
  · subst hu
    exact .inr ⟨a, Function.update_self ..⟩
  · exact .inl (Function.update_of_ne hu _ _)

theorem addTimer (h : m.Played) (ho : m.Owned) {str : String} {timer : AbstractTimer} (hzero : timer.nFinish = 0 ∧ timer.nCount = 0) :
    (m.addTimer str timer).Played := by
  have hnew : ∀ t < m.created, (m.newTimer timer).timers t = m.timers t := fun t ht => Owned.new_timers ht
  have hlt : ∀ t, t ∈ m.deleted ∨ t ∈ m.refused → t < m.created := fun t ht =>
    List.mem_range.1 (ho.conserved.mem_iff.1 (by simp only [List.mem_append, List.append_assoc]; tauto))
  have hself : (m.newTimer timer).timers m.created = TimerRun.addTimer timer.m_param := by
    obtain ⟨p, nCount, nFinish⟩ := timer
    obtain ⟨rfl, rfl⟩ := hzero
    exact Owned.new_timer
  have hruns : ∀ t < m.created + 1, ∃ acts,
      (m.newTimer timer).timers t = (TimerRun.addTimer ((m.newTimer timer).timers t).timer.m_param).run acts := fun t ht => by
    rcases Nat.lt_succ_iff_lt_or_eq.1 ht with ht | rfl
    · rw [hnew t ht]
      exact h.runs t ht
    · exact ⟨[], by rw [hself]; rfl⟩
  have hdeleted : ∀ t ∈ m.deleted, ((m.newTimer timer).timers t).repeats = false → ((m.newTimer timer).timers t).removed = true :=
    fun t ht => (hnew t (hlt t (.inl ht))).symm ▸ h.deleted t ht
  have hrefused : ∀ t ∈ m.refused, ((m.newTimer timer).timers t).repeats = true :=
    fun t ht => (hnew t (hlt t (.inr ht))).symm ▸ h.refused t ht
  rw [TimerMgrImpl.addTimer]
  split_ifs with hinterval hun hfind
  · exact ⟨hruns, hdeleted, fun t ht => hrefused t (List.append_nil m.refused ▸ ht)⟩
  · refine ⟨hruns, hdeleted, fun t ht => ?_⟩
    rcases List.mem_append.1 ht with ht | ht
    · exact hrefused t ht
    · rw [List.mem_singleton.1 ht]
      change ((m.newTimer timer).timers m.created).repeats = true
      rw [hself]
      exact decide_eq_true fun heq => hinterval (Owned.getInterval_eq_zero.2 heq)
  · exact h
  · exact ⟨hruns, hdeleted, hrefused⟩

theorem handleStep (h : m.Played) (ho : m.Owned) : m.handleStep.Played := by
  rw [TimerMgrImpl.handleStep]
  cases m.handleAt with
  | timeSync =>
    dsimp only
    split_ifs
    · exact h
    · exact h.frame rfl (fun _ => .inl) rfl fun _ => .inl rfl
  | once =>
    obtain ⟨flag, hfold, -⟩ := foldl_countOnce (m := m) ho.once_nodup
    dsimp only
    rw [handleOnce, hfold]
    refine h.frame rfl (fun _ => .inl) rfl fun t => ?_
    dsimp only
    split
    · exact .inr ⟨.tick, rfl⟩
    · exact .inl rfl
  | rdlock => exact h.frame rfl (fun _ => .inl) rfl fun _ => .inl rfl
  | loop k =>
    dsimp only
    rw [handleRepeat]
    split
    · exact h.frame rfl (fun _ => .inl) rfl update_steps
    · exact h.frame rfl (fun _ => .inl) rfl fun _ => .inl rfl

theorem onceStep (h : m.Played) (ho : m.Owned) (hs : m.onceStep = .ok m') : m'.Played := by
  rw [TimerMgrImpl.onceStep] at hs
  cases hat : m.onceAt with
  | wait =>
    rw [hat] at hs
    cases hs
    split_ifs
    · exact h
    · exact h.frame rfl (fun _ => .inl) rfl fun _ => .inl rfl
  | deal =>
    rw [hat] at hs
    obtain ⟨l, deleted, hdeal, -, hperm⟩ := dealOnceHandle_returns m
    rw [show m.dealOnceHandle = .ok m' from hs] at hdeal
    cases hdeal
    refine h.frame rfl (fun t ht => ?_) rfl fun t => ?_
    · refine (List.mem_append.1 ht).imp_right fun ht _ => ?_
      obtain ⟨hmem, hover⟩ := List.mem_filter.1 (hperm.mem_iff.1 ht)
      dsimp only
      rw [if_pos hmem, TimerRun.deal_call (ho.once t hmem) hover]
      rfl
    · dsimp only
      split
      · exact .inr ⟨.deal, rfl⟩
      · exact .inl rfl

theorem repeatStep (h : m.Played) : m.repeatStep.Played := by
  rw [TimerMgrImpl.repeatStep]
  cases m.repeatAt with
  | wait =>
    dsimp only
    split_ifs
    · exact h
    · exact h.frame rfl (fun _ => .inl) rfl fun _ => .inl rfl
  | rdlock => exact h.frame rfl (fun _ => .inl) rfl fun _ => .inl rfl
  | loop k =>
    dsimp only
    rw [dealRepeat]
    split
    · exact h.frame rfl (fun _ => .inl) rfl update_steps
    · exact h.frame rfl (fun _ => .inl) rfl fun _ => .inl rfl

theorem delTimer (h : m.Played) (ho : m.Owned) (str : String) : (m.delTimer str).Played := by
  rw [TimerMgrImpl.delTimer]
  split_ifs
  · cases hfind : m.repeatSet.find? str with
    | none => exact h
    | some t =>
      refine h.frame rfl (fun u hu => ?_) rfl fun _ => .inl rfl
      refine (List.mem_append.1 hu).imp_right fun hu hr => ?_
      rw [List.mem_singleton.1 hu] at hr
      exact absurd (hr.symm.trans (ho.repeats _ (StdMap.find?_eq_some.1 hfind)).1) (by decide)
  · exact h

theorem step {a : Action} (h : m.Played) (ho : m.Owned) (hzero : a.Zeroed) (hkeeps : a.Keeps) (hs : m.step a = .ok m') : m'.Played := by
  cases a with
  | addTimer str timer => exact Except.ok.inj hs ▸ h.addTimer ho hzero
  | delTimer str => exact Except.ok.inj hs ▸ h.delTimer ho str
  | modifyRepeatTimer str p => exact hkeeps.elim
  | alarm => exact Except.ok.inj hs ▸ h.frame rfl (fun _ => .inl) rfl fun _ => .inl rfl
  | handle => exact Except.ok.inj hs ▸ h.handleStep ho
  | once => exact h.onceStep ho hs
  | repeats => exact Except.ok.inj hs ▸ h.repeatStep

end Played

end TimerMgrImpl
