/-
No timer of a manager is forgotten (Thread/TimerMgrImpl_Linux.cpp).

When the time of a repeating timer is over, `TimerHandle` is still to post or
the worker is woken (`Comes`). Left alone, `TimerHandle` comes to its end, and
then the worker to the timer: at each step a side has less to do at its entry,
or is at the next one.
-/
import XFramework.Thread.TimerMgr

namespace TickPlace

/-- The steps of `TimerHandle` up to the next timer, at the most. -/
def left : TickPlace → Nat
  | .between => 3
  | .setFirst | .restAgain => 2
  | .restFirst | .setAgain => 1

theorem left_range (place : TickPlace) : 1 ≤ place.left ∧ place.left ≤ 3 := by
  cases place <;> decide

end TickPlace

namespace DealPlace

/-- The steps of `DealRepeatHandle` up to the next timer, at the most. -/
def left : DealPlace → Nat
  | .between => 3
  | .timerProc => 2
  | .resetState => 1

theorem left_range (place : DealPlace) : 1 ≤ place.left ∧ place.left ≤ 3 := by
  cases place <;> decide

end DealPlace

namespace TimerRun

variable {r : TimerRun}

theorem left_tickRepeat : r.tickRepeat.tickAt = .between ∨ r.tickRepeat.tickAt.left < r.tickAt.left := by
  cases hat : r.tickAt with
  | between =>
    rw [tickRepeat, hat]
    dsimp only
    split_ifs <;> simp [hat, TickPlace.left]
  | setFirst =>
    rw [tickRepeat_setFirst hat]
    exact .inr (by simp [TickPlace.left])
  | restFirst =>
    rw [tickRepeat_restFirst hat]
    exact .inl rfl
  | restAgain =>
    rw [tickRepeat_restAgain hat]
    exact .inr (by simp [TickPlace.left])
  | setAgain =>
    rw [tickRepeat_setAgain hat]
    exact .inl rfl

theorem left_dealRepeat : r.dealRepeat.dealAt = .between ∨ r.dealRepeat.dealAt.left < r.dealAt.left := by
  cases hat : r.dealAt with
  | between =>
    rw [dealRepeat, hat]
    dsimp only
    split_ifs <;> simp [hat, DealPlace.left]
  | timerProc =>
    rw [dealRepeat, hat]
    exact .inr (by simp [DealPlace.left])
  | resetState =>
    rw [dealRepeat, hat]
    exact .inl rfl

/-- A tick does not take back that the time is over, and what has happened stays. -/
theorem over_tickRepeat (hover : r.timer.isTimeout = true) :
    r.tickRepeat.timer.isTimeout = true ∧ r.tickRepeat.dealAt = r.dealAt ∧ ∃ l, r.tickRepeat.history = r.history ++ l := by
  cases hat : r.tickAt with
  | between =>
    rw [tickRepeat, hat]
    dsimp only
    split_ifs
    · exact ⟨hover, rfl, [], (List.append_nil _).symm⟩
    · exact ⟨hover, rfl, _, rfl⟩
    · exact ⟨hover, rfl, [], (List.append_nil _).symm⟩
    · exact ⟨hover, rfl, _, rfl⟩
    · exact ⟨hover, rfl, _, rfl⟩
  | setFirst =>
    rw [tickRepeat_setFirst hat]
    exact ⟨rfl, rfl, _, rfl⟩
  | restFirst =>
    rw [tickRepeat_restFirst hat]
    exact ⟨hover, rfl, [], (List.append_nil _).symm⟩
  | restAgain =>
    rw [tickRepeat_restAgain hat]
    exact ⟨hover, rfl, [], (List.append_nil _).symm⟩
  | setAgain =>
    rw [tickRepeat_setAgain hat]
    exact ⟨rfl, rfl, _, rfl⟩

end TimerRun

namespace TimerMgrImpl

variable {m m' : TimerMgrImpl} {j t k u : Nat} {str : String} {history : List Alarm.Event}

/-- The time of the timer at an entry is over, and the worker has not called it for that. -/
structure Due (m : TimerMgrImpl) (j t : Nat) (history : List Alarm.Event) : Prop where
  entry : ∃ str, m.repeatSet.entries[j]? = some (str, t)
  expired : (m.timers t).timer.isTimeout = true
  uncalled : (m.timers t).dealAt ≠ .resetState
  history : ∃ l, (m.timers t).history = history ++ l

/-- The timer was called since. -/
def Called (m : TimerMgrImpl) (t : Nat) (history : List Alarm.Event) : Prop :=
  ∃ l, (m.timers t).history = history ++ l ∧ .call ∈ l

theorem handleStep_entry (hat : m.handleAt = .loop k) (hentry : m.repeatSet.entries[k]? = some (str, u)) :
    m.handleStep = { m with
      timers := Function.update m.timers u ((m.timers u).step .tick)
      bFlagRepeat := m.bFlagRepeat || decide ((m.timers u).tickAt = .restFirst ∨ (m.timers u).tickAt = .setAgain)
      handleAt := .loop (if ((m.timers u).step .tick).tickAt = .between then k + 1 else k) } := by
  rw [handleStep, hat]
  dsimp only
  rw [handleRepeat, hentry]

theorem repeatStep_entry (hat : m.repeatAt = .loop k) (hentry : m.repeatSet.entries[k]? = some (str, u)) :
    m.repeatStep = { m with
      timers := Function.update m.timers u ((m.timers u).step .deal)
      repeatAt := .loop (if ((m.timers u).step .deal).dealAt = .between then k + 1 else k) } := by
  rw [repeatStep, hat]
  dsimp only
  rw [dealRepeat, hentry]

namespace Due

/-- A step at another timer. -/
theorem other (h : m.Due j t history) (ho : m.Owned) (hentry : m.repeatSet.entries[k]? = some (str, u)) (hne : k ≠ j)
    {r : TimerRun} (hset : m'.repeatSet = m.repeatSet) (htimers : m'.timers = Function.update m.timers u r) : m'.Due j t history := by
  obtain ⟨str', hj⟩ := h.entry
  have htu : t ≠ u := fun heq => hne (ho.entry_inj hentry hj heq.symm)
  have hsame : m'.timers t = m.timers t := by rw [htimers, Function.update_of_ne htu]
  exact ⟨⟨str', hset ▸ hj⟩, hsame ▸ h.expired, hsame ▸ h.uncalled, hsame ▸ h.history⟩

/-- A tick at the timer. -/
theorem ticked (h : m.Due j t history) (hkind : (m.timers t).repeats = true ∧ (m.timers t).removed = false)
    (hset : m'.repeatSet = m.repeatSet) (htimers : m'.timers = Function.update m.timers t ((m.timers t).step .tick)) :
    m'.Due j t history := by
  obtain ⟨str, hj⟩ := h.entry
  obtain ⟨hover, hdeal, l', hl'⟩ := TimerRun.over_tickRepeat h.expired
  obtain ⟨l, hl⟩ := h.history
  have hself : m'.timers t = (m.timers t).tickRepeat := by
    rw [htimers, Function.update_self, TimerRun.step_tickRepeat hkind.1 hkind.2]
  refine ⟨⟨str, hset ▸ hj⟩, hself ▸ hover, ?_, l ++ l', ?_⟩
  · rw [hself, hdeal]
    exact h.uncalled
  · rw [hself, hl', hl, List.append_assoc]

/-- The worker is at the timer. -/
theorem reached (h : m.Due j t history) (ho : m.Owned) (hat : m.repeatAt = .loop j) : ∃ n, (repeatStep^[n] m).Called t history := by
  obtain ⟨str, hentry⟩ := h.entry
  have hkind := ho.repeats _ (List.mem_of_getElem? hentry)
  obtain ⟨l, hl⟩ := h.history
  have hstep : ∀ place, ({ m.timers t with dealAt := place } : TimerRun).step .deal = ({ m.timers t with dealAt := place } : TimerRun).dealRepeat :=
    fun _ => TimerRun.step_dealRepeat hkind.1 hkind.2
  have hcall : ∀ m₁ : TimerMgrImpl, m₁.repeatSet = m.repeatSet → m₁.repeatAt = .loop j → m₁.timers t = { m.timers t with dealAt := .timerProc } →
      m₁.repeatStep.Called t history := by
    intro m₁ hset hat₁ htimer
    rw [repeatStep_entry hat₁ (hset ▸ hentry)]
    refine ⟨l ++ [.call], ?_, List.mem_append_right _ List.mem_cons_self⟩
    dsimp only
    rw [Function.update_self, htimer, hstep, ← List.append_assoc, ← hl]
    rfl
  cases hdeal : (m.timers t).dealAt with
  | between =>
    refine ⟨2, hcall m.repeatStep ?_ ?_ ?_⟩
    · rw [repeatStep_entry hat hentry]
    · rw [repeatStep_entry hat hentry, TimerRun.step_dealRepeat hkind.1 hkind.2]
      dsimp only
      rw [TimerRun.dealRepeat, hdeal, h.expired]
      rfl
    · rw [repeatStep_entry hat hentry, TimerRun.step_dealRepeat hkind.1 hkind.2]
      dsimp only
      rw [Function.update_self, TimerRun.dealRepeat, hdeal, h.expired]
      rfl
  | timerProc => exact ⟨1, hcall m rfl hat (by rw [← hdeal])⟩
  | resetState => exact absurd hdeal h.uncalled

/-- From its place the worker comes to the timer, or past the last one without having met it. -/
theorem walk (n : Nat) : ∀ (m : TimerMgrImpl) (k : Nat), m.Due j t history → m.Owned → m.repeatAt = .loop k →
    (∀ str u, m.repeatSet.entries[k]? = some (str, u) → 3 * (m.repeatSet.entries.length - k) + (m.timers u).dealAt.left ≤ n) →
    ∃ i, (repeatStep^[i] m).Called t history ∨
      j < k ∧ (repeatStep^[i] m).repeatAt = .wait ∧ (repeatStep^[i] m).m_SemRepeat = m.m_SemRepeat ∧
        (repeatStep^[i] m).Due j t history ∧ (repeatStep^[i] m).Owned := by
  have hends : ∀ (m : TimerMgrImpl) (k : Nat), m.Due j t history → m.Owned → m.repeatAt = .loop k → m.repeatSet.entries[k]? = none →
      j < k ∧ m.repeatStep.repeatAt = .wait ∧ m.repeatStep.m_SemRepeat = m.m_SemRepeat ∧ m.repeatStep.Due j t history ∧
        m.repeatStep.Owned := by
    intro m k h ho hat hnone
    obtain ⟨str, hj⟩ := h.entry
    have hlt := (List.getElem?_eq_some_iff.1 hj).1
    have hlen := List.getElem?_eq_none_iff.1 hnone
    have hstep : m.repeatStep = { m with repeatAt := .wait } := by
      rw [repeatStep, hat]
      dsimp only
      rw [dealRepeat, hnone]
    refine ⟨by omega, by rw [hstep], by rw [hstep], ?_, ho.repeatStep⟩
    rw [hstep]
    exact ⟨h.entry, h.expired, h.uncalled, h.history⟩
  induction n with
  | zero =>
    intro m k h ho hat hleft
    cases hentry : m.repeatSet.entries[k]? with
    | none => exact ⟨1, .inr (hends m k h ho hat hentry)⟩
    | some e =>
      have hzero := hleft e.1 e.2 hentry
      cases hplace : (m.timers e.2).dealAt <;> rw [hplace, DealPlace.left] at hzero <;> omega
  | succ n ih =>
    intro m k h ho hat hleft
    cases hentry : m.repeatSet.entries[k]? with
    | none => exact ⟨1, .inr (hends m k h ho hat hentry)⟩
    | some e =>
      obtain ⟨str, u⟩ := e
      by_cases hkj : k = j
      · subst hkj
        obtain ⟨i, hi⟩ := h.reached ho hat
        exact ⟨i, .inl hi⟩
      · have hstep := repeatStep_entry hat hentry
        have hkind : (m.timers u).repeats = true ∧ (m.timers u).removed = false := ho.repeats _ (List.mem_of_getElem? hentry)
        have hlt := (List.getElem?_eq_some_iff.1 hentry).1
        have hle := hleft str u hentry
        have hset : m.repeatStep.repeatSet = m.repeatSet := by rw [hstep]
        have hnext := h.other ho hentry hkj hset (by rw [hstep])
        have hleft' : ∀ str' u', m.repeatStep.repeatSet.entries[if ((m.timers u).step .deal).dealAt = .between then k + 1 else k]? =
            some (str', u') → 3 * (m.repeatStep.repeatSet.entries.length -
              if ((m.timers u).step .deal).dealAt = .between then k + 1 else k) + (m.repeatStep.timers u').dealAt.left ≤ n := by
          intro str' u' hentry'
          rw [hset] at hentry' ⊢
          have hu := (m.timers u).dealAt.left_range
          have hu' := (m.repeatStep.timers u').dealAt.left_range
          by_cases hnew : (m.timers u).dealRepeat.dealAt = .between
          · rw [TimerRun.step_dealRepeat hkind.1 hkind.2, if_pos hnew]
            omega
          · have hless := TimerRun.left_dealRepeat.resolve_left hnew
            rw [TimerRun.step_dealRepeat hkind.1 hkind.2, if_neg hnew] at hentry' ⊢
            cases hentry.symm.trans hentry'
            rw [hstep]
            dsimp only
            rw [Function.update_self, TimerRun.step_dealRepeat hkind.1 hkind.2]
            omega
        obtain ⟨i, hi⟩ := ih m.repeatStep _ hnext ho.repeatStep (by rw [hstep]) hleft'
        refine ⟨i + 1, hi.imp_right fun hrest => ⟨?_, hrest.2.1, hrest.2.2.1.trans (by rw [hstep]), hrest.2.2.2⟩⟩
        have hlt' := hrest.1
        split at hlt' <;> omega

theorem walks (h : m.Due j t history) (ho : m.Owned) (hat : m.repeatAt = .loop k) :
    ∃ i, (repeatStep^[i] m).Called t history ∨
      j < k ∧ (repeatStep^[i] m).repeatAt = .wait ∧ (repeatStep^[i] m).m_SemRepeat = m.m_SemRepeat ∧
        (repeatStep^[i] m).Due j t history ∧ (repeatStep^[i] m).Owned :=
  walk (3 * m.repeatSet.entries.length + 3) m k h ho hat fun _ u _ => by
    have hu := (m.timers u).dealAt.left_range
    omega

/-- A worker that is before its loop. -/
theorem begins (h : m.Due j t history) (ho : m.Owned) (hat : m.repeatAt = .rdlock) : ∃ i, (repeatStep^[i] m).Called t history := by
  have hstep : m.repeatStep = { m with repeatAt := .loop 0 } := by rw [repeatStep, hat]
  have hnext : m.repeatStep.Due j t history := by
    rw [hstep]
    exact ⟨h.entry, h.expired, h.uncalled, h.history⟩
  obtain ⟨i, hi⟩ := hnext.walks ho.repeatStep (k := 0) (by rw [hstep])
  exact ⟨i + 1, hi.resolve_right fun hrest => absurd hrest.1 (Nat.not_lt_zero j)⟩

/-- A worker that has been woken. -/
theorem wakes (h : m.Due j t history) (ho : m.Owned) (hat : m.repeatAt = .wait) (hsem : 0 < m.m_SemRepeat) :
    ∃ i, (repeatStep^[i] m).Called t history := by
  have hstep : m.repeatStep = { m with m_SemRepeat := m.m_SemRepeat - 1, repeatAt := .rdlock } := by
    rw [repeatStep, hat]
    exact if_neg (Nat.ne_of_gt hsem)
  have hnext : m.repeatStep.Due j t history := by
    rw [hstep]
    exact ⟨h.entry, h.expired, h.uncalled, h.history⟩
  obtain ⟨i, hi⟩ := hnext.begins ho.repeatStep (by rw [hstep])
  exact ⟨i + 1, hi⟩

/-- A worker that still comes to the timer, or has a post to take. -/
theorem comes (h : m.Due j t history) (ho : m.Owned)
    (hcomes : 0 < m.m_SemRepeat ∨ m.repeatAt = .rdlock ∨ ∃ k, m.repeatAt = .loop k ∧ k ≤ j) : ∃ i, (repeatStep^[i] m).Called t history := by
  rcases hcomes with hsem | hat | ⟨k, hat, hle⟩
  · cases hat : m.repeatAt with
    | wait => exact h.wakes ho hat hsem
    | rdlock => exact h.begins ho hat
    | loop k =>
      obtain ⟨i, hcalled | ⟨-, hwait, hkept, hdue, howned⟩⟩ := h.walks ho hat
      · exact ⟨i, hcalled⟩
      · obtain ⟨i', hcalled⟩ := hdue.wakes howned hwait (hkept ▸ hsem)
        exact ⟨i' + i, by rwa [Function.iterate_add_apply]⟩
  · exact h.begins ho hat
  · obtain ⟨i, hi⟩ := h.walks ho hat
    exact ⟨i, hi.resolve_right fun hrest => by omega⟩

/-- `TimerHandle` comes to its end, and the timer stays due. -/
theorem handles (n : Nat) : ∀ (m : TimerMgrImpl) (k : Nat), m.Due j t history → m.Owned → m.Awake → m.handleAt = .loop k →
    (∀ str u, m.repeatSet.entries[k]? = some (str, u) → 3 * (m.repeatSet.entries.length - k) + (m.timers u).tickAt.left ≤ n) →
    ∃ i, (handleStep^[i] m).handleAt = .timeSync ∧ (handleStep^[i] m).Due j t history ∧ (handleStep^[i] m).Owned ∧
      (handleStep^[i] m).Awake := by
  have hends : ∀ (m : TimerMgrImpl) (k : Nat), m.Due j t history → m.Owned → m.Awake → m.handleAt = .loop k →
      m.repeatSet.entries[k]? = none → m.handleStep.handleAt = .timeSync ∧ m.handleStep.Due j t history ∧ m.handleStep.Owned ∧
        m.handleStep.Awake := by
    intro m k h ho ha hat hnone
    have hstep : m.handleStep =
        { m with m_SemRepeat := if m.bFlagRepeat then m.m_SemRepeat + 1 else m.m_SemRepeat, handleAt := .timeSync } := by
      rw [handleStep, hat]
      dsimp only
      rw [handleRepeat, hnone]
    refine ⟨by rw [hstep], ?_, ho.handleStep, ha.handleStep ho⟩
    rw [hstep]
    exact ⟨h.entry, h.expired, h.uncalled, h.history⟩
  induction n with
  | zero =>
    intro m k h ho ha hat hleft
    cases hentry : m.repeatSet.entries[k]? with
    | none => exact ⟨1, hends m k h ho ha hat hentry⟩
    | some e =>
      have hzero := hleft e.1 e.2 hentry
      have hrange := (m.timers e.2).tickAt.left_range
      omega
  | succ n ih =>
    intro m k h ho ha hat hleft
    cases hentry : m.repeatSet.entries[k]? with
    | none => exact ⟨1, hends m k h ho ha hat hentry⟩
    | some e =>
      obtain ⟨str, u⟩ := e
      have hstep := handleStep_entry hat hentry
      have hkind : (m.timers u).repeats = true ∧ (m.timers u).removed = false := ho.repeats _ (List.mem_of_getElem? hentry)
      have hlt := (List.getElem?_eq_some_iff.1 hentry).1
      have hle := hleft str u hentry
      have hset : m.handleStep.repeatSet = m.repeatSet := by rw [hstep]
      have hnext : m.handleStep.Due j t history := by
        by_cases hkj : k = j
        · subst hkj
          obtain ⟨str', hj⟩ := h.entry
          cases hentry.symm.trans hj
          exact h.ticked hkind hset (by rw [hstep])
        · exact h.other ho hentry hkj hset (by rw [hstep])
      have hleft' : ∀ str' u', m.handleStep.repeatSet.entries[if ((m.timers u).step .tick).tickAt = .between then k + 1 else k]? =
          some (str', u') → 3 * (m.handleStep.repeatSet.entries.length -
            if ((m.timers u).step .tick).tickAt = .between then k + 1 else k) + (m.handleStep.timers u').tickAt.left ≤ n := by
        intro str' u' hentry'
        rw [hset] at hentry' ⊢
        have hu := (m.timers u).tickAt.left_range
        have hu' := (m.handleStep.timers u').tickAt.left_range
        by_cases hnew : (m.timers u).tickRepeat.tickAt = .between
        · rw [TimerRun.step_tickRepeat hkind.1 hkind.2, if_pos hnew]
          omega
        · have hless := TimerRun.left_tickRepeat.resolve_left hnew
          rw [TimerRun.step_tickRepeat hkind.1 hkind.2, if_neg hnew] at hentry' ⊢
          cases hentry.symm.trans hentry'
          rw [hstep]
          dsimp only
          rw [Function.update_self, TimerRun.step_tickRepeat hkind.1 hkind.2]
          omega
      obtain ⟨i, hi⟩ := ih m.handleStep _ hnext ho.handleStep (ha.handleStep ho) (by rw [hstep]) hleft'
      exact ⟨i + 1, hi⟩

/-- The two threads left alone, first the one of `TimerThread` and then the worker, the timer is called. -/
theorem called (h : m.Due j t history) (ho : m.Owned) (ha : m.Awake) :
    ∃ n i, (repeatStep^[i] (handleStep^[n] m)).Called t history := by
  obtain ⟨str, hentry⟩ := h.entry
  obtain hsem | hrest | hbefore | ⟨k, hat, -⟩ := ha.repeats j _ hentry h.expired
  · exact ⟨0, h.comes ho (.inl hsem)⟩
  · exact ⟨0, h.comes ho (.inr (.inl hrest))⟩
  · exact ⟨0, h.comes ho (.inr (.inr hbefore))⟩
  · obtain ⟨n, hend, hdue, howned, hawake⟩ := handles (3 * m.repeatSet.entries.length + 3) m k h ho ha hat fun _ u _ => by
      have hu := (m.timers u).tickAt.left_range
      omega
    obtain ⟨str', hentry'⟩ := hdue.entry
    obtain hsem | hrest | hbefore | ⟨k', hat', -⟩ := hawake.repeats j _ hentry' hdue.expired
    · exact ⟨n, hdue.comes howned (.inl hsem)⟩
    · exact ⟨n, hdue.comes howned (.inr (.inl hrest))⟩
    · exact ⟨n, hdue.comes howned (.inr (.inr hbefore))⟩
    · cases hend.symm.trans hat'

end Due

theorem foldlM_handle (n : Nat) : (List.replicate n Action.handle).foldlM step m = .ok (handleStep^[n] m) := by
  induction n generalizing m with
  | zero => rfl
  | succ n ih => exact Fallible.foldlM_cons_ok.2 ⟨_, rfl, ih⟩

theorem foldlM_repeats (n : Nat) : (List.replicate n Action.repeats).foldlM step m = .ok (repeatStep^[n] m) := by
  induction n generalizing m with
  | zero => rfl
  | succ n ih => exact Fallible.foldlM_cons_ok.2 ⟨_, rfl, ih⟩

end TimerMgrImpl
