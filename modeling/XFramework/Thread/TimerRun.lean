/-
When timers expire (Thread/Timer.h, Thread/TimerMgrImpl_Linux.cpp).

A timer is over when the milliseconds counted are equal to its time, so only a
time that is a multiple of the tick, and not 0, is met. Such a timer moves in
step with an alarm, whatever the two threads do in between (`phase`,
`Repeating.step`, `Once.step`); any other does not go off when it should
(`onTime_iff`).
-/
import XFramework.Thread.Timer
import Mathlib.Tactic.SplitIfs
import Mathlib.Data.UInt

open Alarm AbstractTimer

/-- The times that the count of ticks meets. -/
def TimeSet.Fits (p : TimeSet) : Prop :=
  p.nStart ≠ 0 ∧ TIMERPRECISION ∣ p.nStart.toNat ∧ TIMERPRECISION ∣ p.nInterval.toNat

instance (p : TimeSet) : Decidable p.Fits := inferInstanceAs (Decidable (_ ∧ _ ∧ _))

/-- Such times of a timer that repeats. -/
def TimeSet.Repeats (p : TimeSet) : Prop := p.Fits ∧ p.nInterval ≠ 0

instance (p : TimeSet) : Decidable p.Repeats := inferInstanceAs (Decidable (_ ∧ _))

/-- The time that a timer is compared with, before it has expired first and later. -/
def AbstractTimer.period (t : AbstractTimer) : Nat := if t.nFinish = 0 then t.getStart else t.getInterval

namespace TimerRun

/-- The alarm that the timer is. -/
def phase (r : TimerRun) : Phase :=
  if r.removed then .called
  else if r.timer.nFinish = 2 then (if r.dealAt = .resetState then .called else .expired)
  else match r.tickAt with
    | .between => .counting ((r.timer.period - r.timer.elapsed) / TIMERPRECISION)
    | .setFirst | .restAgain | .setAgain => .counting 1
    | .restFirst => .counting (r.timer.getInterval / TIMERPRECISION)

/-- A repeating timer between the steps of the threads. -/
structure Repeating (p : TimeSet) (r : TimerRun) : Prop where
  param : r.timer.m_param = p
  repeats : r.repeats = true
  listed : r.removed = false
  state : r.timer.nFinish = 0 ∨ r.timer.nFinish = 1 ∨ r.timer.nFinish = 2
  deals : r.dealAt ≠ .between → r.timer.nFinish = 2
  ticks : match r.tickAt with
    | .between => (r.timer.nFinish ≠ 2 → r.timer.elapsed < r.timer.period) ∧ (r.timer.nFinish = 2 → r.timer.nCount = 0)
    | .setFirst => r.timer.nFinish = 0
    | .restFirst => r.timer.nFinish ≠ 0
    | .restAgain => r.timer.nFinish = 1
    | .setAgain => r.timer.nFinish = 1 ∧ r.timer.nCount = 0

/-- A one-shot timer. -/
structure Once (p : TimeSet) (r : TimerRun) : Prop where
  param : r.timer.m_param = p
  repeats : r.repeats = false
  tickAt : r.tickAt = .between
  dealAt : r.dealAt = .between
  state : r.timer.nFinish = 0 ∨ r.timer.nFinish = 2
  ticks : r.timer.nFinish = 0 → r.timer.elapsed < r.timer.getStart

variable {p : TimeSet} {r : TimerRun} {a : Action} {e : Event} {n : Nat}

@[simp] theorem timer_note : (r.note e).timer = r.timer := rfl
@[simp] theorem repeats_note : (r.note e).repeats = r.repeats := rfl
@[simp] theorem removed_note : (r.note e).removed = r.removed := rfl
@[simp] theorem tickAt_note : (r.note e).tickAt = r.tickAt := rfl
@[simp] theorem dealAt_note : (r.note e).dealAt = r.dealAt := rfl
@[simp] theorem history_note : (r.note e).history = r.history ++ [e] := rfl
@[simp] theorem phase_note : (r.note e).phase = r.phase := rfl

/-! ## A tick -/

section Tick

variable {t : AbstractTimer}

theorem period_multiple (hp : t.m_param.Fits) : TIMERPRECISION ∣ t.period := by
  rw [period]
  split_ifs
  · exact hp.2.1
  · exact hp.2.2

theorem period_lt : t.period < 65536 := by
  rw [period]
  split_ifs
  · exact getStart_lt
  · exact getInterval_lt

/-- A tick brings the timer one step nearer to its time. -/
theorem elapsed_step (hp : t.m_param.Fits) (hlt : t.elapsed < t.period) :
    t.increment.elapsed = t.elapsed + TIMERPRECISION ∧ t.elapsed + TIMERPRECISION ≤ t.period := by
  have hperiod := period_lt (t := t)
  obtain ⟨k, hk⟩ := period_multiple hp
  refine ⟨elapsed_increment (by rw [TIMERPRECISION]; omega), ?_⟩
  rw [elapsed, TIMERPRECISION] at *
  omega

/-- The last tick. -/
theorem left_last (hp : t.m_param.Fits) (hlt : t.elapsed < t.period) (heq : t.period = t.increment.elapsed) :
    (t.period - t.elapsed) / TIMERPRECISION = 1 := by
  rw [heq, (elapsed_step hp hlt).1, Nat.add_sub_cancel_left]
  rfl

/-- Another tick. -/
theorem left_step (hp : t.m_param.Fits) (hlt : t.elapsed < t.period) (hne : t.period ≠ t.increment.elapsed) :
    t.increment.elapsed < t.period ∧ ∃ k, (t.period - t.elapsed) / TIMERPRECISION = k + 2 ∧
      (t.period - t.increment.elapsed) / TIMERPRECISION = k + 1 := by
  obtain ⟨heq, hle⟩ := elapsed_step hp hlt
  obtain ⟨k, hk⟩ := period_multiple hp
  rw [heq] at hne ⊢
  rw [elapsed, TIMERPRECISION] at *
  exact ⟨by omega, k - t.nCount.toNat - 2, by omega, by omega⟩

end Tick

/-! ## In step with the alarm -/

/-- The time is over, and `TimerProc` is called for it. -/
theorem phase_over (hr : r.removed = false) (h : r.timer.nFinish = 2) :
    r.phase = if r.dealAt = .resetState then .called else .expired := by
  rw [phase, hr, if_neg Bool.false_ne_true, if_pos h]

theorem phase_expired (hr : r.removed = false) (h : r.timer.nFinish = 2) (hd : r.dealAt ≠ .resetState) :
    r.phase = .expired := (phase_over hr h).trans (if_neg hd)

theorem phase_called (hr : r.removed = false) (h : r.timer.nFinish = 2) (hd : r.dealAt = .resetState) : r.phase = .called :=
  (phase_over hr h).trans (if_pos hd)

theorem phase_between (hr : r.removed = false) (h : r.timer.nFinish ≠ 2) (hat : r.tickAt = .between) :
    r.phase = .counting ((r.timer.period - r.timer.elapsed) / TIMERPRECISION) := by
  rw [phase, hr, if_neg Bool.false_ne_true, if_neg h, hat]

/-- The time is over, and the state does not tell yet. -/
theorem phase_ending (hr : r.removed = false) (h : r.timer.nFinish ≠ 2)
    (hat : r.tickAt = .setFirst ∨ r.tickAt = .restAgain ∨ r.tickAt = .setAgain) : r.phase = .counting 1 := by
  rw [phase, hr, if_neg Bool.false_ne_true, if_neg h]
  rcases hat with hat | hat | hat <;> rw [hat]

/-- The count is still to be reset. -/
theorem phase_rest (hr : r.removed = false) (h : r.timer.nFinish ≠ 2) (hat : r.tickAt = .restFirst) :
    r.phase = .counting (r.timer.getInterval / TIMERPRECISION) := by
  rw [phase, hr, if_neg Bool.false_ne_true, if_neg h, hat]

/-- What a step adds to the history can happen at the alarm. -/
def Follows (p : TimeSet) (r r' : TimerRun) : Prop :=
  ∃ l, r'.history = r.history ++ l ∧ Goes (again p) r.phase l r'.phase

theorem follows_none {r' : TimerRun} {q : Phase} (hh : r'.history = r.history) (hq : r.phase = q) (hq' : r'.phase = q) :
    Follows p r r' := ⟨[], by rw [hh, List.append_nil], by rw [hq, hq']; exact goes_nil⟩

theorem follows_one {r' : TimerRun} {q q' : Phase} (hh : r'.history = r.history ++ [e]) (hq : r.phase = q)
    (hq' : r'.phase = q') (he : Alarm.step (again p) q e = some q') : Follows p r r' :=
  ⟨[e], hh, by rw [hq, hq']; exact goes_nil.concat he⟩

/-- The test in the states 0 and 1. -/
theorem tickRepeat_test (hat : r.tickAt = .between) (hstate : r.timer.nFinish = 0 ∨ r.timer.nFinish = 1) :
    r.tickRepeat = if r.timer.period = r.timer.increment.elapsed then
        { r with timer := r.timer.increment, tickAt := if r.timer.nFinish = 0 then .setFirst else .restAgain }
      else { r with timer := r.timer.increment }.note (.tick false) := by
  rw [tickRepeat, hat, period]
  rcases hstate with h | h
  · simp only [h, if_true]
    rfl
  · simp only [h, show (1 : UInt16) ≠ 0 by decide, if_false, if_true]
    rfl

theorem tickRepeat_expired (hat : r.tickAt = .between) (h : r.timer.nFinish = 2) : r.tickRepeat = r.note .pass := by
  rw [tickRepeat, hat]
  simp only [h, show (2 : UInt16) ≠ 0 by decide, show (2 : UInt16) ≠ 1 by decide, if_false]

theorem Repeating.between (h : Repeating p r) (hp : p.Fits) (hat : r.tickAt = .between) :
    Follows p r r.tickRepeat ∧ Repeating p r.tickRepeat := by
  have hfits : r.timer.m_param.Fits := h.param ▸ hp
  have hticks := h.ticks
  rw [hat] at hticks
  obtain ⟨hlt, hzero⟩ := hticks
  by_cases hover : r.timer.nFinish = 2
  · rw [tickRepeat_expired hat hover]
    refine ⟨?_, ⟨h.param, h.repeats, h.listed, h.state, h.deals, h.ticks⟩⟩
    by_cases hd : r.dealAt = .resetState
    · exact follows_one rfl (phase_called h.listed hover hd) (phase_called h.listed hover hd) rfl
    · exact follows_one rfl (phase_expired h.listed hover hd) (phase_expired h.listed hover hd) rfl
  · have hstate : r.timer.nFinish = 0 ∨ r.timer.nFinish = 1 := by
      rcases h.state with h₀ | h₁ | h₂
      · exact .inl h₀
      · exact .inr h₁
      · exact absurd h₂ hover
    have hphase := phase_between h.listed hover hat
    have hlt := hlt hover
    rw [tickRepeat_test hat hstate]
    split_ifs with heq hstart
    · -- the time is over, and the timer at its start
      have hone := hphase.trans (congrArg _ (left_last hfits hlt heq))
      exact ⟨follows_none rfl hone (phase_ending h.listed hover (.inl rfl)),
        ⟨h.param, h.repeats, h.listed, h.state, h.deals, hstart⟩⟩
    · have hone := hphase.trans (congrArg _ (left_last hfits hlt heq))
      exact ⟨follows_none rfl hone (phase_ending h.listed hover (.inr (.inl rfl))),
        ⟨h.param, h.repeats, h.listed, h.state, h.deals, hstate.resolve_left hstart⟩⟩
    · obtain ⟨hlt', k, hk, hk'⟩ := left_step hfits hlt heq
      have hnext : ({ r with timer := r.timer.increment }.note (.tick false)).phase = .counting (k + 1) :=
        hk' ▸ phase_between h.listed hover hat
      refine ⟨follows_one rfl (hphase.trans (congrArg _ hk)) hnext rfl, ⟨h.param, h.repeats, h.listed, h.state, h.deals, ?_⟩⟩
      simp only [tickAt_note, timer_note, hat]
      exact ⟨fun _ => hlt', fun h => absurd h hover⟩

theorem tickRepeat_setFirst (hat : r.tickAt = .setFirst) :
    r.tickRepeat = { r with timer := r.timer.setFinish, tickAt := .restFirst }.note (.tick true) := by
  rw [tickRepeat, hat]

theorem tickRepeat_restFirst (hat : r.tickAt = .restFirst) :
    r.tickRepeat = { r with timer := r.timer.restCount, tickAt := .between } := by
  rw [tickRepeat, hat]

theorem tickRepeat_restAgain (hat : r.tickAt = .restAgain) :
    r.tickRepeat = { r with timer := r.timer.restCount, tickAt := .setAgain } := by
  rw [tickRepeat, hat]

theorem tickRepeat_setAgain (hat : r.tickAt = .setAgain) :
    r.tickRepeat = { r with timer := r.timer.setFinish, tickAt := .between }.note (.tick true) := by
  rw [tickRepeat, hat]

theorem Repeating.idle (h : Repeating p r) (hover : r.timer.nFinish ≠ 2) : r.dealAt = .between := by
  by_contra hd
  exact hover (h.deals hd)

theorem Repeating.tick (h : Repeating p r) (hp : p.Fits) (hI : r.timer.getInterval ≠ 0) :
    Follows p r r.tickRepeat ∧ Repeating p r.tickRepeat := by
  have hticks := h.ticks
  cases hat : r.tickAt with
  | between => exact h.between hp hat
  | setFirst =>
    rw [hat] at hticks
    have hover : r.timer.nFinish ≠ 2 := by rw [hticks]; decide
    rw [tickRepeat_setFirst hat]
    have hexpired : ({ r with timer := r.timer.setFinish, tickAt := .restFirst }.note (.tick true)).phase = .expired :=
      phase_expired h.listed rfl (by simp [h.idle hover])
    exact ⟨follows_one rfl (phase_ending h.listed hover (.inl hat)) hexpired rfl,
      ⟨h.param, h.repeats, h.listed, .inr (.inr rfl), fun _ => rfl, show (2 : UInt16) ≠ 0 by decide⟩⟩
  | restFirst =>
    rw [hat] at hticks
    rw [tickRepeat_restFirst hat]
    by_cases hover : r.timer.nFinish = 2
    · have hnext : { r with timer := r.timer.restCount, tickAt := .between }.phase =
        if r.dealAt = .resetState then .called else .expired := phase_over h.listed hover
      exact ⟨follows_none rfl (phase_over h.listed hover) hnext,
        ⟨h.param, h.repeats, h.listed, h.state, h.deals, fun h => absurd hover h, fun _ => rfl⟩⟩
    · -- `ResetState` came first
      have hperiod : r.timer.restCount.period = r.timer.getInterval := if_neg hticks
      have hzero : r.timer.restCount.elapsed = 0 := Nat.zero_mul _
      have hnext : { r with timer := r.timer.restCount, tickAt := .between }.phase =
          .counting (r.timer.getInterval / TIMERPRECISION) := by
        refine (phase_between (r := { r with timer := r.timer.restCount, tickAt := .between }) h.listed hover rfl).trans ?_
        rw [hperiod, hzero, Nat.sub_zero]
      refine ⟨follows_none rfl (phase_rest h.listed hover hat) hnext,
        ⟨h.param, h.repeats, h.listed, h.state, h.deals, fun _ => ?_, fun h => absurd h hover⟩⟩
      rw [hperiod, hzero]
      exact Nat.pos_of_ne_zero hI
  | restAgain =>
    rw [hat] at hticks
    have hover : r.timer.nFinish ≠ 2 := by rw [hticks]; decide
    rw [tickRepeat_restAgain hat]
    have hnext : { r with timer := r.timer.restCount, tickAt := .setAgain }.phase = .counting 1 :=
      phase_ending h.listed hover (.inr (.inr rfl))
    exact ⟨follows_none rfl (phase_ending h.listed hover (.inr (.inl hat))) hnext,
      ⟨h.param, h.repeats, h.listed, h.state, h.deals, hticks, rfl⟩⟩
  | setAgain =>
    rw [hat] at hticks
    have hover : r.timer.nFinish ≠ 2 := by rw [hticks.1]; decide
    rw [tickRepeat_setAgain hat]
    have hexpired : ({ r with timer := r.timer.setFinish, tickAt := .between }.note (.tick true)).phase = .expired :=
      phase_expired h.listed rfl (by simp [h.idle hover])
    exact ⟨follows_one rfl (phase_ending h.listed hover (.inr (.inr hat))) hexpired rfl,
      ⟨h.param, h.repeats, h.listed, .inr (.inr rfl), fun _ => rfl, fun h => absurd rfl h, fun _ => hticks.2⟩⟩

theorem ticksIn_multiple {ms : UInt16} (h : TIMERPRECISION ∣ ms.toNat) (hne : ms.toNat ≠ 0) :
    ticksIn ms = ms.toNat / TIMERPRECISION := by
  obtain ⟨k, hk⟩ := h
  rw [ticksIn, TIMERPRECISION] at *
  omega

theorem again_repeating (hI : p.nInterval ≠ 0) : again p = some (ticksIn p.nInterval) := if_neg hI

/-- Where the ticks can be when the time is over. -/
theorem Repeating.place (h : Repeating p r) (hover : r.timer.nFinish = 2) :
    r.tickAt = .between ∧ r.timer.nCount = 0 ∨ r.tickAt = .restFirst := by
  have hticks := h.ticks
  cases hat : r.tickAt with
  | between => rw [hat] at hticks; exact .inl ⟨rfl, hticks.2 hover⟩
  | restFirst => exact .inr rfl
  | setFirst => rw [hat, hover] at hticks; exact absurd (show (2 : UInt16) = 0 from hticks) (by decide)
  | restAgain => rw [hat, hover] at hticks; exact absurd (show (2 : UInt16) = 1 from hticks) (by decide)
  | setAgain => rw [hat, hover] at hticks; exact absurd hticks.1 (by decide)

theorem Repeating.reset (h : Repeating p r) (hp : p.Fits) (hI : p.nInterval ≠ 0) (hd : r.dealAt = .resetState) :
    Follows p r r.dealRepeat ∧ Repeating p r.dealRepeat := by
  have hover : r.timer.nFinish = 2 := h.deals (by rw [hd]; nofun)
  have hinterval : r.timer.getInterval = p.nInterval.toNat := congrArg (fun q : TimeSet => q.nInterval.toNat) h.param
  have hne : p.nInterval.toNat ≠ 0 := fun heq => hI (UInt16.toNat_inj.1 heq)
  have hnext : r.dealRepeat = { r with timer := r.timer.resetState, dealAt := .between }.note .rearm := by
    rw [dealRepeat, hd]
  have hone : (1 : UInt16) ≠ 2 := by decide
  have hfollows (hphase : r.dealRepeat.phase = .counting (r.timer.getInterval / TIMERPRECISION)) :
      Follows p r r.dealRepeat := by
    refine follows_one (by rw [hnext]; rfl) (phase_called h.listed hover hd) hphase ?_
    rw [hinterval, ← ticksIn_multiple hp.2.2 hne, Alarm.step, again_repeating hI]
    rfl
  rcases h.place hover with ⟨hat, hcount⟩ | hat
  · have hzero : r.timer.resetState.elapsed = 0 := by
      rw [elapsed, nCount_resetState, hcount]
      exact Nat.zero_mul _
    have hphase : r.dealRepeat.phase = .counting (r.timer.getInterval / TIMERPRECISION) := by
      rw [hnext]
      refine (phase_between (r := { r with timer := r.timer.resetState, dealAt := .between }) h.listed hone hat).trans ?_
      rw [hzero, Nat.sub_zero]
      rfl
    refine ⟨hfollows hphase, ?_⟩
    rw [hnext]
    refine ⟨h.param, h.repeats, h.listed, .inr (.inl rfl), fun h => absurd rfl h, ?_⟩
    simp only [tickAt_note, timer_note, hat, hzero]
    refine ⟨fun _ => ?_, fun h => absurd h hone⟩
    exact Nat.pos_of_ne_zero (hinterval ▸ hne : r.timer.getInterval ≠ 0)
  · have hphase : r.dealRepeat.phase = .counting (r.timer.getInterval / TIMERPRECISION) := by
      rw [hnext]
      exact phase_rest (r := { r with timer := r.timer.resetState, dealAt := .between }) h.listed hone hat
    refine ⟨hfollows hphase, ?_⟩
    rw [hnext]
    refine ⟨h.param, h.repeats, h.listed, .inr (.inl rfl), fun h => absurd rfl h, ?_⟩
    simp only [tickAt_note, timer_note, hat]
    exact show (1 : UInt16) ≠ 0 by decide

/-- A look at a timer whose time is not over. -/
theorem phase_skip (hr : r.removed = false) (h : r.timer.nFinish ≠ 2) (again : Option Nat) :
    Alarm.step again r.phase .skip = some r.phase := by
  rw [phase, hr, if_neg Bool.false_ne_true, if_neg h]
  cases r.tickAt with
  | between => exact step_skip
  | setFirst | restAgain | setAgain => rfl
  | restFirst => exact step_skip

theorem isTimeout_two (h : r.timer.nFinish = 2) : r.timer.isTimeout = true := by
  rw [isTimeout, h]
  decide

theorem isTimeout_less (h : r.timer.nFinish = 0 ∨ r.timer.nFinish = 1) : r.timer.isTimeout = false := by
  rw [isTimeout]
  rcases h with h | h <;> rw [h] <;> decide

theorem Repeating.deal (h : Repeating p r) (hp : p.Fits) (hI : p.nInterval ≠ 0) :
    Follows p r r.dealRepeat ∧ Repeating p r.dealRepeat := by
  cases hd : r.dealAt with
  | between =>
    rw [dealRepeat, hd]
    by_cases hover : r.timer.nFinish = 2
    · rw [if_pos (isTimeout_two hover)]
      have hexpired : { r with dealAt := .timerProc }.phase = .expired := phase_expired h.listed hover nofun
      exact ⟨follows_none rfl (phase_expired h.listed hover (by rw [hd]; nofun)) hexpired,
        ⟨h.param, h.repeats, h.listed, h.state, fun _ => hover, h.ticks⟩⟩
    · rw [isTimeout_less (by have := h.state; tauto), if_neg Bool.false_ne_true]
      exact ⟨follows_one rfl rfl rfl (phase_skip h.listed hover _),
        ⟨h.param, h.repeats, h.listed, h.state, h.deals, h.ticks⟩⟩
  | timerProc =>
    have hover : r.timer.nFinish = 2 := h.deals (by rw [hd]; nofun)
    have hcalled : ({ r with dealAt := .resetState }.note .call).phase = .called := phase_called h.listed hover rfl
    rw [dealRepeat, hd]
    exact ⟨follows_one rfl (phase_expired h.listed hover (by rw [hd]; nofun)) hcalled rfl,
      ⟨h.param, h.repeats, h.listed, h.state, fun _ => hover, h.ticks⟩⟩
  | resetState => exact h.reset hp hI hd

/-! ## One-shot timers -/

theorem Once.phase_over (h : Once p r) (hr : r.removed = false) (hover : r.timer.nFinish = 2) : r.phase = .expired :=
  phase_expired hr hover (by rw [h.dealAt]; nofun)

theorem Once.period_eq (hstate : r.timer.nFinish = 0) : r.timer.period = r.timer.getStart := if_pos hstate

theorem Once.tick (h : Once p r) (hp : p.Fits) (hr : r.removed = false) :
    Follows p r r.tickOnce ∧ Once p r.tickOnce := by
  have hfits : r.timer.m_param.Fits := h.param ▸ hp
  rcases h.state with hzero | hover
  · have hne : r.timer.nFinish ≠ 2 := by rw [hzero]; decide
    have hlt : r.timer.elapsed < r.timer.period := by rw [Once.period_eq hzero]; exact h.ticks hzero
    have hphase := phase_between hr hne h.tickAt
    rw [tickOnce, isTimeout_less (.inl hzero)]
    simp only [Bool.false_eq_true, if_false]
    split_ifs with heq
    · have hone := hphase.trans (congrArg _ (left_last hfits hlt (Once.period_eq hzero ▸ heq)))
      have hexpired : ({ r with timer := r.timer.increment.setFinish }.note (.tick true)).phase = .expired :=
        phase_expired hr rfl (by simp [h.dealAt])
      exact ⟨follows_one rfl hone hexpired rfl,
        ⟨h.param, h.repeats, h.tickAt, h.dealAt, .inr rfl, fun h => absurd h (show (2 : UInt16) ≠ 0 by decide)⟩⟩
    · obtain ⟨hlt', k, hk, hk'⟩ := left_step hfits hlt (Once.period_eq hzero ▸ heq)
      have hnext : ({ r with timer := r.timer.increment }.note (.tick false)).phase = .counting (k + 1) :=
        hk' ▸ phase_between (r := { r with timer := r.timer.increment }) hr hne h.tickAt
      refine ⟨follows_one rfl (hphase.trans (congrArg _ hk)) hnext rfl,
        ⟨h.param, h.repeats, h.tickAt, h.dealAt, .inl hzero, fun _ => ?_⟩⟩
      exact Once.period_eq (r := { r with timer := r.timer.increment }) hzero ▸ hlt'
  · -- the time is over, and the timer goes on counting
    rw [tickOnce, isTimeout_two hover]
    simp only [if_true]
    have hphase := h.phase_over hr hover
    split_ifs
    · exact ⟨follows_one rfl hphase (phase_expired hr rfl (by simp [h.dealAt])) rfl,
        ⟨h.param, h.repeats, h.tickAt, h.dealAt, .inr rfl, fun h => absurd h (show (2 : UInt16) ≠ 0 by decide)⟩⟩
    · exact ⟨follows_one rfl hphase (phase_expired hr hover (by simp [h.dealAt])) rfl,
        ⟨h.param, h.repeats, h.tickAt, h.dealAt, .inr hover,
          fun hzero => absurd (hover.symm.trans hzero) (by decide)⟩⟩

theorem Once.deal (h : Once p r) (hr : r.removed = false) : Follows p r r.dealOnce ∧ Once p r.dealOnce := by
  rw [dealOnce]
  rcases h.state with hzero | hover
  · rw [isTimeout_less (.inl hzero), if_neg Bool.false_ne_true]
    exact ⟨follows_one rfl rfl rfl (phase_skip hr (by rw [hzero]; decide) _),
      ⟨h.param, h.repeats, h.tickAt, h.dealAt, h.state, h.ticks⟩⟩
  · rw [isTimeout_two hover, if_pos rfl]
    exact ⟨follows_one rfl (h.phase_over hr hover) rfl rfl,
      ⟨h.param, h.repeats, h.tickAt, h.dealAt, h.state, h.ticks⟩⟩

/-! ## Over all runs -/

theorem follows_self : Follows p r r := follows_none rfl rfl rfl

theorem Once.step (h : Once p r) (hp : p.Fits) : Follows p r (r.step a) ∧ Once p (r.step a) := by
  by_cases hr : r.removed = true
  · have hstay : r.step a = r := by cases a <;> rw [TimerRun.step, if_pos hr]
    rw [hstay]
    exact ⟨follows_self, h⟩
  · have hlisted : r.removed = false := Bool.eq_false_iff.2 hr
    cases a with
    | tick =>
      rw [TimerRun.step, if_neg hr, if_neg (by simp [h.repeats])]
      exact h.tick hp hlisted
    | deal =>
      rw [TimerRun.step, if_neg hr, if_neg (by simp [h.repeats])]
      exact h.deal hlisted

theorem getInterval_ne (h : r.timer.m_param = p) (hI : p.nInterval ≠ 0) : r.timer.getInterval ≠ 0 := by
  rw [getInterval, h]
  exact fun heq => hI (UInt16.toNat_inj.1 heq)

theorem Repeating.step (h : Repeating p r) (hp : p.Fits) (hI : p.nInterval ≠ 0) :
    Follows p r (r.step a) ∧ Repeating p (r.step a) := by
  have hr : ¬r.removed = true := by simp [h.listed]
  cases a with
  | tick =>
    rw [TimerRun.step, if_neg hr, if_pos h.repeats]
    exact h.tick hp (getInterval_ne h.param hI)
  | deal =>
    rw [TimerRun.step, if_neg hr, if_pos h.repeats]
    exact h.deal hp hI

/-- A timer and the alarm it moves in step with. -/
def InStep (p : TimeSet) (r : TimerRun) (q : Phase) : Prop :=
  q = r.phase ∧ ((p.nInterval ≠ 0 ∧ Repeating p r) ∨ Once p r)

theorem InStep.step (hp : p.Fits) (r : TimerRun) (a : Action) (q : Phase) (h : InStep p r q) :
    ∃ l q', (r.step a).history = r.history ++ l ∧ Goes (again p) q l q' ∧ InStep p (r.step a) q' := by
  obtain ⟨rfl, ⟨hI, hrep⟩ | honce⟩ := h
  · obtain ⟨⟨l, hh, hgo⟩, hnext⟩ := hrep.step hp hI (a := a)
    exact ⟨l, _, hh, hgo, rfl, .inl ⟨hI, hnext⟩⟩
  · obtain ⟨⟨l, hh, hgo⟩, hnext⟩ := honce.step hp (a := a)
    exact ⟨l, _, hh, hgo, rfl, .inr hnext⟩

theorem start_pos (hp : p.Fits) : 0 < p.nStart.toNat := Nat.pos_of_ne_zero fun heq => hp.1 (UInt16.toNat_inj.1 heq)

theorem repeating_addTimer (hp : p.Repeats) : Repeating p (addTimer p) :=
  ⟨rfl, by simp [addTimer, hp.2], rfl, .inl rfl, fun h => absurd rfl h, fun _ => start_pos hp.1, nofun⟩

theorem inStep_addTimer (hp : p.Fits) : InStep p (addTimer p) (.counting (ticksIn p.nStart)) := by
  refine ⟨?_, ?_⟩
  · rw [ticksIn_multiple hp.2.1 (start_pos hp).ne']
    rfl
  · by_cases hI : p.nInterval = 0
    · exact .inr ⟨rfl, by simp [addTimer, hI], rfl, rfl, .inl rfl, fun _ => start_pos hp⟩
    · exact .inl ⟨hI, repeating_addTimer ⟨hp, hI⟩⟩

/-- With times that it meets, the timer is in step with its alarm in every run. -/
theorem onTime_of_fits (hp : p.Fits) (acts : List Action) : OnTime p ((addTimer p).run acts).history := by
  obtain ⟨l, q, hh, hgo, -⟩ := goes_run (InStep p) (InStep.step hp) (inStep_addTimer hp) acts
  rw [run, hh]
  exact hgo.accepts

/-! ## Times that are not met -/

/-- After so many ticks at which nothing happens. -/
def waited (r : TimerRun) (n : Nat) : TimerRun :=
  { r with
    timer := { r.timer with nCount := r.timer.nCount + .ofNat n }
    history := r.history ++ .replicate n (.tick false) }

/-- The next tick is counted. -/
structure Counts (r : TimerRun) : Prop where
  listed : r.removed = false
  tickAt : r.tickAt = .between
  state : r.timer.nFinish = 0 ∨ r.timer.nFinish = 1 ∧ r.repeats = true

theorem Counts.waited (h : Counts r) : Counts (r.waited n) := ⟨h.listed, h.tickAt, h.state⟩

theorem waited_zero : r.waited 0 = r := by
  have hcount : r.timer.nCount + UInt16.ofNat 0 = r.timer.nCount := UInt16.add_zero _
  rw [TimerRun.waited, hcount, List.replicate_zero, List.append_nil]

theorem waited_succ : (r.waited n).waited 1 = r.waited (n + 1) := by
  have hcount : r.timer.nCount + UInt16.ofNat n + UInt16.ofNat 1 = r.timer.nCount + UInt16.ofNat (n + 1) := by
    rw [UInt16.add_assoc, UInt16.ofNat_add]
  simp only [TimerRun.waited, hcount, List.append_assoc, List.replicate_append_replicate]

theorem elapsed_waited (h : r.timer.nCount.toNat + n < 65536) :
    (r.waited n).timer.elapsed = (r.timer.nCount.toNat + n) * TIMERPRECISION := by
  have hn : (UInt16.ofNat n).toNat = n := UInt16.toNat_ofNat_of_lt' (by rw [UInt16.size]; omega)
  rw [elapsed, TimerRun.waited, UInt16.toNat_add, hn, Nat.mod_eq_of_lt (by omega)]

theorem Counts.tick (h : Counts r) (hne : r.timer.period ≠ r.timer.increment.elapsed) : r.step .tick = r.waited 1 := by
  rw [step, if_neg (by simp [h.listed])]
  by_cases hrep : r.repeats = true
  · rw [if_pos hrep, tickRepeat_test h.tickAt (by have := h.state; tauto), if_neg hne]
    rfl
  · have hzero : r.timer.nFinish = 0 := h.state.resolve_right fun hand => hrep hand.2
    have hstart : ¬r.timer.increment.getStart = r.timer.increment.elapsed := by
      rw [period, if_pos hzero] at hne
      exact hne
    rw [if_neg hrep, tickOnce, isTimeout_less (.inl hzero)]
    simp only [if_neg hstart]
    rfl

/-- Ticks none of which meets the time. -/
theorem Counts.ticks (h : Counts r) (hwrap : r.timer.nCount.toNat + n < 65536)
    (hne : ∀ j, 1 ≤ j → j ≤ n → r.timer.period ≠ (r.timer.nCount.toNat + j) * TIMERPRECISION) :
    r.run (List.replicate n .tick) = r.waited n := by
  induction n with
  | zero => exact waited_zero.symm
  | succ n ih =>
    have hsofar := ih (by omega) fun j hj hle => hne j hj (by omega)
    have hcount := elapsed_waited (r := r) (n := n + 1) hwrap
    rw [← waited_succ] at hcount
    rw [List.replicate_succ', run, List.foldl_append, List.foldl_cons, List.foldl_nil]
    rw [run] at hsofar
    rw [hsofar, h.waited.tick fun heq => hne (n + 1) (by omega) (by omega) (heq.trans hcount), waited_succ]

theorem ticksIn_pos {ms : UInt16} : 1 ≤ ticksIn ms := le_max_left _ _

theorem ticksIn_le {ms : UInt16} : ticksIn ms ≤ 13107 := by
  have := ms.toNat_lt
  rw [ticksIn, TIMERPRECISION]
  omega

theorem counts_addTimer : Counts (addTimer p) := ⟨rfl, rfl, .inl rfl⟩

theorem nCount_addTimer : (addTimer p).timer.nCount.toNat = 0 := rfl

theorem period_addTimer : (addTimer p).timer.period = p.nStart.toNat := rfl

theorem run_append {acts acts' : List Action} : r.run (acts ++ acts') = (r.run acts).run acts' := List.foldl_append

/-- A start that no tick meets. -/
theorem late_start (h : ∀ j, 1 ≤ j → p.nStart.toNat ≠ j * TIMERPRECISION) :
    ¬OnTime p ((addTimer p).run (.replicate (ticksIn p.nStart) .tick)).history := by
  have hle : ticksIn p.nStart ≤ 13107 := ticksIn_le
  have hrun : (addTimer p).run (.replicate (ticksIn p.nStart) .tick) = (addTimer p).waited (ticksIn p.nStart) := by
    refine counts_addTimer.ticks (by rw [nCount_addTimer]; omega) fun j hj _ => ?_
    rw [nCount_addTimer, Nat.zero_add]
    exact h j hj
  rw [hrun, OnTime]
  exact fun hacc => Nat.lt_irrefl _ ((accepts_ticks ticksIn_pos).1 hacc)

/-- The timer was over at its start, was dealt with, and counts again. -/
def rearmed (p : TimeSet) (k : Nat) : TimerRun :=
  ⟨⟨p, 0, 1⟩, true, false, .between, .between, .replicate k (.tick false) ++ [.tick true, .call, .rearm]⟩

theorem run_round (hI : p.nInterval ≠ 0) {k : Nat} (hS : p.nStart.toNat = (k + 1) * TIMERPRECISION) :
    (addTimer p).run (.replicate k .tick ++ [.tick, .tick, .tick, .deal, .deal, .deal]) = rearmed p k := by
  have hlt := p.nStart.toNat_lt
  have hk : (addTimer p).timer.nCount.toNat + (k + 1) < 65536 := by
    rw [nCount_addTimer]
    rw [TIMERPRECISION] at hS
    omega
  have hsilent : (addTimer p).run (.replicate k .tick) = (addTimer p).waited k := by
    refine counts_addTimer.ticks (by omega) fun j hj hle => ?_
    rw [nCount_addTimer, period_addTimer, hS, TIMERPRECISION]
    omega
  have hrep : ((addTimer p).waited k).repeats = true := by simp [TimerRun.waited, addTimer, hI]
  have hend : ((addTimer p).waited k).timer.period = ((addTimer p).waited k).timer.increment.elapsed := by
    have hcount := elapsed_waited hk
    rw [← waited_succ, nCount_addTimer, Nat.zero_add, ← hS] at hcount
    exact hcount.symm
  have hfirst : ((addTimer p).waited k).step .tick =
      { (addTimer p).waited k with timer := ((addTimer p).waited k).timer.increment, tickAt := .setFirst } := by
    rw [step, if_neg (by simp [TimerRun.waited, addTimer]), if_pos hrep, tickRepeat_test rfl (.inl rfl), if_pos hend]
    rfl
  rw [run_append, hsilent, run, List.foldl_cons, hfirst]
  simp [step, tickRepeat, dealRepeat, TimerRun.waited, addTimer, note, rearmed, setFinish, restCount, resetState, isTimeout,
    hI, increment]

theorem goes_round {k : Nat} (hI : p.nInterval ≠ 0) :
    Goes (again p) (.counting (k + 1)) (rearmed p k).history (.counting (ticksIn p.nInterval)) := by
  have hrearm : Goes (again p) (.counting 1) [.tick true, .call, .rearm] (.counting (ticksIn p.nInterval)) := by
    rw [again_repeating hI]
    rfl
  rw [Alarm.Goes, rearmed, List.foldlM_append, goes_ticks]
  exact hrearm

/-- An interval that no tick meets. -/
theorem late_interval (hI : p.nInterval ≠ 0) {k : Nat} (hS : p.nStart.toNat = (k + 1) * TIMERPRECISION)
    (h : ¬TIMERPRECISION ∣ p.nInterval.toNat) :
    ¬OnTime p ((addTimer p).run ((.replicate k .tick ++ [.tick, .tick, .tick, .deal, .deal, .deal]) ++
      .replicate (ticksIn p.nInterval) .tick)).history := by
  have hle : ticksIn p.nInterval ≤ 13107 := ticksIn_le
  have hcounts : Counts (rearmed p k) := ⟨rfl, rfl, .inr ⟨rfl, rfl⟩⟩
  have hcount : (rearmed p k).timer.nCount.toNat = 0 := rfl
  have hperiod : (rearmed p k).timer.period = p.nInterval.toNat := rfl
  have hrun : (rearmed p k).run (.replicate (ticksIn p.nInterval) .tick) = (rearmed p k).waited (ticksIn p.nInterval) := by
    refine hcounts.ticks (by rw [hcount]; omega) fun j _ _ heq => h ?_
    rw [hperiod] at heq
    exact ⟨_, heq.trans (Nat.mul_comm _ _)⟩
  have hstart : ticksIn p.nStart = k + 1 := by
    rw [ticksIn_multiple ⟨_, hS.trans (Nat.mul_comm _ _)⟩ (by rw [hS, TIMERPRECISION]; omega), hS]
    exact Nat.mul_div_cancel _ (by decide)
  rw [run_append, run_round hI hS, hrun, OnTime, hstart]
  exact fun hacc => Nat.lt_irrefl _ ((accepts_ticks ticksIn_pos).1 ((Accepts.of_append (goes_round hI)).1 hacc))

/-- A timer is on time in all its runs when its times are multiples of the tick and its start is not 0, and only then. -/
theorem onTime_iff (p : TimeSet) : (∀ acts, OnTime p ((addTimer p).run acts).history) ↔ p.Fits := by
  refine ⟨fun h => ?_, fun hp acts => onTime_of_fits hp acts⟩
  by_cases hstart : ∀ j, 1 ≤ j → p.nStart.toNat ≠ j * TIMERPRECISION
  · exact absurd (h _) (late_start hstart)
  · push Not at hstart
    obtain ⟨j, hj, hS⟩ := hstart
    obtain ⟨k, rfl⟩ : ∃ k, j = k + 1 := ⟨j - 1, by omega⟩
    have hne : p.nStart ≠ 0 := fun hzero => by
      rw [hzero, TIMERPRECISION, UInt16.toNat_zero] at hS
      omega
    refine ⟨hne, ⟨_, hS.trans (Nat.mul_comm _ _)⟩, ?_⟩
    by_contra hdvd
    have hI : p.nInterval ≠ 0 := fun hzero => hdvd (by rw [hzero]; exact dvd_zero _)
    exact late_interval hI hS hdvd (h _)

/-- The timer of `BalanceHandle`, with a start of 2 ms, is not over at the first tick. -/
theorem not_onTime_two : ¬∀ acts, OnTime ⟨2, 30⟩ ((addTimer ⟨2, 30⟩).run acts).history :=
  fun h => absurd (h [.tick]) (by decide)

/-! ## A change of the times -/

theorem Repeating.run (h : Repeating p r) (hp : p.Repeats) (acts : List Action) : Repeating p (r.run acts) := by
  induction acts generalizing r with
  | nil => exact h
  | cons a acts ih => exact ih (h.step hp.1 hp.2).2

/-- What is left when the change comes: the time, or the new time from the next run of `DealRepeatHandle` on. -/
def Reaches (r : TimerRun) : Prop := r.timer.nFinish = 2 ∨ r.timer.elapsed < r.timer.period

instance (r : TimerRun) : Decidable r.Reaches := inferInstanceAs (Decidable (_ ∨ _))

theorem Repeating.modify {q : TimeSet} (h : Repeating p r) (hun : r.Unlocked) (hreach : (r.modifyRepeatTimer q).Reaches) :
    Repeating q (r.modifyRepeatTimer q) := by
  have hticks := h.ticks
  rw [hun.1] at hticks
  refine ⟨rfl, h.repeats, h.listed, h.state, fun hd => absurd hun.2 hd, ?_⟩
  rw [show (r.modifyRepeatTimer q).tickAt = .between from hun.1]
  exact ⟨fun hover => hreach.resolve_left hover, hticks.2⟩

theorem ticks_pos {ms : UInt16} (h : TIMERPRECISION ∣ ms.toNat) (hne : ms ≠ 0) : 0 < ms.toNat / TIMERPRECISION := by
  have hpos : ms.toNat ≠ 0 := fun heq => hne (UInt16.toNat_inj.1 heq)
  obtain ⟨k, hk⟩ := h
  rw [TIMERPRECISION] at *
  omega

/-- The alarm has no more ticks left than either time has. -/
theorem Repeating.left_le (h : Repeating p r) (hp : p.Repeats) (hun : r.Unlocked) :
    0 < r.phase.left (again p) ∧ r.phase.left (again p) ≤ max p.nStart.toNat p.nInterval.toNat / TIMERPRECISION := by
  have hticks := h.ticks
  rw [hun.1] at hticks
  have hstart : r.timer.getStart = p.nStart.toNat := congrArg (fun q : TimeSet => q.nStart.toNat) h.param
  have hinterval : r.timer.getInterval = p.nInterval.toNat := congrArg (fun q : TimeSet => q.nInterval.toNat) h.param
  by_cases hover : r.timer.nFinish = 2
  · have hne : p.nInterval.toNat ≠ 0 := fun heq => hp.2 (UInt16.toNat_inj.1 heq)
    rw [phase_expired h.listed hover (by rw [hun.2]; nofun), again_repeating hp.2, Phase.left, Option.getD_some,
      ticksIn_multiple hp.1.2.2 hne]
    exact ⟨ticks_pos hp.1.2.2 hp.2, Nat.div_le_div_right (le_max_right _ _)⟩
  · have hlt := hticks.1 hover
    obtain ⟨k, hk⟩ := period_multiple (t := r.timer) (h.param ▸ hp.1)
    have hle : r.timer.period ≤ max p.nStart.toNat p.nInterval.toNat := by
      rw [period]
      split_ifs
      · exact hstart ▸ le_max_left _ _
      · exact hinterval ▸ le_max_right _ _
    rw [phase_between h.listed hover hun.1, Phase.left]
    refine ⟨?_, Nat.div_le_div_right (by omega)⟩
    rw [elapsed, TIMERPRECISION] at *
    omega

theorem drop_history {l : List Event} : (r.history ++ l).drop r.history.length = l := List.drop_left

/-- A change in time takes effect. -/
theorem Repeating.takesEffect (h : Repeating p r) (hp : p.Repeats) (hun : r.Unlocked) (acts : List Action) :
    TakesEffect p ((r.run acts).history.drop r.history.length) := by
  obtain ⟨l, q, hh, hgo, -⟩ := goes_run (InStep p) (InStep.step hp.1) ⟨rfl, .inl ⟨hp.2, h⟩⟩ acts
  obtain ⟨hpos, hle⟩ := h.left_le hp hun
  rw [TimerRun.run, hh, drop_history]
  exact fun hcount => hgo.due hpos (hle.trans hcount)

/-- With the time already behind, the ticks pass by it. -/
theorem Repeating.passed {q : TimeSet} (h : Repeating p r) (hun : r.Unlocked)
    (hreach : ¬(r.modifyRepeatTimer q).Reaches) :
    ¬∀ acts, TakesEffect q (((r.modifyRepeatTimer q).run acts).history.drop r.history.length) := by
  intro hall
  have hticks := h.ticks
  rw [hun.1] at hticks
  obtain ⟨hover, hbehind⟩ := not_or.1 hreach
  have hlt := hticks.1 hover
  have hperiod := period_lt (t := r.timer)
  have hstart := q.nStart.toNat_lt
  have hinterval := q.nInterval.toNat_lt
  have helapsed : r.timer.elapsed = r.timer.nCount.toNat * 5 := rfl
  have hcounts : Counts (r.modifyRepeatTimer q) :=
    ⟨h.listed, hun.1, h.state.imp_right fun hstate => ⟨hstate.resolve_right hover, h.repeats⟩⟩
  have hrun : (r.modifyRepeatTimer q).run (.replicate (max q.nStart.toNat q.nInterval.toNat / TIMERPRECISION) .tick) =
      (r.modifyRepeatTimer q).waited (max q.nStart.toNat q.nInterval.toNat / TIMERPRECISION) := by
    refine hcounts.ticks ?_ fun j hj _ heq => hbehind ?_
    · rw [show (r.modifyRepeatTimer q).timer.nCount = r.timer.nCount from rfl, TIMERPRECISION]
      omega
    · rw [heq, elapsed]
      exact Nat.mul_lt_mul_of_pos_right (by omega) (by decide)
  have heffect := hall (.replicate (max q.nStart.toNat q.nInterval.toNat / TIMERPRECISION) .tick)
  rw [hrun, TimerRun.waited, show (r.modifyRepeatTimer q).history = r.history from rfl, drop_history, TakesEffect,
    List.countP_replicate] at heffect
  simp [Event.isTick] at heffect

/-- Of a change of a timer that repeats: it takes effect when it finds the timer expired or short of its new time, and
only then. -/
theorem modifyRepeatTimer_iff {q : TimeSet} (hp : p.Repeats) (hq : q.Repeats) (acts : List Action)
    (hun : ((addTimer p).run acts).Unlocked) :
    (∀ acts', TakesEffect q (((((addTimer p).run acts).modifyRepeatTimer q).run acts').history.drop
      ((addTimer p).run acts).history.length)) ↔ (((addTimer p).run acts).modifyRepeatTimer q).Reaches := by
  have hrep := (repeating_addTimer hp).run hp acts
  refine ⟨fun h => ?_, fun hreach acts' => (hrep.modify hun hreach).takesEffect hq hun acts'⟩
  by_contra hreach
  exact hrep.passed hun hreach h

/-- The change comes one tick after the start, and three more ticks after it. -/
theorem modifyRepeatTimer_ten_fifteen :
    TakesEffect ⟨10, 15⟩ (((((addTimer ⟨10, 10⟩).run [.tick]).modifyRepeatTimer ⟨10, 15⟩).run
      [.tick, .tick, .tick]).history.drop ((addTimer ⟨10, 10⟩).run [.tick]).history.length) :=
  (modifyRepeatTimer_iff (by decide) (by decide) [.tick] (by decide)).2 (by decide) [.tick, .tick, .tick]

/-- It comes when a tick is counted, and the new start is one tick. -/
theorem not_takesEffect_five :
    ¬∀ acts', TakesEffect ⟨5, 5⟩ (((((addTimer ⟨10, 10⟩).run [.tick]).modifyRepeatTimer ⟨5, 5⟩).run acts').history.drop
      ((addTimer ⟨10, 10⟩).run [.tick]).history.length) :=
  fun h => absurd (h [.tick]) (by decide)

end TimerRun
