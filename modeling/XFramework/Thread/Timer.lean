/-
Timers (Thread/Timer.h, Thread/TimerMgrImpl_Linux.cpp and, for the same loops,
Thread/MsTimerMgrImpl_Linux.cpp).

The thread of `TimerHandle` counts the ticks of every timer and compares them
with its time; `DealOnceHandle` and `DealRepeatHandle` call `TimerProc` for
those that are over. One-shot timers are under `m_OnceLock` in both. With the
repeating ones both hold `m_Repeatlock` for reading, so what they do to a
timer interleaves, one access to its state after the other; `ModifyRepeatTimer`
holds it for writing.
-/
import XFramework.Lib.Alarm

open Alarm

/-- Milliseconds for each tick. -/
def TIMERPRECISION : Nat := 5

structure TimeSet where
  nStart : UInt16
  nInterval : UInt16
  deriving DecidableEq

/-- `nFinish` is 2 when the time is over; a timer that repeats comes back to 1. -/
structure AbstractTimer where
  m_param : TimeSet
  nCount : UInt16
  nFinish : UInt16
  deriving DecidableEq

namespace AbstractTimer

def setTimer (t : AbstractTimer) (p : TimeSet) : AbstractTimer := { t with m_param := p }
def getStart (t : AbstractTimer) : Nat := t.m_param.nStart.toNat
def getInterval (t : AbstractTimer) : Nat := t.m_param.nInterval.toNat
def resetState (t : AbstractTimer) : AbstractTimer := { t with nFinish := 1 }
def isTimeout (t : AbstractTimer) : Bool := t.nFinish > 1
def restCount (t : AbstractTimer) : AbstractTimer := { t with nCount := 0 }
def setFinish (t : AbstractTimer) : AbstractTimer := { t with nFinish := 2 }

/-- `Increment` changes the timer, and returns `elapsed` of it. -/
def increment (t : AbstractTimer) : AbstractTimer := { t with nCount := t.nCount + 1 }

def elapsed (t : AbstractTimer) : Nat := t.nCount.toNat * TIMERPRECISION

end AbstractTimer

/-- Where `TimerHandle` is with a repeating timer: between two ticks, or, its time being over, before `SetFinish` and
`RestCount`, which come the other way round when the timer is not at its start. -/
inductive TickPlace
  | between
  | setFirst
  | restFirst
  | restAgain
  | setAgain
  deriving DecidableEq

/-- Where `DealRepeatHandle` is with the timer: between two runs, before `TimerProc`, or before `ResetState`. -/
inductive DealPlace
  | between
  | timerProc
  | resetState
  deriving DecidableEq

/-- A timer and the two threads; `repeats` is the collection `AddTimer` put it in, and `history` what has happened. -/
structure TimerRun where
  timer : AbstractTimer
  repeats : Bool
  removed : Bool
  tickAt : TickPlace
  dealAt : DealPlace
  history : List Event
  deriving DecidableEq

namespace TimerRun

/-- A step of the thread of `TimerHandle`, or of that of `DealOnceHandle` or `DealRepeatHandle`. -/
inductive Action
  | tick
  | deal
  deriving DecidableEq

/-- `AddTimer`. -/
def addTimer (p : TimeSet) : TimerRun where
  timer := ⟨p, 0, 0⟩
  repeats := p.nInterval ≠ 0
  removed := false
  tickAt := .between
  dealAt := .between
  history := []

def note (r : TimerRun) (e : Event) : TimerRun := { r with history := r.history ++ [e] }

/-- The body of the first loop of `TimerHandle`. -/
def tickOnce (r : TimerRun) : TimerRun :=
  let e (expires : Bool) : Event := if r.timer.isTimeout then .pass else .tick expires
  let t := r.timer.increment
  if t.getStart = t.elapsed then { r with timer := t.setFinish }.note (e true)
  else { r with timer := t }.note (e false)

/-- What `DealOnceHandle` does with a timer, in both of its loops. -/
def dealOnce (r : TimerRun) : TimerRun :=
  if r.timer.isTimeout then { r with removed := true }.note .call else r.note .skip

/-- The body of the second loop of `TimerHandle`. -/
def tickRepeat (r : TimerRun) : TimerRun :=
  match r.tickAt with
  | .between =>
    let t := r.timer.increment
    if r.timer.nFinish = 0 then
      if t.getStart = t.elapsed then { r with timer := t, tickAt := .setFirst }
      else { r with timer := t }.note (.tick false)
    else if r.timer.nFinish = 1 then
      if t.getInterval = t.elapsed then { r with timer := t, tickAt := .restAgain }
      else { r with timer := t }.note (.tick false)
    else r.note .pass
  | .setFirst => { r with timer := r.timer.setFinish, tickAt := .restFirst }.note (.tick true)
  | .restFirst => { r with timer := r.timer.restCount, tickAt := .between }
  | .restAgain => { r with timer := r.timer.restCount, tickAt := .setAgain }
  | .setAgain => { r with timer := r.timer.setFinish, tickAt := .between }.note (.tick true)

/-- The body of the loop of `DealRepeatHandle`. -/
def dealRepeat (r : TimerRun) : TimerRun :=
  match r.dealAt with
  | .between => if r.timer.isTimeout then { r with dealAt := .timerProc } else r.note .skip
  | .timerProc => { r with dealAt := .resetState }.note .call
  | .resetState => { r with timer := r.timer.resetState, dealAt := .between }.note .rearm

def step (r : TimerRun) : Action → TimerRun
  | .tick => if r.removed then r else if r.repeats then r.tickRepeat else r.tickOnce
  | .deal => if r.removed then r else if r.repeats then r.dealRepeat else r.dealOnce

def run (r : TimerRun) (acts : List Action) : TimerRun := acts.foldl step r

/-- The ticks of a time: as many as it takes to reach it, and one at least. -/
def ticksIn (ms : UInt16) : Nat := max 1 ((ms.toNat + (TIMERPRECISION - 1)) / TIMERPRECISION)

/-- The ticks between two expiries of a timer that repeats. -/
def again (p : TimeSet) : Option Nat := if p.nInterval = 0 then none else some (ticksIn p.nInterval)

/-- The timer did what an alarm with its times does. -/
def OnTime (p : TimeSet) (history : List Event) : Prop := Accepts (again p) (.counting (ticksIn p.nStart)) history

instance {p : TimeSet} {history : List Event} : Decidable (OnTime p history) := inferInstanceAs (Decidable (Accepts ..))

/-- `ModifyRepeatTimer` waits for its lock until neither thread is in its loop. -/
def Unlocked (r : TimerRun) : Prop := r.tickAt = .between ∧ r.dealAt = .between

instance (r : TimerRun) : Decidable r.Unlocked := inferInstanceAs (Decidable (_ ∧ _))

def modifyRepeatTimer (r : TimerRun) (p : TimeSet) : TimerRun := { r with timer := r.timer.setTimer p }

/-- The timer expired by the time that the ticks counted could add up to either of its times. -/
def TakesEffect (p : TimeSet) (events : List Event) : Prop :=
  max p.nStart.toNat p.nInterval.toNat / TIMERPRECISION ≤ events.countP Event.isTick → .tick true ∈ events

instance {p : TimeSet} {events : List Event} : Decidable (TakesEffect p events) := inferInstanceAs (Decidable (_ → _))

end TimerRun

namespace AbstractTimer

variable {t : AbstractTimer} {p : TimeSet}

@[simp] theorem m_param_increment : t.increment.m_param = t.m_param := rfl
@[simp] theorem m_param_setFinish : t.setFinish.m_param = t.m_param := rfl
@[simp] theorem m_param_restCount : t.restCount.m_param = t.m_param := rfl
@[simp] theorem m_param_resetState : t.resetState.m_param = t.m_param := rfl
@[simp] theorem nFinish_increment : t.increment.nFinish = t.nFinish := rfl
@[simp] theorem nFinish_setFinish : t.setFinish.nFinish = 2 := rfl
@[simp] theorem nFinish_restCount : t.restCount.nFinish = t.nFinish := rfl
@[simp] theorem nFinish_resetState : t.resetState.nFinish = 1 := rfl
@[simp] theorem nCount_setFinish : t.setFinish.nCount = t.nCount := rfl
@[simp] theorem nCount_restCount : t.restCount.nCount = 0 := rfl
@[simp] theorem nCount_resetState : t.resetState.nCount = t.nCount := rfl

/-- As long as the count does not wrap, a tick adds its milliseconds. -/
theorem elapsed_increment (h : t.elapsed < 65535 * TIMERPRECISION) : t.increment.elapsed = t.elapsed + TIMERPRECISION := by
  simp only [elapsed, increment, TIMERPRECISION, UInt16.toNat_add] at h ⊢
  have : (1 : UInt16).toNat = 1 := rfl
  omega

theorem getStart_lt : t.getStart < 65536 := t.m_param.nStart.toNat_lt

theorem getInterval_lt : t.getInterval < 65536 := t.m_param.nInterval.toNat_lt

end AbstractTimer
