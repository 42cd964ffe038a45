/-
The timer manager as a whole (Thread/TimerMgrImpl_Linux.h,
Thread/TimerMgrImpl_Linux.cpp and, for the same code,
Thread/MsTimerMgrImpl_Linux.cpp), between `Init` and `Stop`.

`SIGALRM` posts `m_timeSync`; the thread of `TimerThread` waits for it, counts
the tick in every timer, and posts `m_SemOnce` or `m_SemRepeat` when the time
of one is over. Two workers wait for these and deal with the timers of their
collection. What is done under `m_OnceLock` is one step. The repeating timers
are visited by both sides under the same read lock, so there a step is one
access to one timer, as in `TimerRun`; `AddTimer`, `DelTimer` and
`ModifyRepeatTimer` take the lock for writing and wait until no side is in
its loop. A step of a thread that waits changes nothing.
-/
import Mathlib.Data.String.Basic
import XFramework.Lib.Fallible
import XFramework.Lib.StdMap
import XFramework.Thread.TimerRun
import XFramework.Thread.DealOnce

/-- Where the thread of `TimerThread` is: before its `sem_wait`, before either lock, or at an entry of `repeatSet`. -/
inductive HandlePlace
  | timeSync
  | once
  | rdlock
  | loop (k : Nat)
  deriving DecidableEq

/-- Where the worker of `OnceProcess` is. -/
inductive OncePlace
  | wait
  | deal
  deriving DecidableEq

/-- Where the worker of `RepeatProcess` is. -/
inductive RepeatPlace
  | wait
  | rdlock
  | loop (k : Nat)
  deriving DecidableEq

/-- `timers` holds the `AbstractTimer` objects, each with what has happened at it, by their order of creation.
`deleted` are those that were given to `delete`, `refused` those for which `AddTimer` returned false. -/
structure TimerMgrImpl where
  timers : Nat → TimerRun
  created : Nat
  onceLst : StdList Nat
  repeatSet : StdMap String Nat
  m_timeSync : Nat
  m_SemOnce : Nat
  m_SemRepeat : Nat
  bFlagOnce : Bool
  bFlagRepeat : Bool
  handleAt : HandlePlace
  onceAt : OncePlace
  repeatAt : RepeatPlace
  deleted : List Nat
  refused : List Nat

namespace TimerMgrImpl

inductive Action
  | addTimer (str : String) (timer : AbstractTimer)
  | delTimer (str : String)
  | modifyRepeatTimer (str : String) (p : TimeSet)
  | alarm
  | handle
  | once
  | repeats

/-- After `Init`. -/
def init : TimerMgrImpl where
  timers _ := TimerRun.addTimer ⟨0, 0⟩
  created := 0
  onceLst := .empty
  repeatSet := .empty
  m_timeSync := 0
  m_SemOnce := 0
  m_SemRepeat := 0
  bFlagOnce := false
  bFlagRepeat := false
  handleAt := .timeSync
  onceAt := .wait
  repeatAt := .wait
  deleted := []
  refused := []

variable (m : TimerMgrImpl)

/-- Neither side holds `m_Repeatlock`. -/
def Unlocked : Prop := (∀ k, m.handleAt ≠ .loop k) ∧ ∀ k, m.repeatAt ≠ .loop k

instance : Decidable m.Unlocked :=
  decidable_of_iff ((match m.handleAt with | .loop _ => false | _ => true) = true ∧
      (match m.repeatAt with | .loop _ => false | _ => true) = true) (by
    rw [Unlocked]
    cases m.handleAt <;> cases m.repeatAt <;> simp)

/-- A new timer, as `new Timer(..)` leaves it. -/
def newTimer (timer : AbstractTimer) : TimerMgrImpl :=
  { m with
    timers := Function.update m.timers m.created { TimerRun.addTimer timer.m_param with timer }
    created := m.created + 1 }

def addTimer (str : String) (timer : AbstractTimer) : TimerMgrImpl :=
  if timer.getInterval ≠ 0 then
    if m.Unlocked then
      { m.newTimer timer with
        repeatSet := m.repeatSet.insert str m.created
        refused := m.refused ++ if m.repeatSet.find? str = none then [] else [m.created] }
    else m
  else { m.newTimer timer with onceLst := m.onceLst.pushBack m.created }

def delTimer (str : String) : TimerMgrImpl :=
  if m.Unlocked then
    match m.repeatSet.find? str with
    | some t => { m with repeatSet := m.repeatSet.erase str, deleted := m.deleted ++ [t] }
    | none => m
  else m

def modifyRepeatTimer (str : String) (p : TimeSet) : TimerMgrImpl :=
  if m.Unlocked then
    match m.repeatSet.find? str with
    | some t => { m with timers := Function.update m.timers t ((m.timers t).modifyRepeatTimer p) }
    | none => m
  else m

/-- The body of the first loop of `TimerHandle`. -/
def countOnce (t : Nat) : TimerMgrImpl :=
  let timer := (m.timers t).timer.increment
  { m with
    timers := Function.update m.timers t ((m.timers t).step .tick)
    bFlagOnce := m.bFlagOnce || decide (timer.getStart = timer.elapsed) }

/-- The first part of `TimerHandle`. -/
def handleOnce : TimerMgrImpl :=
  let m := m.onceLst.toList.foldl countOnce m
  { m with m_SemOnce := if m.bFlagOnce then m.m_SemOnce + 1 else m.m_SemOnce, handleAt := .rdlock }

/-- A step of the second loop of `TimerHandle`, or its end. `bFlagRepeat` is set behind the last access to a timer
whose time is over. -/
def handleRepeat (k : Nat) : TimerMgrImpl :=
  match m.repeatSet.entries[k]? with
  | some (_, t) =>
    let r := m.timers t
    let r' := r.step .tick
    { m with
      timers := Function.update m.timers t r'
      bFlagRepeat := m.bFlagRepeat || decide (r.tickAt = .restFirst ∨ r.tickAt = .setAgain)
      handleAt := .loop (if r'.tickAt = .between then k + 1 else k) }
  | none => { m with m_SemRepeat := if m.bFlagRepeat then m.m_SemRepeat + 1 else m.m_SemRepeat, handleAt := .timeSync }

/-- A step of the thread of `TimerThread`. -/
def handleStep : TimerMgrImpl :=
  match m.handleAt with
  | .timeSync =>
    if m.m_timeSync = 0 then m
    else { m with m_timeSync := m.m_timeSync - 1, bFlagOnce := false, bFlagRepeat := false, handleAt := .once }
  | .once => m.handleOnce
  | .rdlock => { m with handleAt := .loop 0 }
  | .loop k => m.handleRepeat k

/-- `DealOnceHandle`. -/
def dealOnceHandle : Except IteratorFault TimerMgrImpl := do
  let r ← OnceTimers.dealOnceHandle (fun t => (m.timers t).timer) m.onceLst
  .ok { m with
    timers := fun t => if t ∈ m.onceLst.toList then (m.timers t).step .deal else m.timers t
    onceLst := r.onceLst
    deleted := m.deleted ++ r.deleted
    onceAt := .wait }

/-- A step of the worker of `OnceProcess`. -/
def onceStep : Except IteratorFault TimerMgrImpl :=
  match m.onceAt with
  | .wait => .ok (if m.m_SemOnce = 0 then m else { m with m_SemOnce := m.m_SemOnce - 1, onceAt := .deal })
  | .deal => m.dealOnceHandle

/-- A step of the loop of `DealRepeatHandle`, or its end. -/
def dealRepeat (k : Nat) : TimerMgrImpl :=
  match m.repeatSet.entries[k]? with
  | some (_, t) =>
    let r := (m.timers t).step .deal
    { m with
      timers := Function.update m.timers t r
      repeatAt := .loop (if r.dealAt = .between then k + 1 else k) }
  | none => { m with repeatAt := .wait }

/-- A step of the worker of `RepeatProcess`. -/
def repeatStep : TimerMgrImpl :=
  match m.repeatAt with
  | .wait => if m.m_SemRepeat = 0 then m else { m with m_SemRepeat := m.m_SemRepeat - 1, repeatAt := .rdlock }
  | .rdlock => { m with repeatAt := .loop 0 }
  | .loop k => m.dealRepeat k

def step : Action → Except IteratorFault TimerMgrImpl
  | .addTimer str timer => .ok (m.addTimer str timer)
  | .delTimer str => .ok (m.delTimer str)
  | .modifyRepeatTimer str p => .ok (m.modifyRepeatTimer str p)
  | .alarm => .ok { m with m_timeSync := m.m_timeSync + 1 }
  | .handle => .ok m.handleStep
  | .once => m.onceStep
  | .repeats => .ok m.repeatStep

end TimerMgrImpl

/-! ## What a step does to a timer -/

namespace TimerRun

variable {r : TimerRun}

theorem removed_tick : (r.step .tick).removed = r.removed := by
  simp only [step, tickOnce, tickRepeat]
  split_ifs <;> cases r.tickAt <;> simp

theorem repeats_tick : (r.step .tick).repeats = r.repeats := by
  simp only [step, tickOnce, tickRepeat]
  split_ifs <;> cases r.tickAt <;> simp

theorem dealAt_tick : (r.step .tick).dealAt = r.dealAt := by
  simp only [step, tickOnce, tickRepeat]
  split_ifs <;> cases r.tickAt <;> simp

theorem repeats_deal : (r.step .deal).repeats = r.repeats := by
  simp only [step, dealOnce, dealRepeat]
  split_ifs <;> cases r.dealAt <;> simp

theorem tickAt_deal : (r.step .deal).tickAt = r.tickAt := by
  simp only [step, dealOnce, dealRepeat]
  split_ifs <;> cases r.dealAt <;> simp

theorem removed_deal (h : r.repeats = true) : (r.step .deal).removed = r.removed := by
  simp only [step, h, if_true, dealRepeat]
  split_ifs <;> cases r.dealAt <;> simp

/-- The next tick meets the start of the timer. -/
def Meets (r : TimerRun) : Prop := r.timer.increment.getStart = r.timer.increment.elapsed

instance : Decidable r.Meets := inferInstanceAs (Decidable (_ = _))

/-- The time of a one-shot timer is over at the tick that meets it. -/
theorem isTimeout_tickOnce (h : r.repeats = false) (hr : r.removed = false) :
    (r.step .tick).timer.isTimeout = (r.timer.isTimeout || decide r.Meets) := by
  simp only [step, h, hr, Bool.false_eq_true, if_false, tickOnce]
  by_cases hit : r.Meets
  · rw [if_pos (show r.timer.increment.getStart = _ from hit), decide_eq_true hit, Bool.or_true]
    rfl
  · rw [if_neg (show ¬r.timer.increment.getStart = _ from hit), decide_eq_false hit, Bool.or_false]
    rfl

theorem deal_skip (h : r.repeats = false ∧ r.removed = false) (ht : r.timer.isTimeout = false) : r.step .deal = r.note .skip := by
  rw [step, h.1, h.2, if_neg Bool.false_ne_true, if_neg Bool.false_ne_true, dealOnce, ht, if_neg Bool.false_ne_true]

theorem deal_call (h : r.repeats = false ∧ r.removed = false) (ht : r.timer.isTimeout = true) :
    r.step .deal = { r with removed := true }.note .call := by
  rw [step, if_neg (by rw [h.2]; decide), if_neg (by rw [h.1]; decide), dealOnce, if_pos ht]

theorem step_tickRepeat (h : r.repeats = true) (hr : r.removed = false) : r.step .tick = r.tickRepeat := by
  rw [step, hr, h]
  rfl

theorem step_dealRepeat (h : r.repeats = true) (hr : r.removed = false) : r.step .deal = r.dealRepeat := by
  rw [step, hr, h]
  rfl

/-- The time of a repeating timer is over from one of two steps on. -/
theorem isTimeout_tickRepeat (hover : r.tickRepeat.timer.isTimeout = true) :
    r.timer.isTimeout = true ∨ r.tickRepeat.tickAt = .restFirst ∨ r.tickAt = .setAgain := by
  cases hat : r.tickAt with
  | between =>
    rw [tickRepeat, hat] at hover
    dsimp only at hover
    split_ifs at hover <;> exact .inl hover
  | setFirst => exact .inr (.inl (by rw [tickRepeat_setFirst hat]; rfl))
  | restFirst =>
    rw [tickRepeat_restFirst hat] at hover
    exact .inl hover
  | restAgain =>
    rw [tickRepeat_restAgain hat] at hover
    exact .inl hover
  | setAgain => exact .inr (.inr rfl)

/-- The step that leaves a timer leaves it without its time being over. -/
theorem isTimeout_dealRepeat (hover : r.dealRepeat.timer.isTimeout = true) :
    r.timer.isTimeout = true ∧ r.dealRepeat.dealAt ≠ .between := by
  cases hat : r.dealAt with
  | between =>
    rw [dealRepeat, hat] at hover ⊢
    dsimp only at hover ⊢
    split_ifs at hover ⊢ with ht
    · exact ⟨ht, by simp⟩
    · exact absurd hover ht
  | timerProc =>
    rw [dealRepeat, hat] at hover ⊢
    exact ⟨hover, by simp⟩
  | resetState =>
    rw [dealRepeat, hat] at hover
    simp [AbstractTimer.isTimeout, AbstractTimer.resetState] at hover

end TimerRun

namespace TimerMgrImpl

variable {m m' : TimerMgrImpl}

/-- A timer is created in memory that was zero: its constructor sets neither `nFinish` nor `nCount`. -/
def Action.Zeroed : Action → Prop
  | .addTimer _ timer => timer.nFinish = 0 ∧ timer.nCount = 0
  | _ => True

instance (a : Action) : Decidable a.Zeroed := by
  cases a with
  | addTimer _ timer => exact inferInstanceAs (Decidable (timer.nFinish = 0 ∧ timer.nCount = 0))
  | _ => exact .isTrue trivial

/-! ## Every timer is at one place -/

/-- A one-shot timer is in the list, a repeating one in the set, or it was deleted or refused. -/
structure Owned (m : TimerMgrImpl) : Prop where
  conserved : (m.onceLst.toList ++ m.repeatSet.entries.map Prod.snd ++ m.deleted ++ m.refused).Perm (List.range m.created)
  once : ∀ t ∈ m.onceLst.toList, (m.timers t).repeats = false ∧ (m.timers t).removed = false
  repeats : ∀ e ∈ m.repeatSet.entries, (m.timers e.2).repeats = true ∧ (m.timers e.2).removed = false

namespace Owned

theorem nodup (h : m.Owned) : (m.onceLst.toList ++ m.repeatSet.entries.map Prod.snd ++ m.deleted ++ m.refused).Nodup :=
  h.conserved.nodup_iff.2 List.nodup_range

theorem once_nodup (h : m.Owned) : m.onceLst.toList.Nodup :=
  h.nodup.of_append_left.of_append_left.of_append_left

theorem not_once (h : m.Owned) {e : String × Nat} (he : e ∈ m.repeatSet.entries) : e.2 ∉ m.onceLst.toList := fun hmem =>
  List.disjoint_of_nodup_append h.nodup.of_append_left.of_append_left hmem (List.mem_map_of_mem he)

/-- No timer is in the set under two names. -/
theorem entry_inj (h : m.Owned) {i j : Nat} {e e' : String × Nat} (hi : m.repeatSet.entries[i]? = some e)
    (hj : m.repeatSet.entries[j]? = some e') (heq : e.2 = e'.2) : i = j := by
  have hnodup := h.nodup.of_append_left.of_append_left.of_append_right
  have hlt : i < (m.repeatSet.entries.map Prod.snd).length := by
    rw [List.length_map]
    exact (List.getElem?_eq_some_iff.1 hi).1
  refine (List.getElem?_inj hlt hnodup).1 ?_
  rw [List.getElem?_map, List.getElem?_map, hi, hj, Option.map_some, Option.map_some, heq]

theorem lt_created (h : m.Owned) {t : Nat} (ht : t ∈ m.onceLst.toList ++ m.repeatSet.entries.map Prod.snd) : t < m.created :=
  List.mem_range.1 (h.conserved.mem_iff.1 (List.mem_append_left _ (List.mem_append_left _ ht)))

end Owned

/-! ## The loops over the list -/

/-- What counting a tick does to the timers of a list without duplicates. -/
theorem foldl_countOnce {l : List Nat} (hnodup : l.Nodup) :
    ∃ flag, l.foldl countOnce m = { m with
        timers := fun t => if t ∈ l then (m.timers t).step .tick else m.timers t
        bFlagOnce := flag } ∧ (flag = true ↔ m.bFlagOnce = true ∨ ∃ t ∈ l, (m.timers t).Meets) := by
  induction l generalizing m with
  | nil => exact ⟨m.bFlagOnce, by simp, by simp⟩
  | cons t l ih =>
    obtain ⟨ht, hl⟩ := List.nodup_cons.1 hnodup
    have htimers : ∀ u ∈ l, (m.countOnce t).timers u = m.timers u := fun u hu =>
      Function.update_of_ne (fun heq : u = t => ht (heq ▸ hu)) _ _
    obtain ⟨flag, hfold, hflag⟩ := ih (m := m.countOnce t) hl
    refine ⟨flag, ?_, ?_⟩
    · rw [List.foldl_cons, hfold]
      simp only [countOnce, TimerMgrImpl.mk.injEq, and_true]
      funext u
      by_cases hu : u ∈ l
      · rw [if_pos hu, if_pos (List.mem_cons_of_mem _ hu)]
        exact congrArg (TimerRun.step · .tick) (htimers u hu)
      · rw [if_neg hu]
        by_cases hut : u = t
        · subst hut
          rw [Function.update_self, if_pos List.mem_cons_self]
        · rw [Function.update_of_ne hut, if_neg (by simp [hu, hut])]
    · have hrest : (∃ u ∈ l, ((m.countOnce t).timers u).Meets) ↔ ∃ u ∈ l, (m.timers u).Meets :=
        exists_congr fun u => and_congr_right fun hu => by rw [htimers u hu]
      rw [hflag, hrest, List.exists_mem_cons_iff]
      simp only [countOnce, Bool.or_eq_true, decide_eq_true_iff, or_assoc]
      exact Iff.rfl

/-- `DealOnceHandle` calls and deletes the timers whose time is over, and keeps the others. -/
theorem dealOnceHandle_returns (m : TimerMgrImpl) : ∃ l deleted, m.dealOnceHandle = .ok { m with
      timers := fun t => if t ∈ m.onceLst.toList then (m.timers t).step .deal else m.timers t
      onceLst := l
      deleted := m.deleted ++ deleted
      onceAt := .wait } ∧
    l.toList = m.onceLst.toList.filter (fun t => !(m.timers t).timer.isTimeout) ∧
    deleted.Perm (m.onceLst.toList.filter fun t => (m.timers t).timer.isTimeout) := by
  have hcollect := @OnceTimers.collect_positions Nat (fun t => (m.timers t).timer) m.onceLst m.onceLst.toList 0 (m.onceLst.size + 1)
    [] [] List.drop_zero (StdList.length_toList ▸ Nat.lt_succ_self _)
  obtain ⟨l, herase, hlist⟩ := @OnceTimers.eraseTimers_positions Nat (fun t => (m.timers t).timer) m.onceLst.toList []
    ⟨m.onceLst, OnceTimers.expired (fun t => (m.timers t).timer) m.onceLst.toList, []⟩ rfl
  refine ⟨l, _, ?_, hlist, List.reverse_perm _⟩
  rw [StdList.pos_zero] at hcollect
  rw [dealOnceHandle, OnceTimers.dealOnceHandle, hcollect]
  exact congrArg (· >>= _) herase

/-! ## The steps keep the timers -/

namespace Owned

/-- A step that leaves the collections as they are, and takes no timer out. -/
theorem frame (h : m.Owned) (honce : m'.onceLst = m.onceLst) (hset : m'.repeatSet = m.repeatSet) (hdeleted : m'.deleted = m.deleted)
    (hrefused : m'.refused = m.refused) (hcreated : m'.created = m.created)
    (htimers : ∀ t, (m'.timers t).repeats = (m.timers t).repeats ∧ (m'.timers t).removed = (m.timers t).removed) : m'.Owned := by
  refine ⟨?_, fun t ht => ?_, fun e he => ?_⟩
  · rw [honce, hset, hdeleted, hrefused, hcreated]
    exact h.conserved
  · rw [(htimers t).1, (htimers t).2]
    exact h.once t (honce ▸ ht)
  · rw [(htimers e.2).1, (htimers e.2).2]
    exact h.repeats e (hset ▸ he)

theorem update_kinds {timers : Nat → TimerRun} {t : Nat} {r : TimerRun} (hrepeats : r.repeats = (timers t).repeats)
    (hremoved : r.removed = (timers t).removed) (u : Nat) :
    (Function.update timers t r u).repeats = (timers u).repeats ∧ (Function.update timers t r u).removed = (timers u).removed := by
  by_cases hu : u = t
  · subst hu
    rw [Function.update_self]
    exact ⟨hrepeats, hremoved⟩
  · rw [Function.update_of_ne hu]
    exact ⟨rfl, rfl⟩

theorem of_init : init.Owned := ⟨List.Perm.refl _, List.forall_mem_nil _, List.forall_mem_nil _⟩

theorem new_timers {timer : AbstractTimer} {t : Nat} (ht : t < m.created) : (m.newTimer timer).timers t = m.timers t :=
  Function.update_of_ne (Nat.ne_of_lt ht) _ _

theorem new_timer {timer : AbstractTimer} : (m.newTimer timer).timers m.created = { TimerRun.addTimer timer.m_param with timer } :=
  Function.update_self ..

theorem getInterval_eq_zero {timer : AbstractTimer} : timer.getInterval = 0 ↔ timer.m_param.nInterval = 0 :=
  ⟨fun h => UInt16.toNat_inj.1 h, fun h => congrArg UInt16.toNat h⟩

theorem addTimer (h : m.Owned) (str : String) (timer : AbstractTimer) : (m.addTimer str timer).Owned := by
  have hnew : ∀ t ∈ m.onceLst.toList ++ m.repeatSet.entries.map Prod.snd, (m.newTimer timer).timers t = m.timers t :=
    fun t ht => new_timers (h.lt_created ht)
  have hset : ∀ e ∈ m.repeatSet.entries, (m.newTimer timer).timers e.2 = m.timers e.2 := fun e he =>
    hnew e.2 (List.mem_append_right _ (List.mem_map_of_mem he))
  rw [TimerMgrImpl.addTimer]
  split_ifs with hinterval hun hfind
  · -- a new name
    have hperm := (StdMap.perm_insert (v := m.created) (StdMap.find?_eq_none.1 hfind)).map Prod.snd
    refine ⟨?_, fun t ht => ?_, fun e he => ?_⟩
    · refine List.perm_iff_count.2 fun a => ?_
      have hcount := h.conserved.count_eq a
      have hentries := hperm.count_eq a
      simp only [newTimer, List.range_succ, List.count_append, List.map_cons, List.count_cons, List.append_nil, List.count_nil] at *
      omega
    · exact (hnew t (List.mem_append_left _ ht)).symm ▸ h.once t ht
    · rcases (StdMap.mem_insert_new (StdMap.find?_eq_none.1 hfind)).1 he with he | rfl
      · exact (hset e he).symm ▸ h.repeats e he
      · change ((m.newTimer timer).timers m.created).repeats = true ∧ _
        rw [new_timer]
        exact ⟨decide_eq_true fun heq => hinterval (getInterval_eq_zero.2 heq), rfl⟩
  · -- the name is taken
    obtain ⟨t₀, hfind⟩ := Option.ne_none_iff_exists'.1 hfind
    rw [StdMap.insert_old hfind]
    refine ⟨?_, fun t ht => ?_, fun e he => ?_⟩
    · refine List.perm_iff_count.2 fun a => ?_
      have hcount := h.conserved.count_eq a
      simp only [newTimer, List.range_succ, List.count_append] at hcount ⊢
      omega
    · exact (hnew t (List.mem_append_left _ ht)).symm ▸ h.once t ht
    · exact (hset e he).symm ▸ h.repeats e he
  · exact h
  · refine ⟨?_, fun t ht => ?_, fun e he => ?_⟩
    · refine List.perm_iff_count.2 fun a => ?_
      have hcount := h.conserved.count_eq a
      simp only [newTimer, StdList.toList_pushBack, List.range_succ, List.count_append] at hcount ⊢
      omega
    · rw [StdList.toList_pushBack, List.mem_append, List.mem_singleton] at ht
      rcases ht with ht | rfl
      · exact (hnew t (List.mem_append_left _ ht)).symm ▸ h.once t ht
      · change ((m.newTimer timer).timers m.created).repeats = false ∧ _
        rw [new_timer]
        exact ⟨decide_eq_false fun hne => hne (getInterval_eq_zero.1 (not_not.1 hinterval)), rfl⟩
    · exact (hset e he).symm ▸ h.repeats e he

theorem delTimer (h : m.Owned) (str : String) : (m.delTimer str).Owned := by
  rw [TimerMgrImpl.delTimer]
  split_ifs
  · cases hfind : m.repeatSet.find? str with
    | none => exact h
    | some t =>
      have hperm := (StdMap.perm_erase (StdMap.find?_eq_some.1 hfind)).map Prod.snd
      refine ⟨?_, h.once, fun e he => h.repeats e (StdMap.mem_erase.1 he).1⟩
      refine List.perm_iff_count.2 fun a => ?_
      have hcount := h.conserved.count_eq a
      have hentries := hperm.count_eq a
      simp only [List.count_append, List.map_cons, List.count_cons, List.count_nil] at *
      omega
  · exact h

theorem modifyRepeatTimer (h : m.Owned) (str : String) (p : TimeSet) : (m.modifyRepeatTimer str p).Owned := by
  rw [TimerMgrImpl.modifyRepeatTimer]
  split_ifs
  · cases m.repeatSet.find? str with
    | none => exact h
    | some t => exact h.frame rfl rfl rfl rfl rfl (update_kinds rfl rfl)
  · exact h

theorem handleStep (h : m.Owned) : m.handleStep.Owned := by
  rw [TimerMgrImpl.handleStep]
  cases m.handleAt with
  | timeSync =>
    dsimp only
    split_ifs
    · exact h
    · exact h.frame rfl rfl rfl rfl rfl fun _ => ⟨rfl, rfl⟩
  | once =>
    obtain ⟨flag, hfold, -⟩ := foldl_countOnce (m := m) h.once_nodup
    dsimp only
    rw [handleOnce, hfold]
    refine h.frame rfl rfl rfl rfl rfl fun t => ?_
    dsimp only
    split
    · exact ⟨TimerRun.repeats_tick, TimerRun.removed_tick⟩
    · exact ⟨rfl, rfl⟩
  | rdlock => exact h.frame rfl rfl rfl rfl rfl fun _ => ⟨rfl, rfl⟩
  | loop k =>
    dsimp only
    rw [handleRepeat]
    split
    · exact h.frame rfl rfl rfl rfl rfl (update_kinds TimerRun.repeats_tick TimerRun.removed_tick)
    · exact h.frame rfl rfl rfl rfl rfl fun _ => ⟨rfl, rfl⟩

theorem onceStep (h : m.Owned) (hs : m.onceStep = .ok m') : m'.Owned := by
  rw [TimerMgrImpl.onceStep] at hs
  cases hat : m.onceAt with
  | wait =>
    rw [hat] at hs
    cases hs
    split_ifs
    · exact h
    · exact h.frame rfl rfl rfl rfl rfl fun _ => ⟨rfl, rfl⟩
  | deal =>
    rw [hat] at hs
    obtain ⟨l, deleted, hdeal, hlist, hperm⟩ := dealOnceHandle_returns m
    rw [show m.dealOnceHandle = .ok m' from hs] at hdeal
    cases hdeal
    refine ⟨?_, fun t ht => ?_, fun e he => ?_⟩
    · refine List.perm_iff_count.2 fun a => ?_
      have hcount := h.conserved.count_eq a
      have hdeleted := hperm.count_eq a
      have hsplit := (List.filter_append_perm (fun t => (m.timers t).timer.isTimeout) m.onceLst.toList).count_eq a
      simp only [List.count_append, hlist] at *
      omega
    · rw [hlist, List.mem_filter, Bool.not_eq_true'] at ht
      dsimp only
      rw [if_pos ht.1, TimerRun.deal_skip (h.once t ht.1) ht.2]
      exact h.once t ht.1
    · dsimp only
      rw [if_neg (h.not_once he)]
      exact h.repeats e he

theorem repeatStep (h : m.Owned) : m.repeatStep.Owned := by
  rw [TimerMgrImpl.repeatStep]
  cases m.repeatAt with
  | wait =>
    dsimp only
    split_ifs
    · exact h
    · exact h.frame rfl rfl rfl rfl rfl fun _ => ⟨rfl, rfl⟩
  | rdlock => exact h.frame rfl rfl rfl rfl rfl fun _ => ⟨rfl, rfl⟩
  | loop k =>
    dsimp only
    rw [dealRepeat]
    split
    · rename_i str t hentry
      have hrepeats := (h.repeats _ (List.mem_of_getElem? hentry)).1
      exact h.frame rfl rfl rfl rfl rfl (update_kinds TimerRun.repeats_deal (TimerRun.removed_deal hrepeats))
    · exact h.frame rfl rfl rfl rfl rfl fun _ => ⟨rfl, rfl⟩

theorem step {a : Action} (h : m.Owned) (hs : m.step a = .ok m') : m'.Owned := by
  cases a with
  | addTimer str timer => exact Except.ok.inj hs ▸ h.addTimer str timer
  | delTimer str => exact Except.ok.inj hs ▸ h.delTimer str
  | modifyRepeatTimer str p => exact Except.ok.inj hs ▸ h.modifyRepeatTimer str p
  | alarm => exact Except.ok.inj hs ▸ h.frame rfl rfl rfl rfl rfl fun _ => ⟨rfl, rfl⟩
  | handle => exact Except.ok.inj hs ▸ h.handleStep
  | once => exact h.onceStep hs
  | repeats => exact Except.ok.inj hs ▸ h.repeatStep

end Owned

/-! ## Whoever has to look at a timer whose time is over is awake -/

/-- The worker has not come to the entry `j` of the set yet, or the thread of `TimerThread` will still post. -/
def Comes (m : TimerMgrImpl) (j : Nat) (r : TimerRun) : Prop :=
  0 < m.m_SemRepeat ∨ m.repeatAt = .rdlock ∨ (∃ k, m.repeatAt = .loop k ∧ k ≤ j) ∨
    ∃ k, m.handleAt = .loop k ∧ (m.bFlagRepeat = true ∨ k = j ∧ r.tickAt = .restFirst)

structure Awake (m : TimerMgrImpl) : Prop where
  once : ∀ t ∈ m.onceLst.toList, (m.timers t).timer.isTimeout = true → 0 < m.m_SemOnce ∨ m.onceAt = .deal
  repeats : ∀ j e, m.repeatSet.entries[j]? = some e → (m.timers e.2).timer.isTimeout = true → m.Comes j (m.timers e.2)

namespace Awake

/-- While no side is in its loop, it does not matter where the timer is in the set. -/
theorem of_unlocked (h : m.Awake) (hun : m.Unlocked) : ∀ e ∈ m.repeatSet.entries, (m.timers e.2).timer.isTimeout = true →
    0 < m.m_SemRepeat ∨ m.repeatAt = .rdlock := by
  intro e he hover
  obtain ⟨j, hj⟩ := List.mem_iff_getElem?.1 he
  obtain hsem | hat | ⟨k, hk, -⟩ | ⟨k, hk, -⟩ := h.repeats j e hj hover
  · exact .inl hsem
  · exact .inr hat
  · exact absurd hk (hun.2 k)
  · exact absurd hk (hun.1 k)

theorem of_members (honce : ∀ t ∈ m.onceLst.toList, (m.timers t).timer.isTimeout = true → 0 < m.m_SemOnce ∨ m.onceAt = .deal)
    (hset : ∀ e ∈ m.repeatSet.entries, (m.timers e.2).timer.isTimeout = true → 0 < m.m_SemRepeat ∨ m.repeatAt = .rdlock) : m.Awake := by
  refine ⟨honce, fun j e he hover => ?_⟩
  rcases hset e (List.mem_of_getElem? he) hover with hsem | hat
  · exact .inl hsem
  · exact .inr (.inl hat)

theorem addTimer (h : m.Awake) (ho : m.Owned) {str : String} {timer : AbstractTimer} (hzero : timer.nFinish = 0) :
    (m.addTimer str timer).Awake := by
  have hnew : ∀ t ∈ m.onceLst.toList ++ m.repeatSet.entries.map Prod.snd, (m.newTimer timer).timers t = m.timers t :=
    fun t ht => Owned.new_timers (ho.lt_created ht)
  have honce : ∀ t ∈ m.onceLst.toList, (m.newTimer timer).timers t = m.timers t := fun t ht => hnew t (List.mem_append_left _ ht)
  have hset : ∀ e ∈ m.repeatSet.entries, (m.newTimer timer).timers e.2 = m.timers e.2 := fun e he =>
    hnew e.2 (List.mem_append_right _ (List.mem_map_of_mem he))
  have hfresh : ((m.newTimer timer).timers m.created).timer.isTimeout = false := by
    rw [Owned.new_timer]
    simp [AbstractTimer.isTimeout, hzero]
  rw [TimerMgrImpl.addTimer]
  by_cases hinterval : timer.getInterval ≠ 0
  · rw [if_pos hinterval]
    by_cases hun : m.Unlocked
    · rw [if_pos hun]
      refine of_members (fun t ht hover => ?_) fun e he hover => ?_
      · exact h.once t ht (by rwa [← honce t ht])
      · rcases StdMap.mem_insert.1 he with he | hand
        · exact h.of_unlocked hun e he (by rwa [← hset e he])
        · obtain ⟨rfl, -⟩ := hand
          exact absurd hover (by rw [hfresh]; exact Bool.false_ne_true)
    · rw [if_neg hun]
      exact h
  · rw [if_neg hinterval]
    refine ⟨fun t ht hover => ?_, fun j e he hover => ?_⟩
    · rw [StdList.toList_pushBack, List.mem_append, List.mem_singleton] at ht
      rcases ht with ht | rfl
      · exact h.once t ht (by rwa [← honce t ht])
      · exact absurd hover (by rw [hfresh]; exact Bool.false_ne_true)
    · have heq := hset e (List.mem_of_getElem? he)
      have hcomes := h.repeats j e he (by rwa [← heq])
      rw [← heq] at hcomes
      exact hcomes

theorem delTimer (h : m.Awake) (str : String) : (m.delTimer str).Awake := by
  rw [TimerMgrImpl.delTimer]
  split_ifs with hun
  · cases m.repeatSet.find? str with
    | none => exact h
    | some t => exact of_members h.once fun e he => h.of_unlocked hun e (StdMap.mem_erase.1 he).1
  · exact h

/-- A change of its times does not tell whether the time of a timer is over. -/
theorem modifyRepeatTimer (h : m.Awake) (str : String) (p : TimeSet) : (m.modifyRepeatTimer str p).Awake := by
  rw [TimerMgrImpl.modifyRepeatTimer]
  split_ifs with hun
  · cases m.repeatSet.find? str with
    | none => exact h
    | some t =>
      have hkept : ∀ u, (Function.update m.timers t ((m.timers t).modifyRepeatTimer p) u).timer.isTimeout = (m.timers u).timer.isTimeout := by
        intro u
        by_cases hu : u = t
        · subst hu
          rw [Function.update_self]
          rfl
        · rw [Function.update_of_ne hu]
      exact of_members (fun u hu hover => h.once u hu (hkept u ▸ hover)) fun e he hover => h.of_unlocked hun e he (hkept e.2 ▸ hover)
  · exact h

theorem handleOnce (h : m.Awake) (ho : m.Owned) (hat : m.handleAt = .once) : m.handleOnce.Awake := by
  obtain ⟨flag, hfold, hflag⟩ := foldl_countOnce (m := m) ho.once_nodup
  rw [TimerMgrImpl.handleOnce, hfold]
  refine ⟨fun t ht hover => ?_, fun j e he hover => ?_⟩
  · dsimp only at ht hover ⊢
    rw [if_pos ht, TimerRun.isTimeout_tickOnce (ho.once t ht).1 (ho.once t ht).2, Bool.or_eq_true] at hover
    rcases hover with hover | hmeets
    · refine (h.once t ht hover).imp_left fun hsem => ?_
      split <;> omega
    · rw [if_pos (hflag.2 (.inr ⟨t, ht, of_decide_eq_true hmeets⟩))]
      exact .inl (Nat.succ_pos _)
  · dsimp only at hover
    rw [if_neg (ho.not_once (List.mem_of_getElem? he))] at hover
    obtain hsem | hrest | hbefore | ⟨k, hk, -⟩ := h.repeats j e he hover
    · exact .inl hsem
    · exact .inr (.inl hrest)
    · exact .inr (.inr (.inl hbefore))
    · rw [hat] at hk
      cases hk

theorem handleRepeat (h : m.Awake) (ho : m.Owned) {k : Nat} (hat : m.handleAt = .loop k) : (m.handleRepeat k).Awake := by
  rw [TimerMgrImpl.handleRepeat]
  split
  · rename_i str t hentry
    have hkind := ho.repeats _ (List.mem_of_getElem? hentry)
    refine ⟨fun u hu hover => ?_, fun j e he hover => ?_⟩
    · have hne : u ≠ t := fun heq => ho.not_once (List.mem_of_getElem? hentry) (heq ▸ hu)
      dsimp only at hover
      rw [Function.update_of_ne hne] at hover
      exact h.once u hu hover
    · dsimp only at he hover ⊢
      rw [Comes]
      by_cases hjk : j = k
      · subst hjk
        cases hentry.symm.trans he
        rw [Function.update_self, TimerRun.step_tickRepeat hkind.1 hkind.2] at hover ⊢
        rcases TimerRun.isTimeout_tickRepeat hover with hover | hset | hset
        · obtain hsem | hrest | hbefore | ⟨k, hk, hpost⟩ := h.repeats j _ hentry hover
          · exact .inl hsem
          · exact .inr (.inl hrest)
          · exact .inr (.inr (.inl hbefore))
          · refine .inr (.inr (.inr ⟨_, rfl, .inl ?_⟩))
            rcases hpost with hflag | ⟨-, hrest⟩
            · simp [hflag]
            · simp [hrest]
        · exact .inr (.inr (.inr ⟨_, rfl, .inr ⟨by rw [if_neg (by rw [hset]; decide)], hset⟩⟩))
        · exact .inr (.inr (.inr ⟨_, rfl, .inl (by simp [hset])⟩))
      · have hne : e.2 ≠ t := fun heq => hjk (ho.entry_inj he hentry heq)
        rw [Function.update_of_ne hne] at hover ⊢
        obtain hsem | hrest | hbefore | ⟨k', hk', hpost⟩ := h.repeats j e he hover
        · exact .inl hsem
        · exact .inr (.inl hrest)
        · exact .inr (.inr (.inl hbefore))
        · cases hat.symm.trans hk'
          refine .inr (.inr (.inr ⟨_, rfl, .inl ?_⟩))
          rcases hpost with hflag | ⟨hkj, -⟩
          · simp [hflag]
          · exact absurd hkj.symm hjk
  · rename_i hend
    refine ⟨h.once, fun j e he hover => ?_⟩
    rw [Comes]
    dsimp only
    obtain hsem | hrest | hbefore | ⟨k', hk', hpost⟩ := h.repeats j e he hover
    · refine .inl ?_
      split <;> omega
    · exact .inr (.inl hrest)
    · exact .inr (.inr (.inl hbefore))
    · cases hat.symm.trans hk'
      rcases hpost with hflag | ⟨rfl, -⟩
      · rw [if_pos hflag]
        exact .inl (Nat.succ_pos _)
      · cases hend.symm.trans he

theorem handleStep (h : m.Awake) (ho : m.Owned) : m.handleStep.Awake := by
  rw [TimerMgrImpl.handleStep]
  cases hat : m.handleAt with
  | timeSync =>
    dsimp only
    split_ifs
    · exact h
    · refine ⟨h.once, fun j e he hover => ?_⟩
      obtain hsem | hrest | hbefore | ⟨k, hk, -⟩ := h.repeats j e he hover
      · exact .inl hsem
      · exact .inr (.inl hrest)
      · exact .inr (.inr (.inl hbefore))
      · cases hat.symm.trans hk
  | once => exact h.handleOnce ho hat
  | rdlock =>
    refine ⟨h.once, fun j e he hover => ?_⟩
    obtain hsem | hrest | hbefore | ⟨k, hk, -⟩ := h.repeats j e he hover
    · exact .inl hsem
    · exact .inr (.inl hrest)
    · exact .inr (.inr (.inl hbefore))
    · cases hat.symm.trans hk
  | loop k => exact h.handleRepeat ho hat

theorem onceStep (h : m.Awake) (ho : m.Owned) (hs : m.onceStep = .ok m') : m'.Awake := by
  rw [TimerMgrImpl.onceStep] at hs
  cases hat : m.onceAt with
  | wait =>
    rw [hat] at hs
    cases hs
    split_ifs
    · exact h
    · exact ⟨fun _ _ _ => .inr rfl, h.repeats⟩
  | deal =>
    rw [hat] at hs
    obtain ⟨l, deleted, hdeal, hlist, -⟩ := dealOnceHandle_returns m
    rw [show m.dealOnceHandle = .ok m' from hs] at hdeal
    cases hdeal
    refine ⟨fun t ht hover => ?_, fun j e he hover => ?_⟩
    · rw [hlist, List.mem_filter, Bool.not_eq_true'] at ht
      dsimp only at hover
      rw [if_pos ht.1, TimerRun.deal_skip (ho.once t ht.1) ht.2, TimerRun.timer_note, ht.2] at hover
      cases hover
    · dsimp only at hover
      rw [if_neg (ho.not_once (List.mem_of_getElem? he))] at hover
      have hcomes := h.repeats j e he hover
      rw [Comes] at hcomes ⊢
      dsimp only
      rwa [if_neg (ho.not_once (List.mem_of_getElem? he))]

theorem dealRepeat (h : m.Awake) (ho : m.Owned) {k : Nat} (hat : m.repeatAt = .loop k) : (m.dealRepeat k).Awake := by
  rw [TimerMgrImpl.dealRepeat]
  split
  · rename_i str t hentry
    have hkind := ho.repeats _ (List.mem_of_getElem? hentry)
    refine ⟨fun u hu hover => ?_, fun j e he hover => ?_⟩
    · have hne : u ≠ t := fun heq => ho.not_once (List.mem_of_getElem? hentry) (heq ▸ hu)
      dsimp only at hover
      rw [Function.update_of_ne hne] at hover
      exact h.once u hu hover
    · dsimp only at he hover ⊢
      rw [Comes]
      by_cases hjk : j = k
      · subst hjk
        cases hentry.symm.trans he
        rw [Function.update_self, TimerRun.step_dealRepeat hkind.1 hkind.2] at hover ⊢
        have hstays := (TimerRun.isTimeout_dealRepeat hover).2
        exact .inr (.inr (.inl ⟨j, by rw [if_neg hstays], Nat.le_refl j⟩))
      · have hne : e.2 ≠ t := fun heq => hjk (ho.entry_inj he hentry heq)
        rw [Function.update_of_ne hne] at hover ⊢
        obtain hsem | hrest | ⟨k', hk', hle⟩ | hpost := h.repeats j e he hover
        · exact .inl hsem
        · cases hat.symm.trans hrest
        · cases hat.symm.trans hk'
          refine .inr (.inr (.inl ⟨_, rfl, ?_⟩))
          split <;> omega
        · exact .inr (.inr (.inr hpost))
  · rename_i hend
    refine ⟨h.once, fun j e he hover => ?_⟩
    obtain hsem | hrest | ⟨k', hk', hle⟩ | hpost := h.repeats j e he hover
    · exact .inl hsem
    · cases hat.symm.trans hrest
    · cases hat.symm.trans hk'
      have hlen := List.getElem?_eq_none_iff.1 hend
      have hlt : j < m.repeatSet.entries.length := (List.getElem?_eq_some_iff.1 he).1
      omega
    · exact .inr (.inr (.inr hpost))

theorem repeatStep (h : m.Awake) (ho : m.Owned) : m.repeatStep.Awake := by
  rw [TimerMgrImpl.repeatStep]
  cases hat : m.repeatAt with
  | wait =>
    dsimp only
    split_ifs
    · exact h
    · exact ⟨h.once, fun _ _ _ _ => .inr (.inl rfl)⟩
  | rdlock => exact ⟨h.once, fun _ _ _ _ => .inr (.inr (.inl ⟨0, rfl, Nat.zero_le _⟩))⟩
  | loop k => exact h.dealRepeat ho hat

theorem step {a : Action} (h : m.Awake) (ho : m.Owned) (hzero : a.Zeroed) (hs : m.step a = .ok m') : m'.Awake := by
  cases a with
  | addTimer str timer => exact Except.ok.inj hs ▸ h.addTimer ho hzero.1
  | delTimer str => exact Except.ok.inj hs ▸ h.delTimer str
  | modifyRepeatTimer str p => exact Except.ok.inj hs ▸ h.modifyRepeatTimer str p
  | alarm => exact Except.ok.inj hs ▸ ⟨h.once, h.repeats⟩
  | handle => exact Except.ok.inj hs ▸ h.handleStep ho
  | once => exact h.onceStep ho hs
  | repeats => exact Except.ok.inj hs ▸ h.repeatStep ho

end Awake

/-! ## Whole runs -/

theorem step_returns (m : TimerMgrImpl) (a : Action) : ∃ m', m.step a = .ok m' := by
  cases a with
  | once =>
    cases hat : m.onceAt with
    | wait => exact ⟨_, by rw [step, onceStep, hat]⟩
    | deal =>
      obtain ⟨l, deleted, hdeal, -⟩ := dealOnceHandle_returns m
      exact ⟨_, by rw [step, onceStep, hat]; exact hdeal⟩
  | _ => exact ⟨_, rfl⟩

theorem Owned.run {acts : List Action} (h : m.Owned) (ha : m.Awake) (hzero : ∀ a ∈ acts, a.Zeroed) :
    ∃ m', acts.foldlM TimerMgrImpl.step m = .ok m' ∧ m'.Owned ∧ m'.Awake :=
  Fallible.foldlM_exists (fun m : TimerMgrImpl => m.Owned ∧ m.Awake) ⟨h, ha⟩ fun m a hmem hm => by
    obtain ⟨m', hs⟩ := step_returns m a
    exact ⟨m', hs, hm.1.step hs, hm.2.step hm.1 (hzero a hmem) hs⟩

theorem Awake.of_init : init.Awake := ⟨List.forall_mem_nil _, fun j e he => by cases he⟩

/-- The one-shot timer, its time being over, is called and deleted by the next steps of its worker. -/
theorem Awake.dealt (h : m.Awake) (ho : m.Owned) {t : Nat} (ht : t ∈ m.onceLst.toList) (hover : (m.timers t).timer.isTimeout = true) :
    ∃ n m', n ≤ 2 ∧ (List.replicate n Action.once).foldlM TimerMgrImpl.step m = .ok m' ∧ t ∈ m'.deleted ∧
      (m'.timers t).history = (m.timers t).history ++ [.call] := by
  have hdeal : ∀ m₁ : TimerMgrImpl, m₁.onceLst = m.onceLst → m₁.timers = m.timers → m₁.onceAt = .deal →
      ∃ m', m₁.step .once = .ok m' ∧ t ∈ m'.deleted ∧ (m'.timers t).history = (m.timers t).history ++ [.call] := by
    intro m₁ hlist htimers hat
    obtain ⟨l, deleted, hdeal, -, hperm⟩ := dealOnceHandle_returns m₁
    refine ⟨_, by rw [TimerMgrImpl.step, TimerMgrImpl.onceStep, hat]; exact hdeal, ?_, ?_⟩
    · refine List.mem_append_right _ (hperm.mem_iff.2 (List.mem_filter.2 ⟨hlist ▸ ht, ?_⟩))
      rw [htimers, hover]
    · dsimp only
      rw [if_pos (hlist ▸ ht), htimers, TimerRun.deal_call (ho.once t ht) hover]
      rfl
  cases hat : m.onceAt with
  | deal =>
    obtain ⟨m', hs, hdone⟩ := hdeal m rfl rfl hat
    exact ⟨1, m', by decide, Fallible.foldlM_cons_ok.2 ⟨m', hs, Fallible.foldlM_nil_ok.2 rfl⟩, hdone⟩
  | wait =>
    have hsem : 0 < m.m_SemOnce := (h.once t ht hover).resolve_right (by rw [hat]; decide)
    obtain ⟨m', hs, hdone⟩ := hdeal { m with m_SemOnce := m.m_SemOnce - 1, onceAt := .deal } rfl rfl rfl
    refine ⟨2, m', by decide, Fallible.foldlM_cons_ok.2 ⟨_, ?_, Fallible.foldlM_cons_ok.2 ⟨m', hs, Fallible.foldlM_nil_ok.2 rfl⟩⟩, hdone⟩
    rw [TimerMgrImpl.step, TimerMgrImpl.onceStep, hat]
    exact congrArg Except.ok (if_neg (Nat.ne_of_gt hsem))

/-- A one-shot and a repeating timer of a tick each, up to the post for the second. -/
def twoTimers : List Action :=
  [.addTimer "once" ⟨⟨5, 0⟩, 0, 0⟩, .addTimer "again" ⟨⟨5, 10⟩, 0, 0⟩, .alarm, .handle, .handle, .handle, .handle, .handle, .handle, .handle]

end TimerMgrImpl
