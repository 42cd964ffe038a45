/-
The locks of the heartbeat monitor (Net/BalanceHandle_Linux.cpp).

`HeartBitHandle` runs in timer threads, any number of calls at a time, and
lists the clients that are late; `LoseHeartBitThread` sleeps until there are
some, kicks them and clears the list, all under `m_heartCtrl`. At the end of
an iteration it unlocks `m_rwLock`, which it does not hold, and not
`m_heartCtrl`, which it holds and locks next. Up to there both keep the
discipline of the locks (`disciplined_iff`), and it does not come there before
a client was late (`disciplined_run`).
-/
import Mathlib.Data.Multiset.Filter
import Mathlib.Logic.Function.Basic
import XFramework.Net.Heartbeat
import XFramework.Thread.Locks

open Fallible

inductive MonitorThread
  | heartBit (i : Nat)
  | loseHeartBit
  deriving DecidableEq

/-- Where a call of `HeartBitHandle` is; `scan` has the sessions yet to be looked at. -/
inductive BeatPlace
  | idle
  | lock
  | lockRead
  | scan (rest : List Client)
  | unlockRead
  | unlock

/-- Where `LoseHeartBitThread` is; from `lockWrite` to `clientExit` it is in `KickClient`, for the entry `i`
of `m_lostHeartbit`. -/
inductive LosePlace
  | loop
  | lock
  | test
  | waiting
  | kick (i : Nat)
  | lockWrite (i : Nat) (sock : Int)
  | erase (i : Nat) (sock : Int)
  | unlockWrite (i : Nat)
  | clientExit (i : Nat)
  | unlockRead
  | ended
  deriving DecidableEq

/-- What the next step of a thread does with the locks; `guarded` unlocks `m_heartCtrl`, waits with it, or
is at `m_lostHeartbit`, and `outside` begins or ends an iteration. -/
inductive LockUse
  | lockHeart
  | guarded
  | lockRw
  | unlockRead
  | unlockWrite
  | outside
  | other

def BeatPlace.use : BeatPlace → LockUse
  | .idle => .outside
  | .lock => .lockHeart
  | .lockRead => .lockRw
  | .scan _ => .guarded
  | .unlockRead => .unlockRead
  | .unlock => .guarded

def LosePlace.use : LosePlace → LockUse
  | .loop | .ended => .outside
  | .lock | .waiting => .lockHeart
  | .test | .kick _ => .guarded
  | .lockWrite _ _ => .lockRw
  | .unlockWrite _ => .unlockWrite
  | .erase _ _ | .clientExit _ => .other
  | .unlockRead => .unlockRead

/-! What a thread holds at a place. -/

def BeatPlace.holdsHeart : BeatPlace → Bool
  | .lockRead | .scan _ | .unlockRead | .unlock => true
  | .idle | .lock => false

def BeatPlace.holdsRead : BeatPlace → Bool
  | .scan _ | .unlockRead => true
  | .idle | .lock | .lockRead | .unlock => false

def LosePlace.holdsHeart : LosePlace → Bool
  | .loop | .lock | .waiting | .ended => false
  | _ => true

def LosePlace.holdsWrite : LosePlace → Bool
  | .erase _ _ | .unlockWrite _ => true
  | _ => false

structure HeartbeatMonitor where
  m_bStart : Bool
  m_HeartBitFlag : Bool
  m_clientInfos : List Client
  m_lostHeartbit : List Int
  m_heartCtrl : ThreadCtrlExImpl MonitorThread
  m_rwLock : RWLockImpl MonitorThread
  beats : Nat → BeatPlace
  lose : LosePlace

namespace HeartbeatMonitor

/-- `heartBit` is a step of the call `i`, or its begin, when `time(0)` is `now`; `wake` is a wake-up
without a signal. -/
inductive Action
  | heartBit (i : Nat) (now : Int)
  | loseHeartBit
  | wake

def begin (m_bStart m_HeartBitFlag : Bool) (m_clientInfos : List Client) : HeartbeatMonitor where
  m_bStart := m_bStart
  m_HeartBitFlag := m_HeartBitFlag
  m_clientInfos := m_clientInfos
  m_lostHeartbit := []
  m_heartCtrl := .new
  m_rwLock := .new
  beats _ := .idle
  lose := .loop

def toBeat (t : HeartbeatMonitor) (i : Nat) (place : BeatPlace) : HeartbeatMonitor :=
  { t with beats := Function.update t.beats i place }

/-- `HeartBitHandle`. There is one range of sessions, `THREAD_COUNT` being 1. -/
def stepBeat (t : HeartbeatMonitor) (i : Nat) (now : Int) : Except LockFault HeartbeatMonitor :=
  match t.beats i with
  | .idle => .ok (t.toBeat i .lock)
  | .lock => do
    let c ← t.m_heartCtrl.lock (.heartBit i)
    .ok ({ t with m_heartCtrl := c }.toBeat i .lockRead)
  | .lockRead => do
    let c ← t.m_rwLock.lockRead (.heartBit i)
    .ok ({ t with m_rwLock := c }.toBeat i (.scan t.m_clientInfos))
  | .scan (c :: rest) =>
    let lost := if HeartbitServer.lost now c then t.m_lostHeartbit ++ [c.sock] else t.m_lostHeartbit
    .ok ({ t with m_lostHeartbit := lost }.toBeat i (.scan rest))
  | .scan [] =>
    let c := if t.m_lostHeartbit = [] then t.m_heartCtrl else t.m_heartCtrl.wakeConsume .loseHeartBit
    .ok ({ t with m_heartCtrl := c }.toBeat i .unlockRead)
  | .unlockRead => do
    let c ← t.m_rwLock.unlockRead (.heartBit i)
    .ok ({ t with m_rwLock := c }.toBeat i .unlock)
  | .unlock => do
    let c ← t.m_heartCtrl.unlock (.heartBit i)
    .ok ({ t with m_heartCtrl := c }.toBeat i .idle)

/-- `LoseHeartBitThread`. `KickClient` returns at once when `m_bStart` is not set. -/
def stepLose (t : HeartbeatMonitor) : Except LockFault HeartbeatMonitor :=
  match t.lose with
  | .loop => .ok { t with lose := if t.m_HeartBitFlag then .lock else .ended }
  | .lock => do
    let c ← t.m_heartCtrl.lock .loseHeartBit
    .ok { t with m_heartCtrl := c, lose := .test }
  | .test =>
    if t.m_lostHeartbit = [] then do
      let c ← t.m_heartCtrl.waitConsume .loseHeartBit
      .ok { t with m_heartCtrl := c, lose := .waiting }
    else .ok { t with lose := .kick 0 }
  | .waiting => do
    let c ← t.m_heartCtrl.resume .loseHeartBit
    .ok { t with m_heartCtrl := c, lose := .test }
  | .kick i =>
    match t.m_lostHeartbit[i]? with
    | some sock => .ok { t with lose := if t.m_bStart then .lockWrite i sock else .kick (i + 1) }
    | none => .ok { t with m_lostHeartbit := [], lose := .unlockRead }
  | .lockWrite i sock => do
    let c ← t.m_rwLock.lockWrite .loseHeartBit
    .ok { t with m_rwLock := c, lose := .erase i sock }
  | .erase i sock => .ok { t with m_clientInfos := t.m_clientInfos.eraseP fun c => c.sock = sock, lose := .unlockWrite i }
  | .unlockWrite i => do
    let c ← t.m_rwLock.unlockWrite .loseHeartBit
    .ok { t with m_rwLock := c, lose := .clientExit i }
  | .clientExit i => .ok { t with lose := .kick (i + 1) }
  | .unlockRead => do
    let c ← t.m_rwLock.unlockRead .loseHeartBit
    .ok { t with m_rwLock := c, lose := .loop }
  | .ended => .error .blocked

def step (t : HeartbeatMonitor) : Action → Except LockFault HeartbeatMonitor
  | .heartBit i now => t.stepBeat i now
  | .loseHeartBit => t.stepLose
  | .wake => .ok { t with m_heartCtrl := t.m_heartCtrl.wakeConsume .loseHeartBit }

/-! ## The discipline -/

def use (t : HeartbeatMonitor) : MonitorThread → LockUse
  | .heartBit i => (t.beats i).use
  | .loseHeartBit => t.lose.use

/-- The thread `x` holds what it needs for its next step, and does not hold what it locks. -/
def Allowed (t : HeartbeatMonitor) (x : MonitorThread) : LockUse → Prop
  | .lockHeart => t.m_heartCtrl.m_lock ≠ some x
  | .guarded => t.m_heartCtrl.m_lock = some x
  | .lockRw => x ∉ t.m_rwLock.readers ∧ t.m_rwLock.writer ≠ some x
  | .unlockRead => x ∈ t.m_rwLock.readers
  | .unlockWrite => t.m_rwLock.writer = some x
  | .outside => t.m_heartCtrl.m_lock ≠ some x ∧ x ∉ t.m_rwLock.readers ∧ t.m_rwLock.writer ≠ some x
  | .other => True

def Disciplined (t : HeartbeatMonitor) : Prop := ∀ x, t.Allowed x (t.use x)

/-! ## What the threads hold -/

def holdsHeart (t : HeartbeatMonitor) : MonitorThread → Bool
  | .heartBit i => (t.beats i).holdsHeart
  | .loseHeartBit => t.lose.holdsHeart

def holdsRead (t : HeartbeatMonitor) : MonitorThread → Bool
  | .heartBit i => (t.beats i).holdsRead
  | .loseHeartBit => false

def holdsWrite (t : HeartbeatMonitor) : MonitorThread → Bool
  | .heartBit _ => false
  | .loseHeartBit => t.lose.holdsWrite

/-- Who holds which lock can be told from where the threads are. -/
structure Inv (t : HeartbeatMonitor) : Prop where
  heart : ∀ x, t.m_heartCtrl.m_lock = some x ↔ t.holdsHeart x = true
  read : ∀ x, x ∈ t.m_rwLock.readers ↔ t.holdsRead x = true
  nodup : t.m_rwLock.readers.Nodup
  write : ∀ x, t.m_rwLock.writer = some x ↔ t.holdsWrite x = true

variable {t t' : HeartbeatMonitor} {a : Action} {acts : List Action} {i : Nat} {now : Int} {x : MonitorThread}
  {m_bStart m_HeartBitFlag : Bool} {m_clientInfos : List Client}

theorem inv_begin : Inv (begin m_bStart m_HeartBitFlag m_clientInfos) where
  heart x := by cases x <;> simp [begin, ThreadCtrlExImpl.new, holdsHeart, BeatPlace.holdsHeart, LosePlace.holdsHeart]
  read x := by cases x <;> simp [begin, RWLockImpl.new, holdsRead, BeatPlace.holdsRead]
  nodup := Multiset.nodup_zero
  write x := by cases x <;> simp [begin, RWLockImpl.new, holdsWrite, LosePlace.holdsWrite]

/-! The threads that hold a lock when `y` takes it, and when `y` gives it up. -/

theorem iff_taken {y : MonitorThread} {held : Prop} {b : Bool} (hb : b = true) :
    x = y ∨ held ↔ if x = y then b = true else held := by
  split_ifs with hx
  · exact iff_of_true (.inl hx) hb
  · exact or_iff_right hx

theorem iff_given {y : MonitorThread} {held : Prop} {b : Bool} (hb : b = false) :
    x ≠ y ∧ held ↔ if x = y then b = true else held := by
  split_ifs with hx
  · simp [hx, hb]
  · exact and_iff_right hx

/-- A call of `HeartBitHandle` comes to another place. -/
theorem Inv.beat_to {place : BeatPlace} {c : ThreadCtrlExImpl MonitorThread} {rw' : RWLockImpl MonitorThread} {lost : List Int}
    (h : Inv t)
    (hheart : ∀ x, c.m_lock = some x ↔ if x = .heartBit i then place.holdsHeart = true else t.m_heartCtrl.m_lock = some x)
    (hread : ∀ x, x ∈ rw'.readers ↔ if x = .heartBit i then place.holdsRead = true else x ∈ t.m_rwLock.readers)
    (hnodup : rw'.readers.Nodup) (hwrite : rw'.writer = t.m_rwLock.writer) :
    Inv ({ t with m_lostHeartbit := lost, m_heartCtrl := c, m_rwLock := rw' }.toBeat i place) := by
  have hbeat : ∀ j, Function.update t.beats i place j = if j = i then place else t.beats j := fun j => by
    rw [Function.update_apply]
  constructor
  case heart =>
    intro x
    refine (hheart x).trans ?_
    cases x with
    | heartBit j =>
      simp only [toBeat, holdsHeart, hbeat, MonitorThread.heartBit.injEq]
      split_ifs with hj
      · rfl
      · exact h.heart (.heartBit j)
    | loseHeartBit => exact h.heart .loseHeartBit
  case read =>
    intro x
    refine (hread x).trans ?_
    cases x with
    | heartBit j =>
      simp only [toBeat, holdsRead, hbeat, MonitorThread.heartBit.injEq]
      split_ifs with hj
      · rfl
      · exact h.read (.heartBit j)
    | loseHeartBit => exact h.read .loseHeartBit
  case nodup => exact hnodup
  case write =>
    intro x
    have hsame : t.m_rwLock.writer = some x ↔ t.holdsWrite x = true := h.write x
    rw [← hwrite] at hsame
    cases x <;> exact hsame

theorem Inv.same_heart {place : BeatPlace} (h : Inv t) (hp : place.holdsHeart = (t.beats i).holdsHeart) (x : MonitorThread) :
    t.m_heartCtrl.m_lock = some x ↔ if x = .heartBit i then place.holdsHeart = true else t.m_heartCtrl.m_lock = some x := by
  split_ifs with hx
  · rw [hx, hp]
    exact h.heart (.heartBit i)
  · rfl

theorem Inv.same_read {place : BeatPlace} (h : Inv t) (hp : place.holdsRead = (t.beats i).holdsRead) (x : MonitorThread) :
    x ∈ t.m_rwLock.readers ↔ if x = .heartBit i then place.holdsRead = true else x ∈ t.m_rwLock.readers := by
  split_ifs with hx
  · rw [hx, hp]
    exact h.read (.heartBit i)
  · rfl

theorem Inv.stepBeat (h : Inv t) (hstep : t.stepBeat i now = .ok t') : Inv t' := by
  rw [HeartbeatMonitor.stepBeat] at hstep
  cases hp : t.beats i with
  | idle =>
    rw [hp] at hstep
    cases hstep
    exact h.beat_to (h.same_heart (by rw [hp]; rfl)) (h.same_read (by rw [hp]; rfl)) h.nodup rfl
  | lock =>
    rw [hp] at hstep
    obtain ⟨c, hc, hstep⟩ := bind_eq_ok.1 hstep
    cases hstep
    refine h.beat_to (fun x => ?_) (h.same_read (by rw [hp]; rfl)) h.nodup rfl
    rw [ThreadCtrlExImpl.held_lock hc]
    exact iff_taken rfl
  | lockRead =>
    rw [hp] at hstep
    obtain ⟨c, hc, hstep⟩ := bind_eq_ok.1 hstep
    cases hstep
    obtain ⟨hwriter, hreaders⟩ := RWLockImpl.held_lockRead hc
    have hfree : MonitorThread.heartBit i ∉ t.m_rwLock.readers := by
      rw [h.read, holdsRead, hp]
      nofun
    refine h.beat_to (h.same_heart (by rw [hp]; rfl)) (fun x => ?_) ?_ hwriter
    · rw [hreaders, Multiset.mem_cons]
      exact iff_taken rfl
    · rw [hreaders, Multiset.nodup_cons]
      exact ⟨hfree, h.nodup⟩
  | scan rest =>
    rw [hp] at hstep
    cases rest with
    | nil =>
      cases hstep
      refine h.beat_to (fun x => ?_) (h.same_read (by rw [hp]; rfl)) h.nodup rfl
      have hunlock : BeatPlace.unlockRead.holdsHeart = (t.beats i).holdsHeart := by rw [hp]; rfl
      have hsame := h.same_heart hunlock x
      split_ifs at hsame ⊢ <;> exact hsame
    | cons c rest =>
      cases hstep
      exact h.beat_to (h.same_heart (by rw [hp]; rfl)) (h.same_read (by rw [hp]; rfl)) h.nodup rfl
  | unlockRead =>
    rw [hp] at hstep
    obtain ⟨c, hc, hstep⟩ := bind_eq_ok.1 hstep
    cases hstep
    obtain ⟨hwriter, hreaders⟩ := RWLockImpl.held_unlockRead hc
    refine h.beat_to (h.same_heart (by rw [hp]; rfl)) (fun x => ?_) ?_ hwriter
    · rw [hreaders, h.nodup.mem_erase_iff]
      exact iff_given rfl
    · rw [hreaders]
      exact h.nodup.erase _
  | unlock =>
    rw [hp] at hstep
    obtain ⟨c, hc, hstep⟩ := bind_eq_ok.1 hstep
    cases hstep
    refine h.beat_to (fun x => ?_) (h.same_read (by rw [hp]; rfl)) h.nodup rfl
    rw [ThreadCtrlExImpl.held_unlock hc]
    exact iff_given rfl

/-- `LoseHeartBitThread` comes to another place. -/
theorem Inv.lose_to {place : LosePlace} {c : ThreadCtrlExImpl MonitorThread} {rw' : RWLockImpl MonitorThread} {lost : List Int}
    {infos : List Client} (h : Inv t)
    (hheart : ∀ x, c.m_lock = some x ↔ if x = .loseHeartBit then place.holdsHeart = true else t.m_heartCtrl.m_lock = some x)
    (hread : rw'.readers = t.m_rwLock.readers)
    (hwrite : ∀ x, rw'.writer = some x ↔ if x = .loseHeartBit then place.holdsWrite = true else t.m_rwLock.writer = some x) :
    Inv { t with m_clientInfos := infos, m_lostHeartbit := lost, m_heartCtrl := c, m_rwLock := rw', lose := place } := by
  constructor
  case heart =>
    intro x
    refine (hheart x).trans ?_
    cases x with
    | heartBit j => exact h.heart (.heartBit j)
    | loseHeartBit => rfl
  case read =>
    intro x
    have hsame := h.read x
    rw [← hread] at hsame
    cases x <;> exact hsame
  case nodup => exact hread ▸ h.nodup
  case write =>
    intro x
    refine (hwrite x).trans ?_
    cases x with
    | heartBit j => exact h.write (.heartBit j)
    | loseHeartBit => rfl

theorem Inv.lose_heart {place : LosePlace} (h : Inv t) (hp : place.holdsHeart = t.lose.holdsHeart) (x : MonitorThread) :
    t.m_heartCtrl.m_lock = some x ↔ if x = .loseHeartBit then place.holdsHeart = true else t.m_heartCtrl.m_lock = some x := by
  split_ifs with hx
  · rw [hx, hp]
    exact h.heart .loseHeartBit
  · rfl

theorem Inv.lose_write {place : LosePlace} (h : Inv t) (hp : place.holdsWrite = t.lose.holdsWrite) (x : MonitorThread) :
    t.m_rwLock.writer = some x ↔ if x = .loseHeartBit then place.holdsWrite = true else t.m_rwLock.writer = some x := by
  split_ifs with hx
  · rw [hx, hp]
    exact h.write .loseHeartBit
  · rfl

/-- At the new place `LoseHeartBitThread` holds what it held. -/
theorem Inv.lose_same {place : LosePlace} {lost : List Int} {infos : List Client} (h : Inv t)
    (hheart : place.holdsHeart = t.lose.holdsHeart) (hwrite : place.holdsWrite = t.lose.holdsWrite) :
    Inv { t with m_clientInfos := infos, m_lostHeartbit := lost, lose := place } :=
  h.lose_to (h.lose_heart hheart) rfl (h.lose_write hwrite)

theorem Inv.stepLose (h : Inv t) (hstep : t.stepLose = .ok t') : Inv t' := by
  rw [HeartbeatMonitor.stepLose] at hstep
  cases hp : t.lose with
  | loop =>
    rw [hp] at hstep
    cases hstep
    split
    · exact h.lose_same (by rw [hp]; rfl) (by rw [hp]; rfl)
    · exact h.lose_same (by rw [hp]; rfl) (by rw [hp]; rfl)
  | lock =>
    rw [hp] at hstep
    obtain ⟨c, hc, hstep⟩ := bind_eq_ok.1 hstep
    cases hstep
    refine h.lose_to (fun x => ?_) rfl (h.lose_write (by rw [hp]; rfl))
    rw [ThreadCtrlExImpl.held_lock hc]
    exact iff_taken rfl
  | test =>
    rw [hp] at hstep
    dsimp only at hstep
    split_ifs at hstep
    · obtain ⟨c, hc, hstep⟩ := bind_eq_ok.1 hstep
      cases hstep
      refine h.lose_to (fun x => ?_) rfl (h.lose_write (by rw [hp]; rfl))
      rw [ThreadCtrlExImpl.held_waitConsume hc]
      exact iff_given rfl
    · cases hstep
      exact h.lose_same (by rw [hp]; rfl) (by rw [hp]; rfl)
  | waiting =>
    rw [hp] at hstep
    obtain ⟨c, hc, hstep⟩ := bind_eq_ok.1 hstep
    cases hstep
    refine h.lose_to (fun x => ?_) rfl (h.lose_write (by rw [hp]; rfl))
    rw [ThreadCtrlExImpl.held_resume hc]
    exact iff_taken rfl
  | kick j =>
    rw [hp] at hstep
    dsimp only at hstep
    cases hj : t.m_lostHeartbit[j]? with
    | none =>
      rw [hj] at hstep
      cases hstep
      exact h.lose_same (by rw [hp]; rfl) (by rw [hp]; rfl)
    | some sock =>
      rw [hj] at hstep
      cases hstep
      split
      · exact h.lose_same (by rw [hp]; rfl) (by rw [hp]; rfl)
      · exact h.lose_same (by rw [hp]; rfl) (by rw [hp]; rfl)
  | lockWrite j sock =>
    rw [hp] at hstep
    obtain ⟨c, hc, hstep⟩ := bind_eq_ok.1 hstep
    cases hstep
    refine h.lose_to (h.lose_heart (by rw [hp]; rfl)) (RWLockImpl.held_lockWrite (y := .loseHeartBit) hc).1 fun x => ?_
    rw [(RWLockImpl.held_lockWrite hc).2]
    exact iff_taken rfl
  | erase j sock =>
    rw [hp] at hstep
    cases hstep
    exact h.lose_same (by rw [hp]; rfl) (by rw [hp]; rfl)
  | unlockWrite j =>
    rw [hp] at hstep
    obtain ⟨c, hc, hstep⟩ := bind_eq_ok.1 hstep
    cases hstep
    refine h.lose_to (h.lose_heart (by rw [hp]; rfl)) (RWLockImpl.held_unlockWrite (y := .loseHeartBit) hc).1 fun x => ?_
    rw [(RWLockImpl.held_unlockWrite hc).2]
    exact iff_given rfl
  | clientExit j =>
    rw [hp] at hstep
    cases hstep
    exact h.lose_same (by rw [hp]; rfl) (by rw [hp]; rfl)
  | unlockRead =>
    -- it does not hold the lock
    rw [hp] at hstep
    obtain ⟨c, hc, -⟩ := bind_eq_ok.1 hstep
    rw [RWLockImpl.unlockRead] at hc
    split_ifs at hc with hheld
    cases (h.read .loseHeartBit).1 hheld
  | ended =>
    rw [hp] at hstep
    cases hstep

theorem Inv.step (h : Inv t) (hstep : t.step a = .ok t') : Inv t' := by
  cases a with
  | heartBit i now => exact h.stepBeat hstep
  | loseHeartBit => exact h.stepLose hstep
  | wake =>
    cases hstep
    exact ⟨h.heart, h.read, h.nodup, h.write⟩

/-- The locks are used as they should be, unless `LoseHeartBitThread` has come to the end of an iteration. -/
theorem disciplined_of_inv (h : Inv t) : Disciplined t ↔ t.lose ≠ .unlockRead := by
  refine ⟨?_, ?_⟩
  · intro hd hp
    have := hd .loseHeartBit
    rw [use, hp] at this
    exact nomatch (h.read .loseHeartBit).1 this
  · intro hne x
    cases x with
    | heartBit i =>
      have hheart := h.heart (.heartBit i)
      have hread := h.read (.heartBit i)
      have hwrite := h.write (.heartBit i)
      rw [holdsHeart] at hheart
      rw [holdsRead] at hread
      rw [holdsWrite] at hwrite
      rw [use]
      cases hp : t.beats i <;>
        simp_all [BeatPlace.use, Allowed, BeatPlace.holdsHeart, BeatPlace.holdsRead]
    | loseHeartBit =>
      have hheart := h.heart .loseHeartBit
      have hread := h.read .loseHeartBit
      have hwrite := h.write .loseHeartBit
      rw [holdsHeart] at hheart
      rw [holdsRead] at hread
      rw [holdsWrite] at hwrite
      rw [use]
      cases hp : t.lose <;>
        simp_all [LosePlace.use, Allowed, LosePlace.holdsHeart, LosePlace.holdsWrite]

theorem inv_run (hrun : acts.foldlM step (begin m_bStart m_HeartBitFlag m_clientInfos) = .ok t) : Inv t :=
  foldlM_run Inv hrun inv_begin fun _ _ _ _ h hstep => h.step hstep

/-- In every run, of any number of calls of `HeartBitHandle`, the locks are used as they should be in every
state, unless `LoseHeartBitThread` has come to the end of an iteration. -/
theorem disciplined_iff (hrun : acts.foldlM step (begin m_bStart m_HeartBitFlag m_clientInfos) = .ok t) :
    Disciplined t ↔ t.lose ≠ .unlockRead := disciplined_of_inv (inv_run hrun)

/-- Two passes of `HeartBitHandle` in time, the second while `LoseHeartBitThread` waits. -/
def quietActions : List Action :=
  .loseHeartBit :: .loseHeartBit :: .loseHeartBit :: List.replicate 12 (.heartBit 0 20)

/-- A server with one client, last heard of at the time 0. -/
def oneClient : HeartbeatMonitor := begin true true [⟨7, RecvSession.init 0 (fun _ => 0) 4096⟩]

theorem disciplined_iff_quiet : ∃ t, quietActions.foldlM step oneClient = .ok t ∧ t.lose = .waiting ∧ Disciplined t := by
  have hended : ∃ t, quietActions.foldlM step oneClient = .ok t ∧ t.lose = .waiting := by decide +kernel
  obtain ⟨t, ht, hlose⟩ := hended
  exact ⟨t, ht, hlose, (disciplined_iff ht).2 (by rw [hlose]; nofun)⟩

/-- A pass finds the client late, and `LoseHeartBitThread` has kicked it. -/
def lostActions : List Action := List.replicate 7 (.heartBit 0 40) ++ List.replicate 9 .loseHeartBit

theorem not_disciplined_lost : ∃ t, lostActions.foldlM step oneClient = .ok t ∧ ¬Disciplined t ∧
    t.step .loseHeartBit = .error .notHeld := by
  have hended : ∃ t, lostActions.foldlM step oneClient = .ok t ∧ t.lose = .unlockRead ∧ t.m_rwLock.readers = 0 := by
    decide +kernel
  obtain ⟨t, ht, hlose, hreaders⟩ := hended
  refine ⟨t, ht, fun h => ?_, ?_⟩
  · have hheld := h .loseHeartBit
    rw [use, hlose] at hheld
    change MonitorThread.loseHeartBit ∈ t.m_rwLock.readers at hheld
    rw [hreaders] at hheld
    exact absurd hheld (Multiset.notMem_zero _)
  · rw [step, stepLose, hlose]
    simp [RWLockImpl.unlockRead, hreaders, bind, Except.bind]

/-! ## Without late clients -/

/-- A pass of `HeartBitHandle` finds no client late. -/
def InTime (t : HeartbeatMonitor) : Action → Prop
  | .heartBit i now => ∀ c rest, t.beats i = .scan (c :: rest) → HeartbitServer.lost now c = false
  | _ => True

/-- No client is listed, and `LoseHeartBitThread` looks for one. -/
structure Quiet (t : HeartbeatMonitor) : Prop where
  lost : t.m_lostHeartbit = []
  lose : t.lose = .loop ∨ t.lose = .lock ∨ t.lose = .test ∨ t.lose = .waiting ∨ t.lose = .ended

theorem Quiet.stepBeat (h : Quiet t) (hok : InTime t (.heartBit i now)) (hstep : t.stepBeat i now = .ok t') : Quiet t' := by
  rw [HeartbeatMonitor.stepBeat] at hstep
  cases hp : t.beats i with
  | idle =>
    rw [hp] at hstep
    cases hstep
    exact ⟨h.lost, h.lose⟩
  | scan rest =>
    rw [hp] at hstep
    cases rest with
    | nil =>
      cases hstep
      exact ⟨h.lost, h.lose⟩
    | cons c rest =>
      cases hstep
      refine ⟨?_, h.lose⟩
      simp only [toBeat, hok c rest hp, Bool.false_eq_true, if_false, h.lost]
  | _ =>
    rw [hp] at hstep
    obtain ⟨c, -, hstep⟩ := bind_eq_ok.1 hstep
    cases hstep
    exact ⟨h.lost, h.lose⟩

theorem Quiet.stepLose (h : Quiet t) (hstep : t.stepLose = .ok t') : Quiet t' := by
  rw [HeartbeatMonitor.stepLose] at hstep
  rcases h.lose with hp | hp | hp | hp | hp
  · rw [hp] at hstep
    cases hstep
    refine ⟨h.lost, ?_⟩
    dsimp only
    split_ifs
    · exact .inr (.inl rfl)
    · exact .inr (.inr (.inr (.inr rfl)))
  · rw [hp] at hstep
    obtain ⟨c, -, hstep⟩ := bind_eq_ok.1 hstep
    cases hstep
    exact ⟨h.lost, .inr (.inr (.inl rfl))⟩
  · rw [hp] at hstep
    dsimp only at hstep
    rw [if_pos h.lost] at hstep
    obtain ⟨c, -, hstep⟩ := bind_eq_ok.1 hstep
    cases hstep
    exact ⟨h.lost, .inr (.inr (.inr (.inl rfl)))⟩
  · rw [hp] at hstep
    obtain ⟨c, -, hstep⟩ := bind_eq_ok.1 hstep
    cases hstep
    exact ⟨h.lost, .inr (.inr (.inl rfl))⟩
  · rw [hp] at hstep
    cases hstep

/-- In every run in which no client is late, the locks are used as they should be. -/
theorem disciplined_in_time (hk : Along step InTime (begin m_bStart m_HeartBitFlag m_clientInfos) acts)
    (hrun : acts.foldlM step (begin m_bStart m_HeartBitFlag m_clientInfos) = .ok t) : Disciplined t := by
  have hquiet := hk.keeps Quiet hrun ⟨rfl, .inl rfl⟩ fun s a s' h hok hstep => by
    cases a with
    | heartBit i now => exact h.stepBeat hok hstep
    | loseHeartBit => exact h.stepLose hstep
    | wake =>
      cases hstep
      exact ⟨h.lost, h.lose⟩
  refine (disciplined_of_inv (inv_run hrun)).2 fun hp => ?_
  have := hquiet.lose
  simp [hp] at this

end HeartbeatMonitor
