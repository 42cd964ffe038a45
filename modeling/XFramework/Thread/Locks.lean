/-
The locks of the framework (Thread/ThreadCtrlExImpl_Linux.cpp,
Thread/RWLockImpl_Linux.cpp), for threads `ι`: each call is one of pthread,
so a lock knows its holders, and a call waits as pthread says.

What pthread leaves undefined is a fault: to unlock, or to wait on a condition
with, a lock that the thread does not hold.
-/
import XFramework.Lib.CondVar

/-- Why a call does not return: it waits, or its lock is not held. -/
inductive LockFault
  | blocked
  | notHeld
  deriving DecidableEq

/-- A mutex and the condition variable for consumers. -/
structure ThreadCtrlExImpl (ι : Type) where
  m_lock : Option ι
  m_condc : CondVar ι

namespace ThreadCtrlExImpl

variable {ι : Type} {c c' : ThreadCtrlExImpl ι} {x y : ι}

def new : ThreadCtrlExImpl ι := ⟨none, .new⟩

def lock (c : ThreadCtrlExImpl ι) (x : ι) : Except LockFault (ThreadCtrlExImpl ι) :=
  if c.m_lock = none then .ok { c with m_lock := some x } else .error .blocked

/-- Who holds the mutex behind a call: also `x`, or no longer `x`. -/
theorem held_lock (h : c.lock x = .ok c') : c'.m_lock = some y ↔ y = x ∨ c.m_lock = some y := by
  rw [lock] at h
  split_ifs at h with hnone
  cases h
  simp [hnone, eq_comm]

variable [DecidableEq ι]

def unlock (c : ThreadCtrlExImpl ι) (x : ι) : Except LockFault (ThreadCtrlExImpl ι) :=
  if c.m_lock = some x then .ok { c with m_lock := none } else .error .notHeld

/-- `WaitConsume` up to the wait. -/
def waitConsume (c : ThreadCtrlExImpl ι) (x : ι) : Except LockFault (ThreadCtrlExImpl ι) :=
  if c.m_lock = some x then .ok ⟨none, c.m_condc.sleep x⟩ else .error .notHeld

/-- The wait of `WaitConsume` comes back, with the mutex. -/
def resume (c : ThreadCtrlExImpl ι) (x : ι) : Except LockFault (ThreadCtrlExImpl ι) :=
  if x ∈ c.m_condc.woken ∧ c.m_lock = none then .ok ⟨some x, c.m_condc.resume x⟩ else .error .blocked

/-- `WakeConsume(false)`, whose signal picks `x`. -/
def wakeConsume (c : ThreadCtrlExImpl ι) (x : ι) : ThreadCtrlExImpl ι := { c with m_condc := c.m_condc.signal x }

theorem held_resume (h : c.resume x = .ok c') : c'.m_lock = some y ↔ y = x ∨ c.m_lock = some y := by
  rw [resume] at h
  split_ifs at h with hwoken
  cases h
  simp [hwoken.2, eq_comm]

theorem held_unlock (h : c.unlock x = .ok c') : c'.m_lock = some y ↔ y ≠ x ∧ c.m_lock = some y := by
  rw [unlock] at h
  split_ifs at h with hheld
  cases h
  simp [hheld, eq_comm]

theorem held_waitConsume (h : c.waitConsume x = .ok c') : c'.m_lock = some y ↔ y ≠ x ∧ c.m_lock = some y := by
  rw [waitConsume] at h
  split_ifs at h with hheld
  cases h
  simp [hheld, eq_comm]

end ThreadCtrlExImpl

structure RWLockImpl (ι : Type) where
  writer : Option ι
  readers : Multiset ι

namespace RWLockImpl

variable {ι : Type} {c c' : RWLockImpl ι} {x y : ι}

def new : RWLockImpl ι := ⟨none, 0⟩

def lockRead (c : RWLockImpl ι) (x : ι) : Except LockFault (RWLockImpl ι) :=
  if c.writer = none then .ok { c with readers := x ::ₘ c.readers } else .error .blocked

theorem held_lockRead (h : c.lockRead x = .ok c') :
    c'.writer = c.writer ∧ c'.readers = x ::ₘ c.readers := by
  rw [lockRead] at h
  split_ifs at h
  cases h
  exact ⟨rfl, rfl⟩

variable [DecidableEq ι]

def lockWrite (c : RWLockImpl ι) (x : ι) : Except LockFault (RWLockImpl ι) :=
  if c.writer = none ∧ c.readers = 0 then .ok { c with writer := some x } else .error .blocked

def unlockRead (c : RWLockImpl ι) (x : ι) : Except LockFault (RWLockImpl ι) :=
  if x ∈ c.readers then .ok { c with readers := c.readers.erase x } else .error .notHeld

def unlockWrite (c : RWLockImpl ι) (x : ι) : Except LockFault (RWLockImpl ι) :=
  if c.writer = some x then .ok { c with writer := none } else .error .notHeld

theorem held_unlockRead (h : c.unlockRead x = .ok c') :
    c'.writer = c.writer ∧ c'.readers = c.readers.erase x := by
  rw [unlockRead] at h
  split_ifs at h
  cases h
  exact ⟨rfl, rfl⟩

theorem held_lockWrite (h : c.lockWrite x = .ok c') :
    c'.readers = c.readers ∧ (c'.writer = some y ↔ y = x ∨ c.writer = some y) := by
  rw [lockWrite] at h
  split_ifs at h with hfree
  cases h
  simp [hfree.1, eq_comm]

theorem held_unlockWrite (h : c.unlockWrite x = .ok c') :
    c'.readers = c.readers ∧ (c'.writer = some y ↔ y ≠ x ∧ c.writer = some y) := by
  rw [unlockWrite] at h
  split_ifs at h with hheld
  cases h
  simp [hheld, eq_comm]

end RWLockImpl
