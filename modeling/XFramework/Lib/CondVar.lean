/-
A condition variable, for programs whose sections under its mutex are the
steps: the waiters asleep in `wait`, and those a signal has woken that are
still to take the mutex again.

A signal wakes one waiter, whichever the system picks (`Picks`), and nobody
when nobody is asleep. A waiter may also wake without one, which is the same
step. Waiters are told apart only by what they wait for.
-/
import Mathlib.Data.Multiset.AddSub

/-- Why a step is not made: its thread waits. -/
inductive Blocked
  | blocked
  deriving DecidableEq

/-- The waiters of a condition variable. -/
structure CondVar (α : Type) where
  asleep : Multiset α
  woken : Multiset α

namespace CondVar

variable {α : Type} {c : CondVar α} {w x : α}

def new : CondVar α := ⟨0, 0⟩

def sleep (c : CondVar α) (w : α) : CondVar α := { c with asleep := w ::ₘ c.asleep }

def broadcast (c : CondVar α) : CondVar α := ⟨0, c.asleep + c.woken⟩

@[simp] theorem asleep_new : (new : CondVar α).asleep = 0 := rfl

@[simp] theorem woken_new : (new : CondVar α).woken = 0 := rfl

@[simp] theorem asleep_sleep : (c.sleep w).asleep = w ::ₘ c.asleep := rfl

@[simp] theorem woken_sleep : (c.sleep w).woken = c.woken := rfl

@[simp] theorem asleep_broadcast : c.broadcast.asleep = 0 := rfl

@[simp] theorem woken_broadcast : c.broadcast.woken = c.asleep + c.woken := rfl

variable [DecidableEq α]

/-- A signal that picks `w`, or the waiter `w` waking by itself. -/
def signal (c : CondVar α) (w : α) : CondVar α :=
  if w ∈ c.asleep then ⟨c.asleep.erase w, w ::ₘ c.woken⟩ else c

/-- The woken waiter `w` takes the mutex. -/
def resume (c : CondVar α) (w : α) : CondVar α := { c with woken := c.woken.erase w }

/-- A signal may pick `w`. -/
def Picks (c : CondVar α) (w : α) : Prop := w ∈ c.asleep ∨ c.asleep = 0

instance : Decidable (c.Picks w) := inferInstanceAs (Decidable (_ ∨ _))

theorem signal_of_mem (h : w ∈ c.asleep) : c.signal w = ⟨c.asleep.erase w, w ::ₘ c.woken⟩ := if_pos h

@[simp] theorem asleep_resume : (c.resume w).asleep = c.asleep := rfl

@[simp] theorem woken_resume : (c.resume w).woken = c.woken.erase w := rfl

/-- A signal puts nobody to sleep. -/
theorem mem_asleep_of_signal (h : x ∈ (c.signal w).asleep) : x ∈ c.asleep := by
  rw [signal] at h
  split_ifs at h
  · exact Multiset.mem_of_mem_erase h
  · exact h

/-- A signal loses no waiter. -/
theorem waiters_signal : (c.signal w).asleep + (c.signal w).woken = c.asleep + c.woken := by
  by_cases h : w ∈ c.asleep
  · rw [signal_of_mem h, Multiset.add_cons, ← Multiset.cons_add, Multiset.cons_erase h]
  · rw [signal, if_neg h]

end CondVar
