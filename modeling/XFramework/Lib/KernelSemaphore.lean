/-
A semaphore of the kernel: a count between 0 and a maximum.

`release` adds to the count, or leaves it and fails when it would not add
anything or go beyond the maximum; a thread that waits takes one.
-/
import Mathlib.Data.Nat.Notation

namespace KernelSemaphore

/-- The count after `ReleaseSemaphore(h, n, NULL)`. -/
def release (max count n : Nat) : Nat := if 0 < n ∧ count + n ≤ max then count + n else count

variable {max count n : Nat}

theorem release_of_le (hn : 0 < n) (h : count + n ≤ max) : release max count n = count + n := if_pos ⟨hn, h⟩

theorem release_refused (h : max < count + n) : release max count n = count :=
  if_neg fun hand => absurd hand.2 (Nat.not_le.2 h)

theorem release_zero : release max count 0 = count := if_neg fun hand => absurd hand.1 (Nat.lt_irrefl 0)

end KernelSemaphore
