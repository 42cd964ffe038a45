/-
The threads of a system as a list of the places they are at: a step of the
thread `i` replaces the entry `i`.
-/
import Mathlib

namespace Threads

variable {α : Type*} {p : α → Bool} {l : List α} {i : Nat} {a b : α}

/-- The thread that makes the step, and the others. -/
theorem split (h : l[i]? = some a) : ∃ l₁ l₂, l = l₁ ++ a :: l₂ ∧ ∀ b, l.set i b = l₁ ++ b :: l₂ := by
  obtain ⟨hlt, rfl⟩ := List.getElem?_eq_some_iff.1 h
  refine ⟨l.take i, l.drop (i + 1), ?_, fun b => List.set_eq_take_append_cons_drop .. |>.trans (if_pos hlt)⟩
  rw [List.getElem_cons_drop, List.take_append_drop]

/-- How many threads are at some places, when one makes a step. -/
theorem countP_set (h : l[i]? = some a) : (l.set i b).countP p + (p a).toNat = l.countP p + (p b).toNat := by
  obtain ⟨l₁, l₂, hl, hset⟩ := split h
  have hcons : ∀ x, (l₁ ++ x :: l₂).countP p = l₁.countP p + l₂.countP p + (p x).toNat := fun x => by
    rw [List.countP_append, List.countP_cons]
    cases p x with
    | false => simp
    | true =>
      simp
      omega
  rw [hset, hl, hcons, hcons]
  omega

/-- What the threads have together, when one makes a step. -/
theorem sum_set (f : α → Nat) (h : l[i]? = some a) : ((l.set i b).map f).sum + f a = (l.map f).sum + f b := by
  obtain ⟨l₁, l₂, hl, hset⟩ := split h
  rw [hset, hl]
  simp only [List.map_append, List.map_cons, List.sum_append, List.sum_cons]
  omega

/-- What relates the threads behind a step to others relates the threads before it to them. -/
theorem forall₂_of_set {R : α → α → Prop} {l' : List α} (h : l[i]? = some a) (hR : ∀ c, R b c → R a c)
    (hall : List.Forall₂ R (l.set i b) l') : List.Forall₂ R l l' := by
  induction l generalizing i l' with
  | nil => cases h
  | cons x l ih =>
    cases i with
    | zero =>
      cases h
      obtain ⟨c, l', hb, hrest, rfl⟩ := List.forall₂_cons_left_iff.1 hall
      exact .cons (hR c hb) hrest
    | succ i =>
      obtain ⟨c, l', hx, hrest, rfl⟩ := List.forall₂_cons_left_iff.1 hall
      exact .cons hx (ih h hrest)

theorem countP_concat : (l ++ [a]).countP p = l.countP p + (p a).toNat := by
  rw [List.countP_append, List.countP_singleton]
  cases p a <;> rfl

/-- A thread begins behind the others. -/
theorem getElem?_concat {k : Nat} : (l ++ [a])[k]? = some b ↔ l[k]? = some b ∨ k = l.length ∧ a = b := by
  by_cases hlt : k < l.length
  · rw [List.getElem?_append_left hlt]
    exact (or_iff_left fun h => by omega).symm
  · by_cases heq : k = l.length
    · simp [heq]
    · rw [List.getElem?_eq_none (by rw [List.length_append, List.length_singleton]; omega), List.getElem?_eq_none (by omega)]
      simp [heq]

end Threads
