/-
Objects with an identity: a heap hands out a fresh identity for every object
and never uses one twice, so that a pointer to an object that is gone is told
from one to an object made later.
-/
import Mathlib.Data.List.Basic

/-- The objects by identity, `none` for one that is gone. -/
abbrev Heap (α : Type) := List (Option α)

namespace Heap

variable {α : Type} {h : Heap α} {i j : Nat} {a b : α}

def read (h : Heap α) (i : Nat) : Option α := h[i]?.join

/-- A new object; its identity is `h.length`. -/
def new (h : Heap α) (a : α) : Heap α := h ++ [some a]

def write (h : Heap α) (i : Nat) (a : α) : Heap α := h.set i (some a)

def free (h : Heap α) (i : Nat) : Heap α := h.set i none

@[simp] theorem length_new (h : Heap α) (a : α) : (new h a).length = h.length + 1 := by simp [new]

@[simp] theorem length_write (h : Heap α) (i : Nat) (a : α) : (write h i a).length = h.length := by simp [write]

@[simp] theorem length_free (h : Heap α) (i : Nat) : (free h i).length = h.length := by simp [free]

theorem lt_of_read (hr : read h i = some a) : i < h.length := by
  by_cases hi : i < h.length
  · exact hi
  · rw [read, List.getElem?_eq_none (Nat.le_of_not_gt hi)] at hr
    cases hr

theorem read_new (h : Heap α) (a : α) (j : Nat) : read (new h a) j = if j = h.length then some a else read h j := by
  rw [read, new, List.getElem?_append]
  split_ifs with hj hjl hjl
  · omega
  · rfl
  · subst hjl
    simp
  · rw [read, List.getElem?_eq_none (Nat.le_of_not_gt hj), List.getElem?_eq_none]
    simp only [List.length_singleton]
    omega

theorem read_write (hi : i < h.length) (a : α) (j : Nat) : read (write h i a) j = if j = i then some a else read h j := by
  rw [read, write, List.getElem?_set]
  split_ifs with hij hji hji
  · rfl
  · exact absurd hij.symm hji
  · exact absurd hji.symm hij
  · rfl

theorem read_free (h : Heap α) (i j : Nat) : read (free h i) j = if j = i then none else read h j := by
  rw [read, free, List.getElem?_set]
  split_ifs with hij hi hji hji hji
  · rfl
  · exact absurd hij.symm hji
  · rfl
  · exact absurd hij.symm hji
  · exact absurd hji.symm hij
  · rfl

theorem read_new_other (hr : read h i = some b) : read (new h a) i = some b := by
  rw [read_new, if_neg (Nat.ne_of_lt (lt_of_read hr)), hr]

theorem read_write_other (hij : j ≠ i) : read (write h i a) j = read h j := by
  rw [read, write, List.getElem?_set_ne hij.symm, read]

end Heap
