/-
A System V semaphore set, and processes that use it with `SEM_UNDO`.

`semop` makes its operations in their order, all of them or, when one of them
has to wait, none. For every process the kernel keeps the adjustments that
take its operations back when it exits. So a semaphore and the adjustments
of all processes to it have one sum, whatever the processes do.
-/
import Mathlib

/-- One entry of the array `semop` takes. -/
structure SemBuf (ι : Type*) where
  sem_num : ι
  sem_op : Int
  deriving DecidableEq

/-- The counts, and for each process what its exit adds to them. -/
structure SemSet (P ι : Type*) where
  val : ι → Int
  undo : P → ι → Int

namespace SemSet

variable {P ι : Type*} {s s' : SemSet P ι} {p : P} {o : SemBuf ι} {ops : List (SemBuf ι)} {val val' init : ι → Int}

/-- The operation does not have to wait: a wait for zero, or a count that does not go below it. -/
def Ready (val : ι → Int) (o : SemBuf ι) : Prop :=
  if o.sem_op = 0 then val o.sem_num = 0 else 0 ≤ val o.sem_num + o.sem_op

instance : Decidable (Ready val o) := inferInstanceAs (Decidable (ite ..))

theorem ready_zero {k : ι} : Ready val ⟨k, 0⟩ ↔ val k = 0 := iff_of_eq (if_pos rfl)

theorem ready_of_ne {k : ι} {n : Int} (hn : n ≠ 0) : Ready val ⟨k, n⟩ ↔ 0 ≤ val k + n := iff_of_eq (if_neg hn)

section Exit

variable [DecidableEq P]

/-- The process exits: its adjustments are made, no count going below zero. -/
def exit (s : SemSet P ι) (p : P) : SemSet P ι where
  val k := max 0 (s.val k + s.undo p k)
  undo := Function.update s.undo p 0

/-- A process that has taken back what it did leaves the set as it is. -/
theorem exit_eq (h : s.undo p = 0) (hval : ∀ k, 0 ≤ s.val k) : s.exit p = s := by
  cases s with
  | mk val undo =>
    rw [exit, mk.injEq]
    refine ⟨funext fun k => ?_, by rw [← h, Function.update_eq_self]⟩
    rw [h, Pi.zero_apply, Int.add_zero, max_eq_right (hval k)]

end Exit

variable [DecidableEq P] [DecidableEq ι]

/-- The operations one after the other. -/
def operate (val : ι → Int) : List (SemBuf ι) → Option (ι → Int)
  | [] => some val
  | o :: ops =>
    if Ready val o then operate (Function.update val o.sem_num (val o.sem_num + o.sem_op)) ops else none

/-- What the operations add to a semaphore. -/
def net : List (SemBuf ι) → ι → Int
  | [], _ => 0
  | o :: ops, k => (if o.sem_num = k then o.sem_op else 0) + net ops k

/-- The set after operations none of which had to wait. -/
def made (s : SemSet P ι) (p : P) (ops : List (SemBuf ι)) : SemSet P ι where
  val k := s.val k + net ops k
  undo := Function.update s.undo p fun k => s.undo p k - net ops k

/-- `semop` with `SEM_UNDO` in every entry; `none` while the process has to wait. -/
def semop (s : SemSet P ι) (p : P) (ops : List (SemBuf ι)) : Option (SemSet P ι) :=
  (operate s.val ops).map fun val => { s.made p ops with val }

theorem made_val (k : ι) : (s.made p ops).val k = s.val k + net ops k := rfl

theorem made_undo_self (k : ι) : (s.made p ops).undo p k = s.undo p k - net ops k := by simp [made]

theorem made_undo_of_ne {q : P} (h : q ≠ p) : (s.made p ops).undo q = s.undo q := Function.update_of_ne h _ _

theorem made_nil : s.made p [] = s := by
  cases s with
  | mk val undo => simp [made, net]

theorem operate_eq (h : operate val ops = some val') : val' = fun k => val k + net ops k := by
  induction ops generalizing val with
  | nil =>
    cases h
    funext k
    exact (Int.add_zero _).symm
  | cons o ops ih =>
    rw [operate] at h
    split at h
    · rw [ih h]
      funext k
      rw [net, ← Int.add_assoc]
      by_cases hk : o.sem_num = k
      · subst hk
        rw [Function.update_self, if_pos rfl]
      · rw [Function.update_of_ne (Ne.symm hk), if_neg hk, Int.add_zero]
    · cases h

/-- Operations on different semaphores do not meet each other. -/
theorem operate_isSome (hnodup : (ops.map SemBuf.sem_num).Nodup) : (operate val ops).isSome ↔ ∀ o ∈ ops, Ready val o := by
  induction ops generalizing val with
  | nil => exact iff_of_true rfl (List.forall_mem_nil _)
  | cons o ops ih =>
    rw [List.map_cons, List.nodup_cons] at hnodup
    rw [operate, List.forall_mem_cons]
    split
    case isFalse hready => exact iff_of_false Bool.false_ne_true fun h => hready h.1
    case isTrue hready =>
      rw [ih hnodup.2, and_iff_right hready]
      refine forall₂_congr fun o' ho' => ?_
      have hne : o'.sem_num ≠ o.sem_num := fun h => hnodup.1 (h ▸ List.mem_map_of_mem ho')
      rw [Ready, Ready, Function.update_of_ne hne]

theorem semop_eq_some (hnodup : (ops.map SemBuf.sem_num).Nodup) :
    s.semop p ops = some s' ↔ (∀ o ∈ ops, Ready s.val o) ∧ s' = s.made p ops := by
  rw [← operate_isSome hnodup, semop]
  cases h : operate s.val ops with
  | none => simp
  | some val =>
    have hval : { s.made p ops with val } = s.made p ops := by rw [operate_eq h, made]
    rw [Option.map_some, Option.some_inj, hval]
    simp [eq_comm]

/-! ## What a set and its processes have together -/

/-- The counts and the adjustments to them have the sum `init`. -/
def Balanced [Fintype P] (s : SemSet P ι) (init : ι → Int) : Prop := ∀ k, s.val k + ∑ q, s.undo q k = init k

theorem Balanced.made [Fintype P] (h : s.Balanced init) : (s.made p ops).Balanced init := by
  intro k
  have hsplit := fun g : P → Int => Finset.add_sum_erase Finset.univ g (Finset.mem_univ p)
  have hrest : ∑ q ∈ Finset.univ.erase p, (s.made p ops).undo q k = ∑ q ∈ Finset.univ.erase p, s.undo q k :=
    Finset.sum_congr rfl fun q hq => by rw [made_undo_of_ne (Finset.ne_of_mem_erase hq)]
  rw [← h k, ← hsplit, ← hsplit fun q => s.undo q k, hrest, made_undo_self, made_val]
  omega

end SemSet
