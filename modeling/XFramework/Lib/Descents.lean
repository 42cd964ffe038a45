/-
Parents and children: a relation in which a child has one parent only, and
comes after it. The descendants of a node are its tree; two children of one
parent have none in common, and a change elsewhere leaves a tree as it is.
-/
import Mathlib.Logic.Relation
import Mathlib.Order.Basic

open Relation

namespace Descents

universe u

variable {α : Type u} {r r' : α → α → Prop} {a b c y : α}

theorem le_of_descends [Preorder α] (hlt : ∀ a b, r a b → a < b) (h : ReflTransGen r a b) : a ≤ b := by
  induction h with
  | refl => exact le_refl a
  | tail _ hr ih => exact ih.trans (hlt _ _ hr).le

/-- A child is no ancestor of its parent. -/
theorem not_descends_parent [Preorder α] (hlt : ∀ a b, r a b → a < b) (hb : r a b) : ¬ReflTransGen r b a :=
  fun h => absurd (hlt a b hb) (not_lt_of_ge (le_of_descends hlt h))

/-- Of two ancestors of one node, one is an ancestor of the other. -/
theorem ancestors_total (hone : ∀ a b c, r a c → r b c → a = b) (hb : ReflTransGen r b y) (hc : ReflTransGen r c y) :
    ReflTransGen r b c ∨ ReflTransGen r c b := by
  induction hb with
  | refl => exact .inr hc
  | tail hb hr ih =>
    cases hc with
    | refl => exact .inl (hb.tail hr)
    | tail hc hr' => exact ih (hone _ _ _ hr hr' ▸ hc)

/-- Two children of one parent have no descendant in common. -/
theorem siblings_apart [Preorder α] (hone : ∀ a b c, r a c → r b c → a = b) (hlt : ∀ a b, r a b → a < b) (hb : r a b)
    (hc : r a c) (hne : b ≠ c) (hby : ReflTransGen r b y) : ¬ReflTransGen r c y := by
  intro hcy
  cases ancestors_total hone hby hcy with
  | inl h =>
    cases h with
    | refl => exact hne rfl
    | tail h hr => exact not_descends_parent hlt hb (hone _ _ _ hr hc ▸ h)
  | inr h =>
    cases h with
    | refl => exact hne rfl
    | tail h hr => exact not_descends_parent hlt hc (hone _ _ _ hr hb ▸ h)

/-- What is the same at the nodes of a tree leaves the tree the same. -/
theorem descends_congr (h : ∀ b c, ReflTransGen r a b → (r' b c ↔ r b c)) : ReflTransGen r' a y ↔ ReflTransGen r a y := by
  refine ⟨?_, ?_⟩
  · intro hy
    induction hy with
    | refl => exact .refl
    | tail _ hr ih => exact ih.tail ((h _ _ ih).1 hr)
  · intro hy
    induction hy with
    | refl => exact .refl
    | tail hb hr ih => exact ih.tail ((h _ _ hb).2 hr)

end Descents
