/-
Trees whose nodes have any number of children.

`nodes` are the subtrees in the order of a search that looks at a node before
its children. Where a node is a child of one node only, each is a fixed number
of generations below those above it (`generations_unique`).
-/
import Mathlib.Data.List.Basic

inductive RoseTree (α : Type)
  | node (val : α) (children : List (RoseTree α))

namespace RoseTree

variable {α : Type} {root t s x y p q : RoseTree α} {n m : Nat}

def val : RoseTree α → α
  | .node a _ => a

def children : RoseTree α → List (RoseTree α)
  | .node _ cs => cs

mutual

def nodes : RoseTree α → List (RoseTree α)
  | .node a cs => .node a cs :: nodesOf cs

def nodesOf : List (RoseTree α) → List (RoseTree α)
  | [] => []
  | c :: cs => nodes c ++ nodesOf cs

end

theorem mem_nodesOf {cs : List (RoseTree α)} : s ∈ nodesOf cs ↔ ∃ c ∈ cs, s ∈ c.nodes := by
  induction cs with
  | nil => simp [nodesOf]
  | cons c cs ih => simp [nodesOf, ih]

theorem mem_nodes : s ∈ t.nodes ↔ s = t ∨ ∃ c ∈ t.children, s ∈ c.nodes := by
  cases t with
  | node a cs => simp [nodes, mem_nodesOf, children]

theorem self_mem : t ∈ t.nodes := mem_nodes.2 (.inl rfl)

theorem child_mem (h : s ∈ t.children) : s ∈ t.nodes := mem_nodes.2 (.inr ⟨s, h, self_mem⟩)

theorem sizeOf_child (h : s ∈ t.children) : sizeOf s < sizeOf t := by
  cases t with
  | node a cs =>
    have := List.sizeOf_lt_of_mem (show s ∈ cs from h)
    simp only [node.sizeOf_spec]
    omega

/-- What holds of a tree when it holds of its children holds of all. -/
theorem induction {P : RoseTree α → Prop} (h : ∀ t, (∀ c ∈ t.children, P c) → P t) (t : RoseTree α) : P t :=
  h t fun c _ => induction h c
termination_by sizeOf t
decreasing_by exact sizeOf_child ‹_›

theorem nodes_trans (hs : s ∈ t.nodes) (hx : x ∈ s.nodes) : x ∈ t.nodes := by
  induction t using induction with
  | h t ih =>
    rcases mem_nodes.1 hs with rfl | ⟨c, hc, hs⟩
    · exact hx
    · exact mem_nodes.2 (.inr ⟨c, hc, ih c hc hs⟩)

/-! ## Generations -/

/-- `y` is so many generations below `x`. -/
def Below : Nat → RoseTree α → RoseTree α → Prop
  | 0, x, y => x = y
  | n + 1, x, y => ∃ p, Below n x p ∧ y ∈ p.children

theorem Below.of_child {c : RoseTree α} (hc : c ∈ x.children) (h : Below n c y) : Below (n + 1) x y := by
  induction n generalizing y with
  | zero =>
    cases h
    exact ⟨x, rfl, hc⟩
  | succ n ih =>
    obtain ⟨p, hp, hy⟩ := h
    exact ⟨p, ih hp, hy⟩

theorem Below.mem (h : Below n x y) : y ∈ x.nodes := by
  induction n generalizing y with
  | zero =>
    cases h
    exact self_mem
  | succ n ih =>
    obtain ⟨p, hp, hy⟩ := h
    exact nodes_trans (ih hp) (child_mem hy)

theorem exists_below (h : y ∈ x.nodes) : ∃ n, Below n x y := by
  induction x using induction with
  | h x ih =>
    rcases mem_nodes.1 h with rfl | ⟨c, hc, hy⟩
    · exact ⟨0, rfl⟩
    · obtain ⟨n, hn⟩ := ih c hc hy
      exact ⟨n + 1, hn.of_child hc⟩

theorem Below.sizeOf_lt (h : Below (n + 1) x y) : sizeOf y < sizeOf x := by
  induction n generalizing y with
  | zero =>
    obtain ⟨p, rfl, hy⟩ := h
    exact sizeOf_child hy
  | succ n ih =>
    obtain ⟨p, hp, hy⟩ := h
    exact Nat.lt_trans (sizeOf_child hy) (ih hp)

/-- No node is below itself. -/
theorem not_below_self : ¬Below (n + 1) x x := fun h => Nat.lt_irrefl _ h.sizeOf_lt

theorem Below.trans (h : Below n x y) (h' : Below m y t) : Below (n + m) x t := by
  induction m generalizing t with
  | zero =>
    cases h'
    exact h
  | succ m ih =>
    obtain ⟨p, hp, ht⟩ := h'
    exact ⟨p, ih hp, ht⟩

/-- A node is a child of one node only. -/
def OneParent (root : RoseTree α) : Prop :=
  ∀ p ∈ root.nodes, ∀ q ∈ root.nodes, ∀ y, y ∈ p.children → y ∈ q.children → p = q

theorem generations_unique (h : OneParent root) (hx : x ∈ root.nodes) (hn : Below n x y) (hm : Below m x y) : n = m := by
  induction n generalizing y m with
  | zero =>
    cases hn
    cases m with
    | zero => rfl
    | succ m => exact absurd hm not_below_self
  | succ n ih =>
    cases m with
    | zero =>
      cases hm
      exact absurd hn not_below_self
    | succ m =>
      obtain ⟨p, hp, hy⟩ := hn
      obtain ⟨q, hq, hy'⟩ := hm
      obtain rfl := h p (nodes_trans hx hp.mem) q (nodes_trans hx hq.mem) y hy hy'
      rw [ih hp hq]

end RoseTree
