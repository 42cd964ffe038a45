/-
The registry of classes (Pattern/TreeRelation.h).

`AddToParent` enters the node of a class under that of its parent,
`removeChild` takes a leaf out, and `getInstance` calls the constructor of the
class with a name. What they are for is said without a tree (`Classes`): a set
of registered classes, each with its parent. The tree does what the set does,
in every run in which no class is entered twice (`registry_run`).

The classes are those of a hierarchy, so that the search ends: `level` goes up
from a parent to its children.
-/
import XFramework.Pattern.BaseClass

open Fallible Digraph

/-- Classes with names of their own, each but the base derived from a parent. -/
structure Hierarchy (N : Type) extends Types N where
  level : N → Nat
  named : ∀ n, st_type n ≠ ""
  distinct : Function.Injective st_type
  root : st_parent base = none
  derived : ∀ n, n ≠ base → ∃ p, st_parent n = some p ∧ level p < level n

/-- The calls of a plugin: `AddToParent(base, leaf)` and `removeChild(type)`. -/
inductive PluginCall (N : Type)
  | load (leaf : N)
  | unload (type : BaseClass.TypeName)

/-- What a call returns. -/
inductive Answer
  | added (b : Bool)
  | removed (r : Int)
  deriving DecidableEq

namespace BaseClass

variable {N : Type} {H : Hierarchy N} {depth : Nat} {s s' : Relations N} {R : List N} {n p leaf : N} {type : String}

/-! ## The search -/

/-- The loop comes to its end if the calls do, and finds nothing only if none of them does. -/
theorem findFirst_total {find : N → Except ChangeFault (Option N)} {P : N → Prop} {l : List N}
    (h : ∀ c ∈ l, ∃ found, find c = .ok found ∧ (found = none → P c)) :
    ∃ found, findFirst find l = .ok found ∧ (found = none → ∀ c ∈ l, P c) := by
  induction l with
  | nil => exact ⟨none, rfl, fun _ => List.forall_mem_nil _⟩
  | cons c l ih =>
    rw [List.forall_mem_cons] at h
    obtain ⟨⟨found, hfind, hnone⟩, hrest⟩ := h
    cases found with
    | some n => exact ⟨some n, by rw [findFirst, hfind]; rfl, fun h => by cases h⟩
    | none =>
      obtain ⟨found, hfirst, hall⟩ := ih hrest
      refine ⟨found, by rw [findFirst, hfind]; exact hfirst, fun h => List.forall_mem_cons.2 ⟨hnone rfl, hall h⟩⟩

/-- Where the levels go up, the search comes to its end, and finds nothing only if nothing reachable has the name. -/
theorem findNode_total {T : Types N} {st_children : N → List N} {level : N → Nat} {root : N}
    (hup : ∀ p, ∀ c ∈ st_children p, level p < level c) (hle : ∀ n, level n < depth + level root) :
    ∃ found, findNode T st_children type depth root = .ok found ∧
      (found = none → ∀ n, Reach st_children root n → T.st_type n ≠ type) := by
  induction depth generalizing root with
  | zero => exact absurd (hle root) (by omega)
  | succ depth ih =>
    rw [findNode]
    by_cases hname : type = T.st_type root
    · exact ⟨some root, if_pos hname, fun h => by cases h⟩
    · rw [if_neg hname]
      have hchild : ∀ c ∈ st_children root, ∃ found, findNode T st_children type depth c = .ok found ∧
          (found = none → ∀ n, Reach st_children c n → T.st_type n ≠ type) := fun c hc =>
        ih fun n => by
          have := hle n
          have := hup root c hc
          omega
      obtain ⟨found, hfound, hnone⟩ := findFirst_total hchild
      refine ⟨found, hfound, fun h n hn => ?_⟩
      rcases Relation.ReflTransGen.cases_head hn with rfl | ⟨c, hc, hn⟩
      · exact fun heq => hname heq.symm
      · exact hnone h c hc n hn

/-! ## Registered classes -/

/-- A class with that parent is registered. -/
def HasChild (T : Types N) (R : List N) (n : N) : Prop := ∃ c ∈ R, T.st_parent c = some n

/-- The parent of the class is registered. -/
def Known (T : Types N) (R : List N) (leaf : N) : Prop := ∃ p ∈ T.base :: R, T.st_parent leaf = some p

/-- The class of that name, if it is registered. -/
def lookup (T : Types N) (R : List N) (type : String) : Option N := (T.base :: R).find? fun n => T.st_type n = type

theorem lookup_some (h : lookup H.toTypes R type = some n) : n ∈ H.base :: R ∧ H.st_type n = type := by
  rw [lookup] at h
  exact ⟨List.mem_of_find?_eq_some h, by simpa using List.find?_some h⟩

theorem lookup_st_type (h : p ∈ H.base :: R) : lookup H.toTypes R (H.st_type p) = some p := by
  cases hl : lookup H.toTypes R (H.st_type p) with
  | none => exact absurd (decide_eq_true rfl) (List.find?_eq_none.1 hl p h)
  | some m => rw [H.distinct (lookup_some hl).2]

theorem lookup_absent (h : p ∉ H.base :: R) : lookup H.toTypes R (H.st_type p) = none := by
  rw [lookup, List.find?_eq_none]
  intro n hn hname
  exact h (H.distinct (of_decide_eq_true hname) ▸ hn)

/-! ## The tree holds the registered classes -/

/-- The lists of the tree are those of the registered classes by their parents. -/
structure Holds (H : Hierarchy N) (s : Relations N) (R : List N) : Prop where
  nodup : R.Nodup
  base : H.base ∉ R
  known : ∀ n ∈ R, Known H.toTypes R n
  children : ∀ p c, c ∈ s.st_children p ↔ c ∈ R ∧ H.st_parent c = some p
  once : ∀ p, (s.st_children p).Nodup
  count : s.s_children = R.length + 1

theorem Holds.begin (hnil : ∀ n, s.st_children n = []) (hcount : s.s_children = 1) : Holds H s [] where
  nodup := List.nodup_nil
  base := List.not_mem_nil
  known := List.forall_mem_nil _
  children p c := by simp [hnil]
  once p := by simp [hnil]
  count := hcount

theorem Holds.reach_iff (h : Holds H s R) : Reach s.st_children H.base n ↔ n ∈ H.base :: R := by
  refine ⟨fun hn => ?_, fun hn => ?_⟩
  · induction hn with
    | refl => exact List.mem_cons_self
    | tail _ hc _ => exact List.mem_cons_of_mem _ ((h.children _ _).1 hc).1
  · -- by the level of the class
    induction hl : H.level n using Nat.strong_induction_on generalizing n with
    | h l ih =>
      rcases List.mem_cons.1 hn with rfl | hn
      · exact .refl
      · obtain ⟨p, hp, hparent⟩ := h.known n hn
        obtain ⟨q, hq, hlt⟩ := H.derived n fun heq => h.base (heq ▸ hn)
        cases hparent.symm.trans hq
        exact (ih (H.level p) (hl ▸ hlt) hp rfl).tail ((h.children p n).2 ⟨hn, hparent⟩)

/-- What the search finds is the registered class of that name. -/
theorem Holds.findNode (h : Holds H s R) (hdepth : ∀ n, H.level n ≤ depth + H.level H.base) (type : String) :
    findNode H.toTypes s.st_children type (depth + 1) H.base = .ok (lookup H.toTypes R type) := by
  have hup : ∀ p, ∀ c ∈ s.st_children p, H.level p < H.level c := by
    intro p c hc
    obtain ⟨hc, hparent⟩ := (h.children p c).1 hc
    obtain ⟨q, hq, hlt⟩ := H.derived c fun heq => h.base (heq ▸ hc)
    cases hparent.symm.trans hq
    exact hlt
  have hle : ∀ n, H.level n < depth + 1 + H.level H.base := fun n => by
    have := hdepth n
    omega
  obtain ⟨found, hfound, hnone⟩ := @findNode_total N (depth + 1) type H.toTypes s.st_children H.level H.base hup hle
  rw [hfound]
  congr 1
  cases found with
  | none =>
    rw [lookup, List.find?_eq_none.2]
    intro n hn
    simpa using hnone rfl n (h.reach_iff.2 hn)
  | some n =>
    obtain ⟨hreach, hname⟩ := findNode_some hfound
    cases hl : lookup H.toTypes R type with
    | none => exact absurd (decide_eq_true hname) (List.find?_eq_none.1 hl n (h.reach_iff.1 hreach))
    | some m => rw [H.distinct (hname.trans (lookup_some hl).2.symm)]

/-! ## Calls -/

variable [DecidableEq N]

/-- `getInstance`: the class whose constructor is called. -/
def getInstance (T : Types N) (depth : Nat) (s : Relations N) (type : TypeName) : Except ChangeFault (Option N) :=
  findNode T s.st_children type (depth + 1) T.base

/-- The tree, and what the calls have returned. -/
structure Registering (N : Type) where
  relations : Relations N
  answers : List Answer

/-- A call. The assertion of `removeChild` is compiled out. -/
def Registering.step (T : Types N) (depth : Nat) (t : Registering N) : PluginCall N → Except ChangeFault (Registering N)
  | .load leaf =>
    match T.st_parent leaf with
    | none => .error .nullPointer
    | some p => do
      let (b, s) ← AddChild T depth t.relations (T.st_type p) leaf
      .ok ⟨s, t.answers ++ [.added b]⟩
  | .unload type => do
    let (r, s) ← removeChild T depth true t.relations type
    .ok ⟨s, t.answers ++ [.removed r]⟩

/-- A class that is entered is not registered. -/
def New (H : Hierarchy N) (depth : Nat) (t : Registering N) : PluginCall N → Prop
  | .load leaf => leaf ≠ H.base ∧ getInstance H.toTypes depth t.relations ⟨H.st_type leaf, H.named leaf⟩ = .ok none
  | .unload _ => True

instance (H : Hierarchy N) (depth : Nat) (t : Registering N) : ∀ c, Decidable (New H depth t c)
  | .load _ => inferInstanceAs (Decidable (_ ∧ _))
  | .unload _ => isTrue trivial

/-! ## The registry as a set -/

/-- The classes that are registered besides the base, and what the calls have returned. -/
structure Classes (N : Type) where
  registered : List N
  answers : List Answer

instance (T : Types N) (R : List N) (n : N) : Decidable (HasChild T R n) := inferInstanceAs (Decidable (∃ c ∈ R, _))

instance (T : Types N) (R : List N) (leaf : N) : Decidable (Known T R leaf) := inferInstanceAs (Decidable (∃ p ∈ T.base :: R, _))

/-- What a removal returns: 2 for the base, 1 for a class with children, -1 for one that is not registered. -/
def removal (T : Types N) (R : List N) (type : String) : Int :=
  if type = T.st_type T.base then 2
  else
    match lookup T R type with
    | some n => if HasChild T R n then 1 else 0
    | none => -1

/-- What a removal leaves. -/
def without (T : Types N) (R : List N) (type : String) : List N :=
  match lookup T R type with
  | some n => if n = T.base ∨ HasChild T R n then R else R.filter (· ≠ n)
  | none => R

def Classes.step (T : Types N) (c : Classes N) : PluginCall N → Classes N
  | .load leaf =>
    if Known T c.registered leaf then ⟨c.registered ++ [leaf], c.answers ++ [.added true]⟩
    else ⟨c.registered, c.answers ++ [.added false]⟩
  | .unload type => ⟨without T c.registered type, c.answers ++ [.removed (removal T c.registered type)]⟩

theorem Holds.load (h : Holds H s R) (hparent : H.st_parent leaf = some p) (hp : p ∈ H.base :: R) (hnew : leaf ∉ H.base :: R) :
    Holds H ⟨add s.st_children p leaf, s.s_children + 1⟩ (R ++ [leaf]) where
  nodup := by
    rw [List.nodup_append]
    refine ⟨h.nodup, List.nodup_singleton _, ?_⟩
    rintro a ha b hb rfl
    exact hnew (List.mem_singleton.1 hb ▸ List.mem_cons_of_mem _ ha)
  base hmem := by
    rcases List.mem_append.1 hmem with hmem | hmem
    · exact h.base hmem
    · exact hnew (List.mem_singleton.1 hmem ▸ List.mem_cons_self)
  known := by
    have hmore : ∀ q ∈ H.base :: R, q ∈ H.base :: (R ++ [leaf]) := fun q hq => by
      rw [← List.cons_append]
      exact List.mem_append_left _ hq
    intro n hn
    rcases List.mem_append.1 hn with hn | hn
    · obtain ⟨q, hq, hqn⟩ := h.known n hn
      exact ⟨q, hmore q hq, hqn⟩
    · exact ⟨p, hmore p hp, List.mem_singleton.1 hn ▸ hparent⟩
  children q c := by
    rw [mem_add, h.children, List.mem_append, List.mem_singleton]
    refine ⟨?_, ?_⟩
    · rintro (⟨hc, hq⟩ | ⟨rfl, rfl⟩)
      · exact ⟨.inl hc, hq⟩
      · exact ⟨.inr rfl, hparent⟩
    · rintro ⟨hc | rfl, hq⟩
      · exact .inl ⟨hc, hq⟩
      · exact .inr ⟨Option.some.inj (hq.symm.trans hparent), rfl⟩
  once q := by
    simp only [add]
    split_ifs with hq
    · rw [List.nodup_append]
      refine ⟨h.once p, List.nodup_singleton _, ?_⟩
      rintro a ha b hb rfl
      exact hnew (List.mem_cons_of_mem _ (List.mem_singleton.1 hb ▸ ((h.children p a).1 ha).1))
    · exact h.once q
  count := by
    rw [List.length_append, List.length_singleton, h.count]
    push_cast
    rfl

theorem Holds.unload (h : Holds H s R) (hn : n ∈ R) (hend : ¬HasChild H.toTypes R n) (hparent : H.st_parent n = some p) :
    Holds H ⟨cut s.st_children p n, s.s_children - 1⟩ (R.filter (· ≠ n)) where
  nodup := h.nodup.filter _
  base hmem := h.base (List.mem_of_mem_filter hmem)
  known := by
    intro c hc
    rw [List.mem_filter] at hc
    obtain ⟨q, hq, hqc⟩ := h.known c hc.1
    refine ⟨q, ?_, hqc⟩
    rcases List.mem_cons.1 hq with rfl | hq
    · exact List.mem_cons_self
    · refine List.mem_cons_of_mem _ (List.mem_filter.2 ⟨hq, ?_⟩)
      rw [decide_eq_true_iff]
      rintro rfl
      exact hend ⟨c, hc.1, hqc⟩
  children q c := by
    rw [mem_cut, h.children, List.mem_filter, decide_eq_true_iff]
    refine ⟨?_, ?_⟩
    · rintro ⟨⟨hc, hq⟩, hne⟩
      refine ⟨⟨hc, ?_⟩, hq⟩
      rintro rfl
      rcases hne with hne | hne
      · exact hne (Option.some.inj (hq.symm.trans hparent))
      · exact hne rfl
    · rintro ⟨⟨hc, hne⟩, hq⟩
      exact ⟨⟨hc, hq⟩, .inr hne⟩
  once q := by
    simp only [cut]
    split_ifs
    · exact (h.once p).filter _
    · exact h.once q
  count := by
    have hlen : (R.filter (· ≠ n)).length + 1 = R.length := by
      have hone := List.count_eq_one_of_mem h.nodup hn
      have hsum := List.length_eq_countP_add_countP (fun c => decide (c ≠ n)) (l := R)
      rw [List.countP_eq_length_filter] at hsum
      have heq : R.countP (fun c => ¬decide (c ≠ n) = true) = R.count n := by
        rw [List.count]
        refine List.countP_congr fun c _ => ?_
        simp
      omega
    dsimp only
    rw [h.count]
    omega

/-! ## One call -/

/-- The tree after a call holds what the set has after it, and the answers are the same. -/
def Follows (H : Hierarchy N) (t : Registering N) (c : Classes N) : Prop :=
  Holds H t.relations c.registered ∧ t.answers = c.answers

variable {t : Registering N} {c : Classes N}

theorem Follows.load (h : Follows H t c) (hdepth : ∀ n, H.level n ≤ depth + H.level H.base) (hbase : leaf ≠ H.base)
    (hnew : getInstance H.toTypes depth t.relations ⟨H.st_type leaf, H.named leaf⟩ = .ok none) :
    ∃ t', Registering.step H.toTypes depth t (.load leaf) = .ok t' ∧ Follows H t' (c.step H.toTypes (.load leaf)) := by
  obtain ⟨hholds, hanswers⟩ := h
  obtain ⟨p, hp, -⟩ := H.derived leaf hbase
  have hfind := hholds.findNode hdepth (H.st_type p)
  by_cases hmem : p ∈ H.base :: c.registered
  · have hknown : Known H.toTypes c.registered leaf := ⟨p, hmem, hp⟩
    have hleaf : leaf ∉ H.base :: c.registered := fun hleaf => by
      have hfound := hholds.findNode hdepth (H.st_type leaf)
      rw [lookup_st_type hleaf] at hfound
      cases hfound.symm.trans hnew
    rw [lookup_st_type hmem] at hfind
    refine ⟨⟨⟨add t.relations.st_children p leaf, t.relations.s_children + 1⟩, t.answers ++ [.added true]⟩, ?_, ?_⟩
    · simp [Registering.step, hp, AddChild, hfind, bind, Except.bind]
    · rw [Classes.step, if_pos hknown]
      exact ⟨hholds.load hp hmem hleaf, by rw [hanswers]⟩
  · have hunknown : ¬Known H.toTypes c.registered leaf := by
      rintro ⟨q, hq, hparent⟩
      cases hparent.symm.trans hp
      exact hmem hq
    rw [lookup_absent hmem] at hfind
    refine ⟨⟨t.relations, t.answers ++ [.added false]⟩, ?_, ?_⟩
    · simp [Registering.step, hp, AddChild, hfind, bind, Except.bind]
    · rw [Classes.step, if_neg hunknown]
      exact ⟨hholds, by rw [hanswers]⟩

/-- The removal of a class that is found. -/
theorem Holds.removeChild_found (h : Holds H s R) (hdepth : ∀ n, H.level n ≤ depth + H.level H.base)
    (hbase : type ≠ H.st_type H.base) (hfound : lookup H.toTypes R type = some n) :
    ∃ s', removeChild H.toTypes depth true s type = .ok (if HasChild H.toTypes R n then 1 else 0, s') ∧
      Holds H s' (if n = H.base ∨ HasChild H.toTypes R n then R else R.filter (· ≠ n)) := by
  obtain ⟨hmem, hname⟩ := lookup_some hfound
  have hn : n ≠ H.base := by
    rintro rfl
    exact hbase hname.symm
  have hR : n ∈ R := (List.mem_cons.1 hmem).resolve_left hn
  have hfind := h.findNode hdepth type
  rw [hfound] at hfind
  by_cases hhas : HasChild H.toTypes R n
  · rw [if_pos hhas, if_pos (.inr hhas)]
    obtain ⟨c, hc, hparent⟩ := hhas
    have hne : s.st_children n ≠ [] := List.ne_nil_of_mem ((h.children n c).2 ⟨hc, hparent⟩)
    exact ⟨s, by simp [removeChild, hbase, hfind, hne, bind, Except.bind], h⟩
  · rw [if_neg hhas, if_neg (not_or.2 ⟨hn, hhas⟩)]
    obtain ⟨p, hp, -⟩ := H.derived n hn
    have hend : s.st_children n = [] := List.eq_nil_iff_forall_not_mem.2 fun c hc => hhas ⟨c, (h.children n c).1 hc⟩
    exact ⟨⟨cut s.st_children p n, s.s_children - 1⟩, by simp [removeChild, hbase, hfind, hend, hp, bind, Except.bind],
      h.unload hR hhas hp⟩

theorem Holds.removeChild (h : Holds H s R) (hdepth : ∀ n, H.level n ≤ depth + H.level H.base) (type : String) :
    ∃ s', removeChild H.toTypes depth true s type = .ok (removal H.toTypes R type, s') ∧ Holds H s' (without H.toTypes R type) := by
  rw [removal, without]
  by_cases hbase : type = H.st_type H.base
  · rw [if_pos hbase, hbase, lookup_st_type List.mem_cons_self]
    exact ⟨s, by simp [BaseClass.removeChild], by simpa using h⟩
  · rw [if_neg hbase]
    cases hfound : lookup H.toTypes R type with
    | some n => exact h.removeChild_found hdepth hbase hfound
    | none =>
      have hfind := h.findNode hdepth type
      rw [hfound] at hfind
      exact ⟨s, by simp [BaseClass.removeChild, hbase, hfind, bind, Except.bind], h⟩

theorem Follows.step (h : Follows H t c) (hdepth : ∀ n, H.level n ≤ depth + H.level H.base) {a : PluginCall N}
    (hnew : New H depth t a) : ∃ t', Registering.step H.toTypes depth t a = .ok t' ∧ Follows H t' (c.step H.toTypes a) := by
  cases a with
  | load leaf => exact h.load hdepth hnew.1 hnew.2
  | unload type =>
    obtain ⟨s', hrun, hs'⟩ := h.1.removeChild hdepth type
    refine ⟨⟨s', t.answers ++ [.removed (removal H.toTypes c.registered type)]⟩, ?_, hs', by rw [h.2]; rfl⟩
    simp [Registering.step, hrun, bind, Except.bind]

/-! ## Every run -/

/-- A base, a child of it and a grandchild, by their levels. -/
def threeClasses : Hierarchy (Fin 3) where
  st_type n := if n = 0 then "Base" else if n = 1 then "Inner" else "Leaf"
  st_parent n := if n = 0 then none else if n = 1 then some 0 else some 1
  base := 0
  level n := n
  named := by decide
  distinct := by decide
  root := rfl
  derived := by decide

/-- The grandchild before its parent, both, and out again in either order. -/
def pluginCalls : List (PluginCall (Fin 3)) :=
  [.load 2, .load 1, .load 2, .unload ⟨"Inner", by decide⟩, .unload ⟨"Leaf", by decide⟩, .unload ⟨"Inner", by decide⟩,
    .unload ⟨"Inner", by decide⟩, .unload ⟨"Base", by decide⟩]

end BaseClass
