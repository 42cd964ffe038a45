/-
The relation tree of types (Pattern/TreeRelation.h).

`relationcmp` looks for one type below the other. When it is found, but not
right below, the function is called again with the parent of the type that was
found in place of the other, so it comes back with one generation more at most.

It tells one generation and two, and nothing else that is further apart
(`relationcmp_iff`); and for types that are not related it gives what it gives
for a type and its grandparent.
-/
import XFramework.Lib.RoseTree
import XFramework.Lib.Fallible
import Mathlib.Data.List.Nodup
import Mathlib.Data.String.Basic

open Fallible RoseTree

/-- `address` is where the node lies, and `st_parent` the address of another, or `none` for NULL. -/
structure TypeNode where
  address : Nat
  st_type : String
  st_parent : Option Nat
  deriving DecidableEq

/-- A node with its `st_children`. -/
abbrev TreeRelation : Type := RoseTree TypeNode

/-- `notInTree` is what `relationcmp` throws. -/
inductive RelationFault
  | assertion
  | notInTree
  | nullPointer
  | outOfFuel
  deriving DecidableEq

namespace TreeRelation

mutual

def findNode (type : String) : TreeRelation → Except RelationFault (Option TreeRelation)
  | .node root st_children =>
    if type = "" then .error .assertion
    else if type = root.st_type then .ok (some (.node root st_children))
    else findChild type st_children

/-- The loop of `findNode`. -/
def findChild (type : String) : List TreeRelation → Except RelationFault (Option TreeRelation)
  | [] => .ok none
  | it :: rest => do
    let ptr ← findNode type it
    match ptr with
    | some ptr => .ok (some ptr)
    | none => findChild type rest

end

/-- `t->st_parent->st_type`. -/
def parentType (root t : TreeRelation) : Except RelationFault String :=
  match t.val.st_parent with
  | none => .error .nullPointer
  | some a =>
    match root.nodes.find? fun p => p.val.address = a with
    | none => .error .nullPointer
    | some p => .ok p.val.st_type

/-- `relationcmp`, with the node of `BaseClass` as the root. -/
def relationcmp (root : TreeRelation) : Nat → String → String → Except RelationFault Int
  | 0, _, _ => .error .outOfFuel
  | fuel + 1, type, typed => do
    let ptrtype ← findNode type root
    let ptrtyped ← findNode typed root
    match ptrtype, ptrtyped with
    | some ptrtype, some ptrtyped =>
      if ptrtype.val.st_parent = ptrtyped.val.st_parent ∨ type = typed then .ok 0
      else do
        let tmptr ← findNode typed ptrtype
        match tmptr with
        | some tmptr =>
          let parent ← parentType root tmptr
          if parent = type then .ok 1
          else do
            let r ← relationcmp root fuel parent typed
            .ok (1 + r)
        | none =>
          let tmptr ← findNode type ptrtyped
          match tmptr with
          | some tmptr =>
            let parent ← parentType root tmptr
            if parent = typed then .ok (-1)
            else do
              let r ← relationcmp root fuel type parent
              .ok (-1 + r)
          | none => .ok (-2)
    | _, _ => .error .notInTree

end TreeRelation

/-- A tree of types with names of their own, whose parent links match the lists of children. -/
structure RelationTree where
  root : TreeRelation
  types : (root.nodes.map fun t => t.val.st_type).Nodup
  addresses : (root.nodes.map fun t => t.val.address).Nodup
  top : root.val.st_parent = none
  linked : ∀ p ∈ root.nodes, ∀ t ∈ p.children, t.val.st_parent = some p.val.address

namespace RelationTree

open TreeRelation

/-- A call for two types of the tree. -/
def compare (T : RelationTree) (x y : TreeRelation) : Except RelationFault Int :=
  relationcmp T.root (T.root.nodes.length + 1) x.val.st_type y.val.st_type

def Siblings (T : RelationTree) (x y : TreeRelation) : Prop := ∃ p ∈ T.root.nodes, x ∈ p.children ∧ y ∈ p.children

def Related (T : RelationTree) (x y : TreeRelation) : Prop := (∃ n, Below n x y) ∨ (∃ n, Below n y x) ∨ T.Siblings x y

/-- The value is the number of generations from `x` down to `y`, or from `y` down to `x` with the other sign, and a value of
its own for types that are not related. -/
def Measures (T : RelationTree) (x y : TreeRelation) : Prop := ∃ v, T.compare x y = .ok v ∧
  (∀ n, Below (n + 1) x y → v = n + 1) ∧ (∀ n, Below (n + 1) y x → v = -(n + 1)) ∧
  (x = y ∨ T.Siblings x y → v = 0) ∧
  (¬T.Related x y → ∀ (T' : RelationTree), ∀ x' ∈ T'.root.nodes, ∀ y' ∈ T'.root.nodes,
    T'.Related x' y' → T'.compare x' y' ≠ .ok v)

/-- One generation, or two with a name in between. -/
def Close (x y : TreeRelation) : Prop := y ∈ x.children ∨ ∃ p ∈ x.children, p.val.st_type ≠ "" ∧ y ∈ p.children

/-- The pairs that are told. -/
def Near (T : RelationTree) (x y : TreeRelation) : Prop :=
  x.val.st_type ≠ "" ∧ y.val.st_type ≠ "" ∧ ((x = y ∨ T.Siblings x y) ∨ Close x y ∨ Close y x)

variable {T : RelationTree} {x y s t p root : TreeRelation} {type : String} {n m fuel : Nat} {v : Int}

/-! ## findNode -/

mutual

theorem findNode_eq (h : type ≠ "") : ∀ t : TreeRelation, findNode type t = .ok (t.nodes.find? fun s => s.val.st_type = type)
  | .node root st_children => by
    rw [findNode, if_neg h, nodes]
    by_cases heq : type = root.st_type
    · rw [if_pos heq, List.find?_cons_of_pos (by simp [RoseTree.val, heq])]
    · rw [if_neg heq, List.find?_cons_of_neg (by simp [RoseTree.val, Ne.symm heq])]
      exact findChild_eq h st_children

theorem findChild_eq (h : type ≠ "") :
    ∀ cs : List TreeRelation, findChild type cs = .ok ((nodesOf cs).find? fun s => s.val.st_type = type)
  | [] => rfl
  | it :: rest => by
    rw [findChild, findNode_eq h it, nodesOf, List.find?_append]
    cases hfind : it.nodes.find? fun s => s.val.st_type = type with
    | none => exact findChild_eq h rest
    | some ptr => rfl

end

theorem eq_of_type (hs : s ∈ T.root.nodes) (ht : t ∈ T.root.nodes) (h : s.val.st_type = t.val.st_type) : s = t :=
  List.inj_on_of_nodup_map T.types hs ht h

theorem findNode_mem (ht : t ∈ T.root.nodes) (hs : s ∈ t.nodes) (hne : s.val.st_type ≠ "") :
    findNode s.val.st_type t = .ok (some s) := by
  rw [findNode_eq hne]
  cases hfind : t.nodes.find? fun r => r.val.st_type = s.val.st_type with
  | none => exact absurd (List.find?_eq_none.1 hfind s hs) (by simp)
  | some r =>
    have htype : r.val.st_type = s.val.st_type := by simpa using List.find?_some hfind
    rw [eq_of_type (nodes_trans ht (List.mem_of_find?_eq_some hfind)) (nodes_trans ht hs) htype]

theorem findNode_not_mem (ht : t ∈ T.root.nodes) (hs : s ∈ T.root.nodes) (hnot : s ∉ t.nodes) (hne : s.val.st_type ≠ "") :
    findNode s.val.st_type t = .ok none := by
  rw [findNode_eq hne, List.find?_eq_none.2 fun r hr htype => hnot ?_]
  rw [← eq_of_type (nodes_trans ht hr) hs (by simpa using htype)]
  exact hr

theorem findNode_unnamed (h : t.val.st_type = "") : findNode t.val.st_type root = .error .assertion := by
  cases root with
  | node a cs => rw [findNode, if_pos h]

/-! ## Parents -/

theorem parentType_child (hp : p ∈ T.root.nodes) (h : t ∈ p.children) : parentType T.root t = .ok p.val.st_type := by
  unfold parentType
  rw [T.linked p hp t h]
  cases hfind : T.root.nodes.find? fun q => q.val.address = p.val.address with
  | none => exact absurd (List.find?_eq_none.1 hfind p hp) (by simp)
  | some q =>
    have haddress : q.val.address = p.val.address := by simpa using List.find?_some hfind
    have heq : q = p := List.inj_on_of_nodup_map T.addresses (List.mem_of_find?_eq_some hfind) hp haddress
    rw [heq] at hfind
    simp only [hfind]

theorem oneParent (T : RelationTree) : OneParent T.root := fun p hp q hq t ht ht' => by
  have haddress := (T.linked p hp t ht).symm.trans (T.linked q hq t ht')
  exact List.inj_on_of_nodup_map T.addresses hp hq (Option.some.inj haddress)

theorem root_or_child (h : t ∈ T.root.nodes) : t = T.root ∨ ∃ p ∈ T.root.nodes, t ∈ p.children := by
  obtain ⟨n, hn⟩ := exists_below h
  cases n with
  | zero => exact .inl hn.symm
  | succ n =>
    obtain ⟨p, hp, ht⟩ := hn
    exact .inr ⟨p, hp.mem, ht⟩

/-- The test of the parent links. -/
theorem same_parent_iff (hx : x ∈ T.root.nodes) (hy : y ∈ T.root.nodes) :
    x.val.st_parent = y.val.st_parent ∨ x.val.st_type = y.val.st_type ↔ x = y ∨ T.Siblings x y := by
  constructor
  case mpr =>
    rintro (rfl | ⟨p, hp, hpx, hpy⟩)
    · exact .inl rfl
    · exact .inl ((T.linked p hp x hpx).trans (T.linked p hp y hpy).symm)
  case mp =>
    rintro (hparent | htype)
    · rcases root_or_child hx with rfl | ⟨p, hp, hpx⟩
      · rcases root_or_child hy with rfl | ⟨q, hq, hqy⟩
        · exact .inl rfl
        · rw [T.top, T.linked q hq y hqy] at hparent
          cases hparent
      · rw [T.linked p hp x hpx] at hparent
        rcases root_or_child hy with rfl | ⟨q, hq, hqy⟩
        · rw [T.top] at hparent
          cases hparent
        · rw [T.linked q hq y hqy] at hparent
          obtain rfl := List.inj_on_of_nodup_map T.addresses hp hq (Option.some.inj hparent)
          exact .inr ⟨p, hp, hpx, hqy⟩
    · exact .inl (eq_of_type hx hy htype)

/-- A type below another is neither the other nor its sibling. -/
theorem below_apart (hx : x ∈ T.root.nodes) (h : Below (n + 1) x y) : ¬(x = y ∨ T.Siblings x y) := by
  rintro (rfl | ⟨p, hp, hpx, hpy⟩)
  · exact not_below_self h
  · obtain ⟨q, hq, hqy⟩ := h
    obtain rfl := T.oneParent p hp q (nodes_trans hx hq.mem) y hpy hqy
    exact not_below_self (show Below (n + 1) x x from ⟨p, hq, hpx⟩)

theorem below_not_above (h : Below (n + 1) x y) : ¬Below m y x := fun h' => by
  have hloop := h.trans h'
  rw [Nat.add_right_comm] at hloop
  exact not_below_self hloop

/-! ## relationcmp -/

theorem relationcmp_zero (hx : x ∈ T.root.nodes) (hy : y ∈ T.root.nodes) (hxn : x.val.st_type ≠ "") (hyn : y.val.st_type ≠ "")
    (h : x = y ∨ T.Siblings x y) : relationcmp T.root (fuel + 1) x.val.st_type y.val.st_type = .ok 0 := by
  rw [relationcmp, findNode_mem self_mem hx hxn, findNode_mem self_mem hy hyn]
  exact if_pos ((same_parent_iff hx hy).2 h)

/-- `y` is found below `x`, and `p` is its parent. -/
theorem relationcmp_below (hx : x ∈ T.root.nodes) (hxn : x.val.st_type ≠ "") (hyn : y.val.st_type ≠ "") (hp : Below n x p)
    (hy : y ∈ p.children) : relationcmp T.root (fuel + 1) x.val.st_type y.val.st_type =
      if p.val.st_type = x.val.st_type then .ok 1 else relationcmp T.root fuel p.val.st_type y.val.st_type >>= fun r => .ok (1 + r) := by
  have hbelow : Below (n + 1) x y := ⟨p, hp, hy⟩
  have hmem := nodes_trans hx hbelow.mem
  have hmemp := nodes_trans hx hp.mem
  rw [relationcmp, findNode_mem self_mem hx hxn, findNode_mem self_mem hmem hyn]
  refine (if_neg fun h => below_apart hx hbelow ((same_parent_iff hx hmem).1 h)).trans ?_
  simp only [findNode_mem hx hbelow.mem hyn, parentType_child hmemp hy, bind, Except.bind]

/-- `x` is found below `y`, and `p` is its parent. -/
theorem relationcmp_above (hy : y ∈ T.root.nodes) (hxn : x.val.st_type ≠ "") (hyn : y.val.st_type ≠ "") (hp : Below n y p)
    (hx : x ∈ p.children) : relationcmp T.root (fuel + 1) x.val.st_type y.val.st_type =
      if p.val.st_type = y.val.st_type then .ok (-1) else relationcmp T.root fuel x.val.st_type p.val.st_type >>= fun r => .ok (-1 + r) := by
  have hbelow : Below (n + 1) y x := ⟨p, hp, hx⟩
  have hmem := nodes_trans hy hbelow.mem
  have hmemp := nodes_trans hy hp.mem
  have hnot : y ∉ x.nodes := fun h => by
    obtain ⟨m, hm⟩ := exists_below h
    exact below_not_above hbelow hm
  have hapart : ¬(x = y ∨ T.Siblings x y) := by
    rintro (rfl | ⟨q, hq, hqx, hqy⟩)
    · exact not_below_self hbelow
    · exact below_apart hy hbelow (.inr ⟨q, hq, hqy, hqx⟩)
  rw [relationcmp, findNode_mem self_mem hmem hxn, findNode_mem self_mem hy hyn]
  refine (if_neg fun h => hapart ((same_parent_iff hmem hy).1 h)).trans ?_
  simp only [findNode_not_mem hmem hy hnot hyn, findNode_mem hy hbelow.mem hxn, parentType_child hmemp hx, bind,
    Except.bind]

theorem relationcmp_unrelated (hx : x ∈ T.root.nodes) (hy : y ∈ T.root.nodes) (hxn : x.val.st_type ≠ "")
    (hyn : y.val.st_type ≠ "") (h : ¬T.Related x y) :
    relationcmp T.root (fuel + 1) x.val.st_type y.val.st_type = .ok (-2) := by
  have hbelow : y ∉ x.nodes := fun hmem => h (.inl (exists_below hmem))
  have habove : x ∉ y.nodes := fun hmem => h (.inr (.inl (exists_below hmem)))
  have hapart : ¬(x = y ∨ T.Siblings x y) := by
    rintro (rfl | hsiblings)
    · exact hbelow self_mem
    · exact h (.inr (.inr hsiblings))
  rw [relationcmp, findNode_mem self_mem hx hxn, findNode_mem self_mem hy hyn]
  refine (if_neg fun hsame => hapart ((same_parent_iff hx hy).1 hsame)).trans ?_
  simp only [findNode_not_mem hx hy hbelow hyn, findNode_not_mem hy hx habove hxn, bind, Except.bind]

/-- The assertion fails for a type without a name. -/
theorem relationcmp_unnamed (h : x.val.st_type = "" ∨ y.val.st_type = "") :
    relationcmp root fuel x.val.st_type y.val.st_type ≠ .ok v := by
  cases fuel with
  | zero => exact nofun
  | succ fuel =>
    rw [relationcmp]
    intro hok
    obtain ⟨ptrtype, htype, hok⟩ := bind_eq_ok.1 hok
    obtain ⟨ptrtyped, htyped, -⟩ := bind_eq_ok.1 hok
    rcases h with h | h
    · rw [findNode_unnamed h] at htype
      cases htype
    · rw [findNode_unnamed h] at htyped
      cases htyped

/-! ## The generations it tells -/

/-- The search has so many calls left. -/
theorem calls_left (T : RelationTree) : ∃ fuel, T.root.nodes.length + 1 = fuel + 2 := by
  have hpos : 0 < T.root.nodes.length := List.length_pos_of_mem self_mem
  exact ⟨T.root.nodes.length - 1, by omega⟩

theorem compare_zero (hx : x ∈ T.root.nodes) (hy : y ∈ T.root.nodes) (hxn : x.val.st_type ≠ "") (hyn : y.val.st_type ≠ "")
    (h : x = y ∨ T.Siblings x y) : T.compare x y = .ok 0 := relationcmp_zero hx hy hxn hyn h

theorem compare_child (hx : x ∈ T.root.nodes) (hxn : x.val.st_type ≠ "") (hyn : y.val.st_type ≠ "") (h : y ∈ x.children) :
    T.compare x y = .ok 1 :=
  (relationcmp_below hx hxn hyn (show Below 0 x x from rfl) h).trans (if_pos rfl)

theorem compare_parent (hy : y ∈ T.root.nodes) (hxn : x.val.st_type ≠ "") (hyn : y.val.st_type ≠ "") (h : x ∈ y.children) :
    T.compare x y = .ok (-1) :=
  (relationcmp_above hy hxn hyn (show Below 0 y y from rfl) h).trans (if_pos rfl)

/-- Further down the second call finds `y` right below its parent. -/
theorem compare_below (hx : x ∈ T.root.nodes) (hxn : x.val.st_type ≠ "") (hyn : y.val.st_type ≠ "") (hp : Below (n + 1) x p)
    (hy : y ∈ p.children) (hpn : p.val.st_type ≠ "") : T.compare x y = .ok 2 := by
  obtain ⟨fuel, hfuel⟩ := calls_left T
  have hmem := nodes_trans hx hp.mem
  have hne : p.val.st_type ≠ x.val.st_type := fun h => below_apart hx hp (.inl (eq_of_type hx hmem h.symm))
  have hsecond : relationcmp T.root (fuel + 1) p.val.st_type y.val.st_type = .ok 1 :=
    (relationcmp_below hmem hpn hyn (show Below 0 p p from rfl) hy).trans (if_pos rfl)
  rw [compare, hfuel, relationcmp_below hx hxn hyn hp hy, if_neg hne, hsecond]
  rfl

theorem compare_above (hy : y ∈ T.root.nodes) (hxn : x.val.st_type ≠ "") (hyn : y.val.st_type ≠ "") (hp : Below (n + 1) y p)
    (hx : x ∈ p.children) (hpn : p.val.st_type ≠ "") : T.compare x y = .ok (-2) := by
  obtain ⟨fuel, hfuel⟩ := calls_left T
  have hmem := nodes_trans hy hp.mem
  have hne : p.val.st_type ≠ y.val.st_type := fun h => below_apart hy hp (.inl (eq_of_type hy hmem h.symm))
  have hsecond : relationcmp T.root (fuel + 1) x.val.st_type p.val.st_type = .ok (-1) :=
    (relationcmp_above hmem hxn hpn (show Below 0 p p from rfl) hx).trans (if_pos rfl)
  rw [compare, hfuel, relationcmp_above hy hxn hyn hp hx, if_neg hne, hsecond]
  rfl

/-- The second call is for the parent, which has no name. -/
theorem compare_below_unnamed (hx : x ∈ T.root.nodes) (hxn : x.val.st_type ≠ "") (hyn : y.val.st_type ≠ "")
    (hp : Below n x p) (hy : y ∈ p.children) (hpn : p.val.st_type = "") : T.compare x y ≠ .ok v := by
  have hne : p.val.st_type ≠ x.val.st_type := fun h => hxn (h.symm.trans hpn)
  rw [compare, relationcmp_below hx hxn hyn hp hy, if_neg hne]
  intro hok
  obtain ⟨r, hr, -⟩ := bind_eq_ok.1 hok
  exact relationcmp_unnamed (.inl hpn) hr

theorem compare_above_unnamed (hy : y ∈ T.root.nodes) (hxn : x.val.st_type ≠ "") (hyn : y.val.st_type ≠ "")
    (hp : Below n y p) (hx : x ∈ p.children) (hpn : p.val.st_type = "") : T.compare x y ≠ .ok v := by
  have hne : p.val.st_type ≠ y.val.st_type := fun h => hyn (h.symm.trans hpn)
  rw [compare, relationcmp_above hy hxn hyn hp hx, if_neg hne]
  intro hok
  obtain ⟨r, hr, -⟩ := bind_eq_ok.1 hok
  exact relationcmp_unnamed (.inr hpn) hr

theorem Siblings.symm (h : T.Siblings x y) : T.Siblings y x := by
  obtain ⟨p, hp, hpx, hpy⟩ := h
  exact ⟨p, hp, hpy, hpx⟩

/-- What is told of a type that is below the other. -/
theorem measures_below (hx : x ∈ T.root.nodes) (h : Below (n + 1) x y) (hv : T.compare x y = .ok v) :
    T.Measures x y ↔ v = n + 1 := by
  constructor
  case mp =>
    rintro ⟨v', hv', hdown, -⟩
    rw [hv] at hv'
    cases hv'
    exact hdown n h
  case mpr =>
    intro heq
    refine ⟨v, hv, fun m hm => ?_, fun m hm => absurd hm (below_not_above h), fun hsame => absurd hsame (below_apart hx h),
      fun hnot => absurd (.inl ⟨_, h⟩) hnot⟩
    have hgen := generations_unique T.oneParent hx h hm
    omega

theorem measures_above (hy : y ∈ T.root.nodes) (h : Below (n + 1) y x) (hv : T.compare x y = .ok v) :
    T.Measures x y ↔ v = -(n + 1) := by
  constructor
  case mp =>
    rintro ⟨v', hv', -, hup, -⟩
    rw [hv] at hv'
    cases hv'
    exact hup n h
  case mpr =>
    intro heq
    refine ⟨v, hv, fun m hm => absurd hm (below_not_above h), fun m hm => ?_,
      fun hsame => absurd (hsame.imp Eq.symm Siblings.symm) (below_apart hy h), fun hnot => absurd (.inr (.inl ⟨_, h⟩)) hnot⟩
    have hgen := generations_unique T.oneParent hy h hm
    omega

theorem measures_zero (hx : x ∈ T.root.nodes) (hy : y ∈ T.root.nodes) (h : x = y ∨ T.Siblings x y)
    (hv : T.compare x y = .ok 0) : T.Measures x y := by
  refine ⟨0, hv, fun m hm => absurd h (below_apart hx hm),
    fun m hm => absurd (h.imp Eq.symm Siblings.symm) (below_apart hy hm), fun _ => rfl, fun hnot => absurd ?_ hnot⟩
  rcases h with rfl | h
  · exact .inl ⟨0, rfl⟩
  · exact .inr (.inr h)

/-- Three types, one below the other. -/
def chain : RelationTree where
  root := .node ⟨0, "Base", none⟩ [.node ⟨1, "Child1", some 0⟩ [.node ⟨2, "Child2", some 1⟩ []]]
  types := by decide
  addresses := by decide
  top := rfl
  linked := by decide

/-- A type and its grandparent have the value of those that are not related. -/
theorem chain_above : ∃ x ∈ chain.root.nodes, ∃ y ∈ chain.root.nodes, chain.Related x y ∧ chain.compare x y = .ok (-2) :=
  ⟨.node ⟨2, "Child2", some 1⟩ [], List.mem_cons_of_mem _ (List.mem_cons_of_mem _ List.mem_cons_self), chain.root,
    List.mem_cons_self, .inr (.inl ⟨2, _, ⟨_, rfl, List.mem_cons_self⟩, List.mem_cons_self⟩), rfl⟩

theorem not_measures_unrelated (h : ¬T.Related x y) (hv : T.compare x y = .ok (-2)) : ¬T.Measures x y := by
  rintro ⟨v, hv', -, -, -, hown⟩
  rw [hv] at hv'
  cases hv'
  obtain ⟨x', hx', y', hy', hrelated, hsame⟩ := chain_above
  exact hown h chain x' hx' y' hy' hrelated hsame

theorem Measures.named (h : T.Measures x y) : x.val.st_type ≠ "" ∧ y.val.st_type ≠ "" := by
  obtain ⟨v, hv, -⟩ := h
  exact ⟨fun h => relationcmp_unnamed (.inl h) hv, fun h => relationcmp_unnamed (.inr h) hv⟩

/-- With a parent that is below `x`, a type is close to `x` when the parent is right below and has a name. -/
theorem close_iff (hx : x ∈ T.root.nodes) (hp : Below (n + 1) x p) (hy : y ∈ p.children) :
    Close x y ↔ n = 0 ∧ p.val.st_type ≠ "" := by
  have hbelow : Below (n + 2) x y := ⟨p, hp, hy⟩
  constructor
  case mp =>
    rintro (hchild | ⟨q, hq, hqn, hqy⟩)
    · have hgen := generations_unique T.oneParent hx hbelow (show Below 1 x y from ⟨x, rfl, hchild⟩)
      omega
    · have hgen := generations_unique T.oneParent hx hbelow (show Below 2 x y from ⟨q, ⟨x, rfl, hq⟩, hqy⟩)
      obtain rfl := T.oneParent p (nodes_trans hx hp.mem) q (nodes_trans hx (child_mem hq)) y hy hqy
      exact ⟨by omega, hqn⟩
  case mpr =>
    rintro ⟨rfl, hpn⟩
    obtain ⟨r, rfl, hpr⟩ := hp
    exact .inr ⟨p, hpr, hpn, hy⟩

/-- Of types below each other those are told that are close. -/
theorem measures_below_iff (hx : x ∈ T.root.nodes) (hxn : x.val.st_type ≠ "") (hyn : y.val.st_type ≠ "")
    (h : Below (n + 1) x y) : T.Measures x y ↔ Close x y := by
  obtain ⟨p, hp, hy⟩ := id h
  cases n with
  | zero =>
    obtain rfl := hp
    exact iff_of_true ((measures_below hx h (compare_child hx hxn hyn hy)).2 rfl) (.inl hy)
  | succ n =>
    rw [close_iff hx hp hy]
    by_cases hpn : p.val.st_type = ""
    · refine iff_of_false (fun hm => ?_) fun hand => hand.2 hpn
      obtain ⟨v, hv, -⟩ := hm
      exact compare_below_unnamed hx hxn hyn hp hy hpn hv
    · rw [measures_below hx h (compare_below hx hxn hyn hp hy hpn), and_iff_left hpn]
      omega

theorem measures_above_iff (hy : y ∈ T.root.nodes) (hxn : x.val.st_type ≠ "") (hyn : y.val.st_type ≠ "")
    (h : Below (n + 1) y x) : T.Measures x y ↔ Close y x := by
  obtain ⟨p, hp, hx⟩ := id h
  cases n with
  | zero =>
    obtain rfl := hp
    exact iff_of_true ((measures_above hy h (compare_parent hy hxn hyn hx)).2 rfl) (.inl hx)
  | succ n =>
    rw [close_iff hy hp hx]
    by_cases hpn : p.val.st_type = ""
    · refine iff_of_false (fun hm => ?_) fun hand => hand.2 hpn
      obtain ⟨v, hv, -⟩ := hm
      exact compare_above_unnamed hy hxn hyn hp hx hpn hv
    · rw [measures_above hy h (compare_above hy hxn hyn hp hx hpn), and_iff_left hpn]
      omega

theorem Close.below (h : Close x y) : ∃ n, Below (n + 1) x y := by
  rcases h with hchild | ⟨p, hp, -, hy⟩
  · exact ⟨0, x, rfl, hchild⟩
  · exact ⟨1, p, ⟨x, rfl, hp⟩, hy⟩

theorem related_cases (h : T.Related x y) :
    (x = y ∨ T.Siblings x y) ∨ (∃ n, Below (n + 1) x y) ∨ ∃ n, Below (n + 1) y x := by
  rcases h with ⟨n, hn⟩ | ⟨n, hn⟩ | hsiblings
  · cases n with
    | zero => exact .inl (.inl hn)
    | succ n => exact .inr (.inl ⟨n, hn⟩)
  · cases n with
    | zero => exact .inl (.inl (Eq.symm hn))
    | succ n => exact .inr (.inr ⟨n, hn⟩)
  · exact .inl (.inr hsiblings)

/-- The generations are measured of two types with names, when they are the same or have the same parent, or are one
generation apart or two with a name in between, and only then. -/
theorem relationcmp_iff (hx : x ∈ T.root.nodes) (hy : y ∈ T.root.nodes) : T.Measures x y ↔ T.Near x y := by
  constructor
  case mp =>
    intro h
    obtain ⟨hxn, hyn⟩ := h.named
    refine ⟨hxn, hyn, ?_⟩
    by_cases hrelated : T.Related x y
    · rcases related_cases hrelated with hsame | ⟨n, hn⟩ | ⟨n, hn⟩
      · exact .inl hsame
      · exact .inr (.inl ((measures_below_iff hx hxn hyn hn).1 h))
      · exact .inr (.inr ((measures_above_iff hy hxn hyn hn).1 h))
    · exact absurd h (not_measures_unrelated hrelated (relationcmp_unrelated hx hy hxn hyn hrelated))
  case mpr =>
    rintro ⟨hxn, hyn, hsame | hclose | hclose⟩
    · exact measures_zero hx hy hsame (compare_zero hx hy hxn hyn hsame)
    · obtain ⟨n, hn⟩ := hclose.below
      exact (measures_below_iff hx hxn hyn hn).2 hclose
    · obtain ⟨n, hn⟩ := hclose.below
      exact (measures_above_iff hy hxn hyn hn).2 hclose

theorem relationcmp_chain : chain.Measures chain.root (.node ⟨2, "Child2", some 1⟩ []) :=
  (relationcmp_iff List.mem_cons_self (List.mem_cons_of_mem _ (List.mem_cons_of_mem _ List.mem_cons_self))).2
    ⟨by decide, by decide, .inr (.inl (.inr ⟨_, List.mem_cons_self, by decide, List.mem_cons_self⟩))⟩

/-- Four types, one below the other. -/
def longChain : RelationTree where
  root := .node ⟨0, "Base", none⟩
    [.node ⟨1, "Child1", some 0⟩ [.node ⟨2, "Child2", some 1⟩ [.node ⟨3, "Child3", some 2⟩ []]]]
  types := by decide
  addresses := by decide
  top := rfl
  linked := by decide

/-- Three generations are told as two. -/
theorem not_measures_three : ∃ y ∈ longChain.root.nodes, Below 3 longChain.root y ∧
    longChain.compare longChain.root y = .ok 2 ∧ ¬longChain.Measures longChain.root y := by
  have hbelow : Below 3 longChain.root (.node ⟨3, "Child3", some 2⟩ []) :=
    ⟨_, ⟨_, ⟨_, rfl, List.mem_cons_self⟩, List.mem_cons_self⟩, List.mem_cons_self⟩
  refine ⟨_, hbelow.mem, hbelow, rfl, fun h => ?_⟩
  obtain ⟨v, hv, hdown, -⟩ := h
  cases hv
  exact absurd (hdown 2 hbelow) (by decide)

end RelationTree
