/-
The calls that change the relation tree (Pattern/TreeRelation.h).

The nodes have their names and parents from the static construction; the
lists of children change, and `s_children` counts. Nothing keeps a leaf from
being added twice or under another node than its parent, the assertion of
`removeChild` is the wrong way round, and `clearReleation` takes elements out of
the list that it goes through.
-/
import XFramework.Lib.Digraph
import XFramework.Lib.Fallible

open Fallible Digraph

/-- The nodes of the types, with that of `BaseClass`; `none` is NULL. -/
structure Types (N : Type) where
  st_type : N → String
  st_parent : N → Option N
  base : N

/-- The lists of the nodes, and the count. -/
structure Relations (N : Type) where
  st_children : N → List N
  s_children : Int

/-- An assertion that fails, a NULL pointer, an iterator whose element is erased, and a recursion without an end. -/
inductive ChangeFault
  | assertion
  | nullPointer
  | erased
  | stackOverflow
  deriving DecidableEq

namespace BaseClass

variable {N : Type} {T : Types N} {n p root leaf : N} {type : String} {l : List N} {depth : Nat}

/-- The loop of `findNode`. -/
def findFirst (find : N → Except ChangeFault (Option N)) : List N → Except ChangeFault (Option N)
  | [] => .ok none
  | it :: rest => do
    match ← find it with
    | some ptr => .ok (some ptr)
    | none => findFirst find rest

/-- `depth` is how many calls the stack has room for. -/
def findNode (T : Types N) (st_children : N → List N) (type : String) : Nat → N → Except ChangeFault (Option N)
  | 0, _ => .error .stackOverflow
  | depth + 1, root =>
    if type = T.st_type root then .ok (some root)
    else findFirst (findNode T st_children type depth) (st_children root)

theorem findFirst_some {find : N → Except ChangeFault (Option N)} (h : findFirst find l = .ok (some n)) :
    ∃ c ∈ l, find c = .ok (some n) := by
  induction l with
  | nil => cases h
  | cons c l ih =>
    obtain ⟨r, hr, h⟩ := bind_eq_ok.1 h
    cases r with
    | some ptr =>
      cases h
      exact ⟨c, List.mem_cons_self, hr⟩
    | none =>
      obtain ⟨x, hx, hfind⟩ := ih h
      exact ⟨x, List.mem_cons_of_mem _ hx, hfind⟩

/-- What is found is reachable, and has the name. -/
theorem findNode_some {st_children : N → List N} (h : findNode T st_children type depth root = .ok (some n)) :
    Reach st_children root n ∧ T.st_type n = type := by
  induction depth generalizing root with
  | zero => cases h
  | succ depth ih =>
    rw [findNode] at h
    split at h
    next hname =>
      cases h
      exact ⟨.refl, hname.symm⟩
    next =>
      obtain ⟨c, hc, hfind⟩ := findFirst_some h
      obtain ⟨hreach, hname⟩ := ih hfind
      exact ⟨hreach.head hc, hname⟩

variable [DecidableEq N]

def AddChild (T : Types N) (depth : Nat) (s : Relations N) (parenttype : String) (leaf : N) :
    Except ChangeFault (Bool × Relations N) := do
  match ← findNode T s.st_children parenttype (depth + 1) T.base with
  | some node => .ok (true, ⟨add s.st_children node leaf, s.s_children + 1⟩)
  | none => .ok (false, s)

def removeChild (T : Types N) (depth : Nat) (ndebug : Bool) (s : Relations N) (type : String) :
    Except ChangeFault (Int × Relations N) :=
  if ndebug = false ∧ type ≠ "" then .error .assertion
  else if type = T.st_type T.base then .ok (2, s)
  else do
    match ← findNode T s.st_children type (depth + 1) T.base with
    | some ptype =>
      if s.st_children ptype = [] then
        match T.st_parent ptype with
        | some p => .ok (0, ⟨cut s.st_children p ptype, s.s_children - 1⟩)
        | none => .error .nullPointer
      else .ok (1, s)
    | none => .ok (-1, s)

/-- The loop of `clearReleation` over the list of `root`, of which the elements in the last argument are still to come. One
that was taken out before is not met; where the current one was, the iterator cannot go on. -/
def clearEach (clear : Relations N → N → Except ChangeFault (Relations N)) (root : N) :
    List N → Relations N → Except ChangeFault (Relations N)
  | [], s => .ok s
  | it :: rest, s =>
    if it ∈ s.st_children root then do
      let s ← clear s it
      if it ∈ s.st_children root then clearEach clear root rest s else .error .erased
    else clearEach clear root rest s

def clearReleation (T : Types N) : Nat → Relations N → N → Except ChangeFault (Relations N)
  | 0, _, _ => .error .stackOverflow
  | depth + 1, s, root =>
    if s.st_children root = [] then
      if root = T.base then .ok s
      else
        match T.st_parent root with
        | some p => .ok { s with st_children := cut s.st_children p root }
        | none => .error .nullPointer
    else do
      let s ← clearEach (clearReleation T depth) root (s.st_children root) s
      .ok { s with s_children := 1 }

def clearTreeReleation (T : Types N) (depth : Nat) (s : Relations N) : Except ChangeFault (Relations N) :=
  clearReleation T (depth + 1) s T.base

/-! ## Calls -/

abbrev TypeName : Type := { type : String // type ≠ "" }

inductive Call (N : Type)
  | AddChild (parenttype : TypeName) (leaf : N)
  | removeChild (type : TypeName)
  | clearTreeReleation

/-- What a call leaves. -/
def call (T : Types N) (depth : Nat) (ndebug : Bool) (s : Relations N) : Call N → Except ChangeFault (Relations N)
  | .AddChild parenttype leaf => (AddChild T depth s parenttype leaf).map Prod.snd
  | .removeChild type => (removeChild T depth ndebug s type).map Prod.snd
  | .clearTreeReleation => clearTreeReleation T depth s

/-- `getChildrenCount()` is the number of nodes that are reachable, and each of them is in the list of its parent once. -/
structure Consistent (T : Types N) (s : Relations N) : Prop where
  count : s.s_children = {n | Reach s.st_children T.base n}.ncard
  held : ∀ n, Reach s.st_children T.base n → n ≠ T.base → ∃ p, T.st_parent n = some p ∧ (s.st_children p).count n = 1

/-- A leaf of that type is in the tree. -/
def HasLeaf (T : Types N) (s : Relations N) (type : String) : Prop :=
  ∃ n, Reach s.st_children T.base n ∧ n ≠ T.base ∧ T.st_type n = type ∧ s.st_children n = []

/-- The call comes back, leaves the tree consistent, and has done what it should. -/
def Meets (T : Types N) (depth : Nat) (ndebug : Bool) (s : Relations N) : Call N → Prop
  | .AddChild parenttype leaf => ∃ r s', AddChild T depth s parenttype leaf = .ok (r, s') ∧ Consistent T s'
  | .removeChild type =>
    ∃ r s', removeChild T depth ndebug s type = .ok (r, s') ∧ Consistent T s' ∧ (HasLeaf T s type → r = 0)
  | .clearTreeReleation => ∃ s', clearTreeReleation T depth s = .ok s' ∧ Consistent T s' ∧ s'.st_children T.base = []

/-- A leaf that is not in the tree yet, with no children but itself and what is, for its parent. (The list of a parent that
is not in the tree may have it already.) -/
structure Fits (T : Types N) (s : Relations N) (node leaf : N) : Prop where
  new : ¬Reach s.st_children T.base leaf
  below : ∀ c ∈ s.st_children leaf, Reach s.st_children T.base c ∨ c = leaf
  parent : ∃ p, T.st_parent leaf = some p ∧ (p = node ∨ (s.st_children p).count leaf = 1)

/-- No list of the tree but that of its parent has the node. -/
def OnlyHeld (T : Types N) (s : Relations N) (n : N) : Prop :=
  ∀ p, Reach s.st_children T.base p → n ∈ s.st_children p → T.st_parent n = some p

/-- When a call is right. -/
def Allowed (T : Types N) (depth : Nat) (ndebug : Bool) (s : Relations N) : Call N → Prop
  | .AddChild parenttype leaf =>
    ∃ found, findNode T s.st_children parenttype (depth + 1) T.base = .ok found ∧ ∀ node, found = some node → Fits T s node leaf
  | .removeChild type => ndebug = true ∧
    (type.1 ≠ T.st_type T.base → ∃ found, findNode T s.st_children type (depth + 1) T.base = .ok found ∧
      ∀ n, found = some n → s.st_children n = [] → OnlyHeld T s n) ∧
    (HasLeaf T s type → type.1 ≠ T.st_type T.base ∧
      ∃ n, findNode T s.st_children type (depth + 1) T.base = .ok (some n) ∧ s.st_children n = [])
  | .clearTreeReleation => s.st_children T.base = []

variable {s s' : Relations N} {ndebug : Bool}

/-! ## One call -/

/-- The tree stays consistent exactly if the leaf fits. -/
theorem consistent_add_iff [Finite N] (h : Consistent T s) (hp : Reach s.st_children T.base p) :
    Consistent T ⟨add s.st_children p leaf, s.s_children + 1⟩ ↔ Fits T s p leaf := by
  have hcount := h.count
  have hcard := ncard_add_iff (x := leaf) hp
  refine ⟨fun h' => ?_, fun hfits => ⟨?_, fun n hn hbase => ?_⟩⟩
  · have hcount' := h'.count
    simp only at hcount'
    obtain ⟨hnew, hbelow⟩ := hcard.1 (by omega)
    have hreach : Reach (add s.st_children p leaf) T.base leaf := (reach_add_iff hp).2 (.inr .refl)
    have hbase : leaf ≠ T.base := fun heq => hnew (heq ▸ .refl)
    obtain ⟨q, hq, hone⟩ := h'.held leaf hreach hbase
    refine ⟨hnew, hbelow, q, hq, ?_⟩
    by_cases hqp : q = p
    · exact .inl hqp
    · simp only [add, if_neg hqp] at hone
      exact .inr hone
  · have := hcard.2 ⟨hfits.new, hfits.below⟩
    simp only
    omega
  · have hold : Reach s.st_children T.base n ∨ n = leaf :=
      ((reach_add_iff hp).1 hn).elim .inl fun hbelow => reach_below hfits.below hbelow
    rcases hold with hold | rfl
    · have hne : leaf ≠ n := fun heq => hfits.new (heq ▸ hold)
      obtain ⟨q, hq, hone⟩ := h.held n hold hbase
      refine ⟨q, hq, ?_⟩
      simp only [add]
      split
      next hqp =>
        subst hqp
        simpa [List.count_append, hne] using hone
      next => exact hone
    · obtain ⟨q, hq, hone⟩ := hfits.parent
      refine ⟨q, hq, ?_⟩
      simp only [add]
      split
      next hqp =>
        have hnot : n ∉ s.st_children p := fun hmem => hfits.new (hp.tail hmem)
        simp [List.count_append, List.count_eq_zero.2 hnot]
      next hqp => exact hone.resolve_left hqp

/-- The tree stays consistent exactly if no other list has the leaf. -/
theorem consistent_cut_iff [Finite N] (h : Consistent T s) (hn : Reach s.st_children T.base n) (hbase : n ≠ T.base)
    (hend : s.st_children n = []) (hp : T.st_parent n = some p) :
    Consistent T ⟨cut s.st_children p n, s.s_children - 1⟩ ↔ OnlyHeld T s n := by
  have hcount := h.count
  have hcard := ncard_cut_iff (p := p) hend hbase hn
  refine ⟨fun h' q hq hmem => ?_, fun honly => ⟨?_, fun m hm hm' => ?_⟩⟩
  · have hcount' := h'.count
    simp only at hcount'
    rw [hcard.1 (by omega) q hq hmem, hp]
  · have := hcard.2 fun q hq hmem => Option.some.inj ((honly q hq hmem).symm.trans hp)
    simp only
    omega
  · obtain ⟨hold, hne⟩ := (reach_cut_iff hend hbase fun q hq hmem => Option.some.inj ((honly q hq hmem).symm.trans hp)).1 hm
    obtain ⟨q, hq, hone⟩ := h.held m hold hm'
    refine ⟨q, hq, ?_⟩
    simp only [cut]
    split
    next hqp =>
      subst hqp
      rw [List.count_filter (by simpa using hne)]
      exact hone
    next => exact hone

/-- A list with an element has one when the loop over it comes to its end: the last one that was cleared. -/
theorem clearEach_ne_nil {clear : Relations N → N → Except ChangeFault (Relations N)} (h : clearEach clear root l s = .ok s')
    (hne : s.st_children root ≠ []) : s'.st_children root ≠ [] := by
  induction l generalizing s with
  | nil =>
    cases h
    exact hne
  | cons it rest ih =>
    rw [clearEach] at h
    split at h
    · obtain ⟨s₁, -, h⟩ := bind_eq_ok.1 h
      split at h
      next hmem => exact ih h (List.ne_nil_of_mem hmem)
      next => cases h
    · exact ih h hne

/-- A root with children has some when it is cleared. -/
theorem clearReleation_ne_nil (h : clearReleation T depth s root = .ok s') (hne : s.st_children root ≠ []) :
    s'.st_children root ≠ [] := by
  cases depth with
  | zero => cases h
  | succ depth =>
    rw [clearReleation, if_neg hne] at h
    obtain ⟨s₁, hrun, h⟩ := bind_eq_ok.1 h
    cases h
    have hkept : s₁.st_children root ≠ [] := clearEach_ne_nil hrun hne
    exact hkept

/-! ## When a call is right -/

theorem meets_AddChild_iff [Finite N] (h : Consistent T s) {parenttype : TypeName} :
    Meets T depth ndebug s (.AddChild parenttype leaf) ↔ Allowed T depth ndebug s (.AddChild parenttype leaf) := by
  simp only [Meets, Allowed, AddChild]
  cases hfind : findNode T s.st_children parenttype (depth + 1) T.base with
  | error e => simp [bind, Except.bind]
  | ok found =>
    cases found with
    | none => exact iff_of_true ⟨false, s, rfl, h⟩ ⟨none, rfl, nofun⟩
    | some node =>
      have hiff : Consistent T ⟨add s.st_children node leaf, s.s_children + 1⟩ ↔ Fits T s node leaf :=
        consistent_add_iff h (findNode_some hfind).1
      refine ⟨?_, ?_⟩
      · rintro ⟨r, s', hrun, hs'⟩
        cases hrun
        refine ⟨some node, rfl, fun node' hnode => ?_⟩
        cases hnode
        exact hiff.1 hs'
      · rintro ⟨found, hfound, hfits⟩
        cases hfound
        exact ⟨true, _, rfl, hiff.2 (hfits node rfl)⟩

/-- Where nothing is taken out the call is right if there was no leaf of that type. -/
theorem meets_removeChild_kept {type : TypeName} {r : Int} (h : Consistent T s)
    (hrun : removeChild T depth ndebug s type = .ok (r, s)) (hr : r ≠ 0) :
    Meets T depth ndebug s (.removeChild type) ↔ ¬HasLeaf T s type := by
  refine ⟨?_, fun hnone => ⟨r, s, hrun, h, fun hhas => absurd hhas hnone⟩⟩
  rintro ⟨r', s', hrun', -, hleaf⟩ hhas
  cases hrun.symm.trans hrun'
  exact hr (hleaf hhas)

/-- Where a leaf is found it is taken out of the list of its parent. -/
theorem meets_removeChild_leaf [Finite N] {type : TypeName} (h : Consistent T s) (hbase : type.1 ≠ T.st_type T.base)
    (hfind : findNode T s.st_children type (depth + 1) T.base = .ok (some n)) (hend : s.st_children n = []) :
    Meets T depth true s (.removeChild type) ↔ OnlyHeld T s n := by
  obtain ⟨hreach, hname⟩ := findNode_some hfind
  have hn : n ≠ T.base := fun heq => hbase (hname.symm.trans (congrArg T.st_type heq))
  obtain ⟨p, hp, -⟩ := h.held n hreach hn
  have hrun : removeChild T depth true s type = .ok (0, ⟨cut s.st_children p n, s.s_children - 1⟩) := by
    simp [removeChild, hbase, hfind, hend, hp, bind, Except.bind]
  refine Iff.trans ⟨?_, fun hs' => ⟨0, _, hrun, hs', fun _ => rfl⟩⟩ (consistent_cut_iff h hreach hn hend hp)
  rintro ⟨r, s', hrun', hs', -⟩
  cases hrun.symm.trans hrun'
  exact hs'

theorem meets_removeChild_iff [Finite N] (h : Consistent T s) {type : TypeName} :
    Meets T depth ndebug s (.removeChild type) ↔ Allowed T depth ndebug s (.removeChild type) := by
  cases ndebug with
  | false => simp [Meets, Allowed, removeChild, type.2]
  | true =>
    by_cases hbase : type.1 = T.st_type T.base
    · have hrun : removeChild T depth true s type = .ok (2, s) := by simp [removeChild, hbase]
      rw [meets_removeChild_kept h hrun (by decide)]
      simp [Allowed, hbase]
    cases hfind : findNode T s.st_children type (depth + 1) T.base with
    | error e =>
      simp [Meets, Allowed, removeChild, hbase, hfind, bind, Except.bind]
    | ok found =>
      cases found with
      | none =>
        have hrun : removeChild T depth true s type = .ok (-1, s) := by simp [removeChild, hbase, hfind, bind, Except.bind]
        rw [meets_removeChild_kept h hrun (by decide)]
        simp [Allowed, hfind]
      | some n =>
        by_cases hend : s.st_children n = []
        · rw [meets_removeChild_leaf h hbase hfind hend]
          simp [Allowed, hbase, hfind, hend]
        · have hrun : removeChild T depth true s type = .ok (1, s) := by
            simp [removeChild, hbase, hfind, hend, bind, Except.bind]
          rw [meets_removeChild_kept h hrun (by decide)]
          simp [Allowed, hfind, hend]

theorem meets_clear_iff (h : Consistent T s) :
    Meets T depth ndebug s .clearTreeReleation ↔ Allowed T depth ndebug s .clearTreeReleation := by
  simp only [Meets, Allowed]
  refine ⟨?_, fun hnil => ⟨s, ?_, h, hnil⟩⟩
  · rintro ⟨s', hrun, -, hnil⟩
    by_contra hne
    exact clearReleation_ne_nil hrun hne hnil
  · rw [clearTreeReleation, clearReleation, if_pos hnil, if_pos rfl]

theorem meets_call_iff [Finite N] (h : Consistent T s) (c : Call N) : Meets T depth ndebug s c ↔ Allowed T depth ndebug s c := by
  cases c with
  | AddChild parenttype leaf => exact meets_AddChild_iff h
  | removeChild type => exact meets_removeChild_iff h
  | clearTreeReleation => exact meets_clear_iff h

/-- A call that is right leaves the tree consistent. -/
theorem Meets.consistent {c : Call N} (h : Meets T depth ndebug s c) (hrun : call T depth ndebug s c = .ok s') : Consistent T s' := by
  cases c with
  | AddChild parenttype leaf =>
    obtain ⟨r, s₁, hcall, hs⟩ := h
    simp only [call, hcall] at hrun
    cases hrun
    exact hs
  | removeChild type =>
    obtain ⟨r, s₁, hcall, hs, -⟩ := h
    simp only [call, hcall] at hrun
    cases hrun
    exact hs
  | clearTreeReleation =>
    obtain ⟨s₁, hcall, hs, -⟩ := h
    simp only [call, hcall] at hrun
    cases hrun
    exact hs

/-- The base alone is consistent, whatever the lists of the other nodes are. -/
theorem consistent_begin (hnil : s.st_children T.base = []) (hcount : s.s_children = 1) : Consistent T s := by
  have honly : ∀ n, Reach s.st_children T.base n ↔ n = T.base := by
    refine fun n => ⟨fun h => ?_, fun h => h ▸ .refl⟩
    rcases Relation.ReflTransGen.cases_head h with heq | ⟨c, hc, -⟩
    · exact heq.symm
    · rw [hnil] at hc
      cases hc
  refine ⟨?_, fun n hn hne => absurd ((honly n).1 hn) hne⟩
  simp [hcount, honly]

/-- A run of calls is right from its beginning on exactly as long as each of them is allowed. -/
theorem along_meets_iff [Finite N] (T : Types N) (depth : Nat) (ndebug : Bool) (s : Relations N) (calls : List (Call N))
    (hnil : s.st_children T.base = []) (hcount : s.s_children = 1) :
    Along (call T depth ndebug) (Meets T depth ndebug) s calls ↔ Along (call T depth ndebug) (Allowed T depth ndebug) s calls :=
  along_congr (Consistent T) (consistent_begin hnil hcount) (fun _ c h => meets_call_iff h c)
    fun _ _ _ _ hmeets hrun => hmeets.consistent hrun

/-- A base and one child of it. -/
def twoTypes : Types Bool := ⟨fun b => if b then "Child" else "Base", fun b => if b then some false else none, false⟩

/-- Before the first call. -/
def begin : Relations Bool := ⟨fun _ => [], 1⟩

theorem along_meets_iff_two : begin.st_children twoTypes.base = [] ∧ begin.s_children = 1 ∧
    (Along (call twoTypes 4 true) (Meets twoTypes 4 true) begin [.AddChild ⟨"Base", by decide⟩ true, .removeChild ⟨"Child", by decide⟩] ↔
      Along (call twoTypes 4 true) (Allowed twoTypes 4 true) begin
        [.AddChild ⟨"Base", by decide⟩ true, .removeChild ⟨"Child", by decide⟩]) :=
  ⟨rfl, rfl, along_meets_iff twoTypes 4 true begin [.AddChild ⟨"Base", by decide⟩ true, .removeChild ⟨"Child", by decide⟩] rfl rfl⟩

/-- A child is added, and the tree is cleared. -/
theorem not_along_meets_clear : ¬∀ (s : Relations Bool) (calls : List (Call Bool)), s.st_children twoTypes.base = [] →
    s.s_children = 1 → Along (call twoTypes 4 true) (Meets twoTypes 4 true) s calls := fun h => by
  obtain ⟨-, ⟨s', hrun, -⟩, -⟩ := h begin [.AddChild ⟨"Base", by decide⟩ true, .clearTreeReleation] rfl rfl
  have hfault : clearTreeReleation twoTypes 4 ⟨add begin.st_children false true, 2⟩ = .error .erased := rfl
  cases hrun.symm.trans hfault

end BaseClass
