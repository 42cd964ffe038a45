/-
Assignment and copy construction of a `MemMgr` (Mem/MemMgr.cpp).

`MemMgr` has the nodes as a list. Here they are linked by their addresses, in
pages that `malloc` has given and `free` may take back: what the head points
to is decisive. `Expend_chain` says that the two agree where nothing was
freed.

The destructor leaves `pEleHead` as it is and the copy constructor does not
set it, so `Expend`, which appends to what it finds there, goes right only by
the answer of `malloc`.
-/
import XFramework.Mem.MemMgrRun

open Bytes Fallible

namespace MemMgr

/-- A node with its `pNext`; `none` is `NULL`. -/
structure Linked where
  node : EleNode
  pNext : Option Int

/-- The bytes, and the nodes in the pages that are allocated. -/
structure Store where
  mem : Mem
  nodes : Int → Option Linked

/-- A `MemMgr` object. -/
structure Object where
  nUnit : Nat
  pEleHead : Option Int
  deriving DecidableEq

/-- A page is read that is not allocated, `memset` at `NULL`, and a list that has no end. -/
inductive PageFault
  | notAllocated
  | null
  | outOfFuel
  deriving DecidableEq

namespace Store

def read (s : Store) (p : Int) : Except PageFault Linked :=
  match s.nodes p with
  | some x => .ok x
  | none => .error .notAllocated

def write (s : Store) (p : Int) (x : Linked) : Store := { s with nodes := fun q => if q = p then some x else s.nodes q }

/-- `free(p)`. -/
def free (s : Store) (p : Int) : Store := { s with nodes := fun q => if q = p then none else s.nodes q }

/-- A page from `malloc` once it is cleared. -/
def clear (s : Store) (p : Int) (len : Nat) : Store :=
  { s with mem := memset s.mem p 0 len }.write p ⟨⟨0, 0, 0, 0⟩, none⟩

/-- `new (p) EleNode(..)`. -/
def construct (s : Store) (p : Int) (e : EleNode) : Store :=
  { s with mem := memset s.mem e.pFlag zero e.nCount }.write p ⟨e, none⟩

/-- The last node from `pBegin` on. -/
def last : Nat → Store → Int → Except PageFault Int
  | 0, _, _ => .error .outOfFuel
  | fuel + 1, s, pBegin => do
    let x ← s.read pBegin
    match x.pNext with
    | none => .ok pBegin
    | some q => last fuel s q

/-- The loop of the destructor. -/
def destroy : Nat → Store → Option Int → Except PageFault Store
  | _, s, none => .ok s
  | 0, _, some _ => .error .outOfFuel
  | fuel + 1, s, some pBegin => do
    let x ← s.read pBegin
    destroy fuel (s.free pBegin) x.pNext

end Store

namespace Object

def Expend (fuel : Nat) (s : Store) (t : Object) (p : Int) (len : Nat) : Except PageFault (Store × Object) :=
  let e := eleNode t.nUnit p len
  let s := s.clear p len
  match t.pEleHead with
  | none => .ok (s.construct p e, { t with pEleHead := some p })
  | some pBegin => do
    let pLast ← s.last fuel pBegin
    let x ← s.read pLast
    .ok ((s.write pLast { x with pNext := some p }).construct p e, t)

/-- `page` is the answer of `malloc`. -/
def Init (fuel : Nat) (s : Store) (t : Object) (blockSize : Nat) (page : Option Int) : Except PageFault (Store × Object) :=
  match page with
  | none => .error .null
  | some p => Expend fuel s { t with nUnit := blockSize } p SYSMEMPAGE

/-- `operator=`. -/
def assign (fuel : Nat) (s : Store) (t th : Object) (page : Option Int) : Except PageFault (Store × Object) :=
  if 0 < t.nUnit ∧ t.pEleHead ≠ none then do
    let s ← s.destroy fuel t.pEleHead
    Init fuel s t th.nUnit page
  else Init fuel s t th.nUnit page

/-- The copy constructor, where the bytes of `pEleHead` in the storage of the new object are those of `stale`. -/
def copy (fuel : Nat) (s : Store) (stale : Option Int) (th : Object) (page : Option Int) : Except PageFault (Store × Object) :=
  Init fuel s ⟨0, stale⟩ th.nUnit page

end Object

/-- The nodes from `head` on. -/
def Chain (nodes : Int → Option Linked) : Option Int → List EleNode → Prop
  | head, [] => head = none
  | head, e :: es => head = some e.page ∧ ∃ next, nodes e.page = some ⟨e, next⟩ ∧ Chain nodes next es

/-- A page from `malloc` is apart from all pages that are allocated, but for those in `freed`. -/
def FreshPage (s : Store) (freed : List Int) (page : Option Int) : Prop :=
  ∀ p, page = some p → ∀ q, s.nodes q ≠ none → q ∈ freed ∨ Span.Apart (p, (SYSMEMPAGE : Nat)) (q, (SYSMEMPAGE : Nat))

variable {s s' : Store} {t t' th : Object} {head next : Option Int} {es fs : List EleNode} {e f : EleNode} {p q a : Int}
  {fuel u len : Nat} {page : Option Int}

/-! ## Chains -/

theorem Chain.congr {nodes nodes' : Int → Option Linked} (h : Chain nodes head es)
    (hsame : ∀ e ∈ es, nodes' e.page = nodes e.page) : Chain nodes' head es := by
  induction es generalizing head with
  | nil => exact h
  | cons e es ih =>
    obtain ⟨hhead, next, hnode, hrest⟩ := h
    exact ⟨hhead, next, (hsame e List.mem_cons_self).trans hnode, ih hrest fun x hx => hsame x (List.mem_cons_of_mem _ hx)⟩

theorem Chain.allocated {nodes : Int → Option Linked} (h : Chain nodes head es) (he : e ∈ es) : nodes e.page ≠ none := by
  induction es generalizing head with
  | nil => cases he
  | cons x es ih =>
    obtain ⟨-, next, hnode, hrest⟩ := h
    rcases List.mem_cons.1 he with rfl | he
    · simp [hnode]
    · exact ih hrest he

theorem Chain.unique {nodes : Int → Option Linked} (h : Chain nodes head es) (h' : Chain nodes head fs) : es = fs := by
  induction es generalizing head fs with
  | nil =>
    cases fs with
    | nil => rfl
    | cons f fs =>
      cases h.symm.trans h'.1
  | cons e es ih =>
    obtain ⟨hhead, next, hnode, hrest⟩ := h
    cases fs with
    | nil => cases hhead.symm.trans h'
    | cons f fs =>
      obtain ⟨hhead', next', hnode', hrest'⟩ := h'
      have hpage : e.page = f.page := Option.some.inj (hhead.symm.trans hhead')
      rw [hpage, hnode'] at hnode
      cases hnode
      rw [ih hrest hrest']

/-- The rest of a chain from one of its nodes on. -/
theorem Chain.drop {nodes : Int → Option Linked} (h : Chain nodes head (es ++ e :: fs)) : Chain nodes (some e.page) (e :: fs) := by
  induction es generalizing head with
  | nil =>
    obtain ⟨hhead, hrest⟩ := h
    exact ⟨rfl, hrest⟩
  | cons x es ih =>
    obtain ⟨-, next, -, hrest⟩ := h
    exact ih hrest

/-- A chain comes to its end, so it has no page twice. -/
theorem Chain.nodup {nodes : Int → Option Linked} (h : Chain nodes head es) : (es.map EleNode.page).Nodup := by
  induction es generalizing head with
  | nil => exact List.nodup_nil
  | cons e es ih =>
    obtain ⟨hhead, next, hnode, hrest⟩ := h
    refine List.nodup_cons.2 ⟨fun hmem => ?_, ih hrest⟩
    obtain ⟨f, hf, hpage⟩ := List.mem_map.1 hmem
    obtain ⟨l₁, l₂, rfl⟩ := List.append_of_mem hf
    have htail := hrest.drop
    rw [hpage] at htail
    have hwhole : Chain nodes (some e.page) (e :: (l₁ ++ f :: l₂)) := ⟨rfl, next, hnode, hrest⟩
    have hlen := congrArg List.length (htail.unique hwhole)
    simp at hlen
    omega

/-! ## The destructor -/

theorem Store.read_ok {x : Linked} (h : s.nodes p = some x) : s.read p = .ok x := by
  rw [Store.read, h]

/-- The pages of the list are given back, and nothing else is changed. -/
theorem Chain.destroy (h : Chain s.nodes head es) (hfuel : es.length ≤ fuel) : ∃ s', s.destroy fuel head = .ok s' ∧
    s'.mem = s.mem ∧ ∀ q, s'.nodes q = if q ∈ es.map EleNode.page then none else s.nodes q := by
  induction es generalizing s head fuel with
  | nil =>
    cases h
    exact ⟨s, by rw [Store.destroy], rfl, fun q => by simp⟩
  | cons e es ih =>
    have hnodup := h.nodup
    obtain ⟨rfl, next, hnode, hrest⟩ := h
    obtain ⟨fuel, rfl⟩ : ∃ k, fuel = k + 1 := ⟨fuel - 1, by simp at hfuel; omega⟩
    have hrest' : Chain (s.free e.page).nodes next es := hrest.congr fun x hx => by
      have hne : x.page ≠ e.page := fun he => (List.nodup_cons.1 hnodup).1 (List.mem_map.2 ⟨x, hx, he⟩)
      exact if_neg hne
    obtain ⟨s', hrun, hmem, hnodes⟩ := ih hrest' (by simpa using hfuel)
    refine ⟨s', ?_, hmem, fun q => ?_⟩
    · rw [Store.destroy, Store.read_ok hnode]
      exact hrun
    · rw [hnodes]
      by_cases hq : q = e.page
      · simp [Store.free, hq]
      · simp [Store.free, hq]

/-! ## `Expend` -/

theorem Chain.last (h : Chain s.nodes head es) (hlast : es.getLast? = some e) (hfuel : es.length ≤ fuel) :
    ∃ pBegin, head = some pBegin ∧ s.last fuel pBegin = .ok e.page ∧ s.nodes e.page = some ⟨e, none⟩ := by
  induction es generalizing head fuel with
  | nil => cases hlast
  | cons x es ih =>
    obtain ⟨rfl, next, hnode, hrest⟩ := h
    obtain ⟨fuel, rfl⟩ : ∃ k, fuel = k + 1 := ⟨fuel - 1, by simp at hfuel; omega⟩
    refine ⟨x.page, rfl, ?_⟩
    rw [Store.last, Store.read_ok hnode]
    simp only [bind, Except.bind]
    cases es with
    | nil =>
      cases hlast
      cases hrest
      exact ⟨rfl, hnode⟩
    | cons y es =>
      obtain ⟨q, rfl, hrun, hend⟩ := ih hrest (by rwa [List.getLast?_cons_cons] at hlast) (by simpa using hfuel)
      exact ⟨hrun, hend⟩

/-- A node is linked behind the last one. -/
theorem Chain.concat {nodes nodes' : Int → Option Linked} (h : Chain nodes head es) (hp : f.page = p)
    (hlast : ∀ e ∈ es.getLast?, nodes' e.page = some ⟨e, some p⟩) (hnew : nodes' p = some ⟨f, none⟩)
    (hsame : ∀ q, q ≠ p → (∀ e ∈ es.getLast?, q ≠ e.page) → nodes' q = nodes q) (hpages : p ∉ es.map EleNode.page) :
    Chain nodes' (if es = [] then some p else head) (es ++ [f]) := by
  have hnodup := h.nodup
  induction es generalizing head with
  | nil => exact ⟨congrArg some hp.symm, none, hp ▸ hnew, rfl⟩
  | cons e es ih =>
    obtain ⟨rfl, next, hnode, hrest⟩ := h
    obtain ⟨hnot, hnodup⟩ := List.nodup_cons.1 hnodup
    rw [if_neg (List.cons_ne_nil e es)]
    cases es with
    | nil =>
      have hpage := hlast e rfl
      cases hrest
      exact ⟨rfl, some p, hpage, congrArg some hp.symm, none, hp ▸ hnew, rfl⟩
    | cons x es =>
      rw [List.getLast?_cons_cons] at hlast hsame
      have htail := ih hrest hlast hsame (fun hmem => hpages (List.mem_cons_of_mem _ hmem)) hnodup
      rw [if_neg (List.cons_ne_nil x es)] at htail
      have hne : e.page ≠ p := fun he => hpages (he ▸ List.mem_cons_self)
      have hother : ∀ y ∈ (x :: es).getLast?, e.page ≠ y.page := fun y hy he =>
        hnot (he ▸ List.mem_map_of_mem (List.mem_of_getLast? hy))
      exact ⟨rfl, next, (hsame e.page hne hother).trans hnode, htail⟩

theorem page_eleNode (u : Nat) (p : Int) (len : Nat) : (eleNode u p len).page = p := by
  simp [eleNode, EleNode.page]

/-- Where nothing was freed `Expend` appends a node to the list, as it does in `MemMgr`. -/
theorem Expend_chain (h : Chain s.nodes t.pEleHead es) (hnew : s.nodes p = none) (hfuel : es.length ≤ fuel) (len : Nat) :
    ∃ s' t', t.Expend fuel s p len = .ok (s', t') ∧ t'.nUnit = t.nUnit ∧
      Chain s'.nodes t'.pEleHead (MemMgr.Expend ⟨t.nUnit, es, s.mem⟩ p len).pEleHead ∧
      s'.mem = (MemMgr.Expend ⟨t.nUnit, es, s.mem⟩ p len).mem := by
  have hpages : p ∉ es.map EleNode.page := fun hmem => by
    obtain ⟨e, he, rfl⟩ := List.mem_map.1 hmem
    exact h.allocated he hnew
  have hclear : ∀ q, q ≠ p → (s.clear p len).nodes q = s.nodes q := fun q hq => if_neg hq
  have hcleared : Chain (s.clear p len).nodes t.pEleHead es :=
    h.congr fun e he => hclear _ fun hp => hpages (List.mem_map.2 ⟨e, he, hp⟩)
  obtain ⟨nUnit, pEleHead⟩ := t
  unfold Object.Expend
  cases hlast : es.getLast? with
  | none =>
    cases List.getLast?_eq_none_iff.1 hlast
    cases h
    refine ⟨_, _, rfl, rfl, ⟨congrArg some (page_eleNode nUnit p len).symm, none, ?_, rfl⟩, rfl⟩
    rw [page_eleNode]
    exact if_pos rfl
  | some e =>
    obtain ⟨pBegin, rfl, hrun, hend⟩ := hcleared.last hlast hfuel
    have hmem : e ∈ es := List.mem_of_getLast? hlast
    have hne : e.page ≠ p := fun hp => hpages (List.mem_map.2 ⟨e, hmem, hp⟩)
    have hnil : es ≠ [] := List.ne_nil_of_mem hmem
    simp only [hrun, Store.read_ok hend, bind, Except.bind]
    refine ⟨_, _, rfl, rfl, ?_, rfl⟩
    have hchain : Chain (((s.clear p len).write e.page ⟨e, some p⟩).construct p (eleNode nUnit p len)).nodes
        (if es = [] then some p else some pBegin) (es ++ [eleNode nUnit p len]) := by
      refine h.concat (page_eleNode nUnit p len) (fun x hx => ?_) (if_pos rfl) (fun q hq hother => ?_) hpages
      · rw [hlast] at hx
        cases hx
        exact (if_neg hne).trans (if_pos rfl)
      · exact (if_neg hq).trans ((if_neg (hother e hlast)).trans (hclear q hq))
    rwa [if_neg hnil] at hchain

/-! ## A fresh manager -/

/-- What assignment and copy construction should leave: the object `t'` has the page `p` alone, which is new and has its
cells free, and the pages of `th`, the nodes `fs`, are as they were. -/
structure Renewed (s s' : Store) (t' : Object) (p : Int) (th : Object) (fs : List EleNode) : Prop where
  unit : t'.nUnit = th.nUnit
  page : Chain s'.nodes t'.pEleHead [eleNode th.nUnit p SYSMEMPAGE]
  free : ∀ i < perPage th.nUnit, s'.mem (flagAt p i) = zero
  nul : s'.mem (flagAt p (perPage th.nUnit)) = 0
  new : ∀ f ∈ fs, f.page ≠ p
  source : Chain s'.nodes th.pEleHead fs
  kept : ∀ f ∈ fs, ∀ a, f.page ≤ a → a < f.page + SYSMEMPAGE → s'.mem a = s.mem a

/-- The call comes back with a fresh manager. -/
def Renews (s : Store) (th : Object) (fs : List EleNode) (page : Option Int) (r : Except PageFault (Store × Object)) : Prop :=
  ∃ s' t' p, r = .ok (s', t') ∧ page = some p ∧ Renewed s s' t' p th fs

/-- The page of the new manager. -/
theorem Renewed.head_eq (h : Renewed s s' t' p th fs) : t'.pEleHead = some p := by
  rw [h.page.1, page_eleNode]

/-- A head that is not `NULL` stays. -/
theorem Expend_head {r : Store × Object} (h : t.Expend fuel s p len = .ok r) (hhead : t.pEleHead = some q) :
    r.2.pEleHead = some q := by
  unfold Object.Expend at h
  rw [hhead] at h
  obtain ⟨pLast, -, h⟩ := bind_eq_ok.1 h
  obtain ⟨x, -, h⟩ := bind_eq_ok.1 h
  cases h
  exact hhead

/-- A page that is apart from those of `th` is made. -/
theorem renewed_construct {s₁ : Store} (hsrc : Chain s.nodes th.pEleHead fs) (hmem : s₁.mem = (s.clear p SYSMEMPAGE).mem)
    (hnodes : ∀ q, q ≠ p → s₁.nodes q = s.nodes q)
    (hapart : ∀ f ∈ fs, Span.Apart (p, (SYSMEMPAGE : Nat)) (f.page, (SYSMEMPAGE : Nat))) :
    Renewed s (s₁.construct p (eleNode th.nUnit p SYSMEMPAGE)) ⟨th.nUnit, some p⟩ p th fs := by
  have hbytes : ∀ a, (s₁.construct p (eleNode th.nUnit p SYSMEMPAGE)).mem a =
      if flagAt p 0 ≤ a ∧ a < flagAt p (perPage th.nUnit) then zero
      else if p ≤ a ∧ a < p + SYSMEMPAGE then 0 else s.mem a := by
    intro a
    change memset s₁.mem _ zero _ a = _
    rw [hmem]
    exact expend_mem (t := ⟨⟨th.nUnit, [], s.mem⟩, []⟩)
  have hpage := flag_in_page (u := th.nUnit) (p := p) (Nat.le_refl _)
  have hfirst := flag_in_page (u := th.nUnit) (p := p) (Nat.zero_le _)
  have hne : ∀ f ∈ fs, f.page ≠ p := fun f hf hp => by
    have := hapart f hf
    rw [hp] at this
    simp only [Span.Apart, SYSMEMPAGE] at this
    omega
  refine ⟨rfl, ⟨congrArg some (page_eleNode ..).symm, none, ?_, rfl⟩, fun i hi => ?_, ?_, hne, ?_, fun f hf a h₁ h₂ => ?_⟩
  · rw [page_eleNode]
    exact if_pos rfl
  · rw [hbytes, if_pos]
    simp only [flagAt]
    omega
  · rw [hbytes, if_neg (by omega), if_pos (by omega)]
  · exact hsrc.congr fun f hf => (if_neg (hne f hf)).trans (hnodes _ (hne f hf))
  · have := hapart f hf
    simp only [Span.Apart] at this
    rw [hbytes, if_neg (by omega), if_neg (by omega)]

/-- `Init` makes a fresh manager out of an object that has no page, or where the page of its head has come back. -/
theorem renews_Init_iff (hsrc : Chain s.nodes th.pEleHead fs)
    (hapart : ∀ f ∈ fs, Span.Apart (p, (SYSMEMPAGE : Nat)) (f.page, (SYSMEMPAGE : Nat))) (hfuel : 0 < fuel) :
    Renews s th fs (some p) (t.Init fuel s th.nUnit (some p)) ↔ t.pEleHead = none ∨ t.pEleHead = some p := by
  have hclear : ∀ q, q ≠ p → (s.clear p SYSMEMPAGE).nodes q = s.nodes q := fun q hq => if_neg hq
  refine ⟨?_, ?_⟩
  · rintro ⟨s', t', _, hrun, hp, hnew⟩
    cases hp
    cases hhead : t.pEleHead with
    | none => exact .inl rfl
    | some q =>
      have hkept := Expend_head hrun hhead
      exact .inr (hkept.symm.trans hnew.head_eq)
  · obtain ⟨nUnit, pEleHead⟩ := t
    rintro (hhead | hhead)
    · cases hhead
      exact ⟨_, _, p, rfl, rfl, renewed_construct hsrc rfl hclear hapart⟩
    · cases hhead
      obtain ⟨fuel, rfl⟩ : ∃ k, fuel = k + 1 := ⟨fuel - 1, by omega⟩
      have hzero : (s.clear p SYSMEMPAGE).nodes p = some ⟨⟨0, 0, 0, 0⟩, none⟩ := if_pos rfl
      have hlast : (s.clear p SYSMEMPAGE).last (fuel + 1) p = .ok p := by
        rw [Store.last, Store.read_ok hzero]
        rfl
      refine ⟨((s.clear p SYSMEMPAGE).write p ⟨⟨0, 0, 0, 0⟩, some p⟩).construct p (eleNode th.nUnit p SYSMEMPAGE), _, p, ?_,
        rfl, renewed_construct hsrc rfl (fun q hq => (if_neg hq).trans (hclear q hq)) hapart⟩
      simp only [Object.Init, Object.Expend, hlast, Store.read_ok hzero, bind, Except.bind]

/-! ## Assignment and copy construction -/

/-- The target's pages, the source's, and that they are apart. -/
structure Apart (s : Store) (t : Object) (es : List EleNode) (fs : List EleNode) : Prop where
  target : Chain s.nodes t.pEleHead es
  apart : ∀ e ∈ es, ∀ f ∈ fs, Span.Apart (e.page, (SYSMEMPAGE : Nat)) (f.page, (SYSMEMPAGE : Nat))

/-- What a call leaves is compared with the bytes before it only. -/
theorem renews_congr {s₁ : Store} {r : Except PageFault (Store × Object)} (hmem : s₁.mem = s.mem) :
    Renews s₁ th fs page r ↔ Renews s th fs page r := by
  have hkept : ∀ {s s₁ : Store} {s' t' p}, s₁.mem = s.mem → Renewed s₁ s' t' p th fs → Renewed s s' t' p th fs := by
    intro s s₁ s' t' p hmem h
    exact ⟨h.unit, h.page, h.free, h.nul, h.new, h.source, fun f hf a h₁ h₂ => (h.kept f hf a h₁ h₂).trans (by rw [hmem])⟩
  refine ⟨?_, ?_⟩
  · rintro ⟨s', t', p, hrun, hp, h⟩
    exact ⟨s', t', p, hrun, hp, hkept hmem h⟩
  · rintro ⟨s', t', p, hrun, hp, h⟩
    exact ⟨s', t', p, hrun, hp, hkept hmem.symm h⟩

theorem not_renews_null : ¬Renews s th fs none (t.Init fuel s u none) := by
  rintro ⟨s', t', p, -, hp, -⟩
  cases hp

/-- The pages of the source are no pages of the target. -/
theorem Apart.not_mem (h : Apart s t es fs) (hf : f ∈ fs) : f.page ∉ es.map EleNode.page := fun hmem => by
  obtain ⟨e, he, hpage⟩ := List.mem_map.1 hmem
  have hapart := h.apart e he f hf
  rw [hpage] at hapart
  simp only [Span.Apart, SYSMEMPAGE] at hapart
  omega

/-- The page that `malloc` gives is apart from those of the source. -/
theorem FreshPage.apart {freed : List Int} (h : FreshPage s freed (some p)) (hsrc : Chain s.nodes th.pEleHead fs)
    (hfreed : ∀ f ∈ fs, f.page ∉ freed) : ∀ f ∈ fs, Span.Apart (p, (SYSMEMPAGE : Nat)) (f.page, (SYSMEMPAGE : Nat)) :=
  fun f hf => (h p rfl f.page (hsrc.allocated hf)).resolve_left (hfreed f hf)

/-- Assignment from another manager: the head of the target is not set after its pages are given back. -/
theorem renews_assign_iff (hsrc : Chain s.nodes th.pEleHead fs) (htarget : Apart s t es fs)
    (hfresh : FreshPage s (if 0 < t.nUnit then es.map EleNode.page else []) page) (hfuel : es.length < fuel) :
    Renews s th fs page (t.assign fuel s th page) ↔
      ∃ p, page = some p ∧ (es = [] ∨ 0 < t.nUnit ∧ es.head?.map EleNode.page = some p) := by
  have hhead : t.pEleHead = es.head?.map EleNode.page := by
    cases es with
    | nil => exact htarget.target
    | cons e es => exact htarget.target.1
  have hnil : t.pEleHead = none ↔ es = [] := by
    rw [hhead]
    cases es <;> simp
  unfold Object.assign
  cases page with
  | none =>
    refine iff_of_false ?_ ?_
    · rintro ⟨s', t', p, -, hp, -⟩
      cases hp
    · rintro ⟨p, hp, -⟩
      cases hp
  | some p =>
    have hfreed : ∀ f ∈ fs, f.page ∉ if 0 < t.nUnit then es.map EleNode.page else [] := by
      intro f hf
      split
      · exact htarget.not_mem hf
      · exact List.not_mem_nil
    have hapart := hfresh.apart hsrc hfreed
    by_cases hguard : 0 < t.nUnit ∧ t.pEleHead ≠ none
    · obtain ⟨s₁, hrun, hmem, hnodes⟩ := htarget.target.destroy (Nat.le_of_lt hfuel)
      have hsrc₁ : Chain s₁.nodes th.pEleHead fs := hsrc.congr fun f hf => by
        rw [hnodes, if_neg (htarget.not_mem hf)]
      rw [if_pos hguard, hrun]
      refine ((renews_congr hmem).symm.trans (renews_Init_iff hsrc₁ hapart (by omega))).trans ?_
      rw [hhead, or_iff_right (hhead ▸ hguard.2)]
      simp [hguard.1, mt hnil.2 hguard.2]
    · rw [if_neg hguard]
      refine (renews_Init_iff hsrc hapart (by omega)).trans ?_
      rw [hnil]
      refine ⟨fun h => ⟨p, rfl, h.imp_right fun hp => ?_⟩, ?_⟩
      · -- the head is an allocated page, and `p` is not
        cases es with
        | nil => cases htarget.target.symm.trans hp
        | cons e es =>
          have hunit : ¬0 < t.nUnit := fun hu => hguard ⟨hu, by simp [hp]⟩
          rw [if_neg hunit] at hfresh
          have hpage : e.page = p := Option.some.inj (htarget.target.1.symm.trans hp)
          have hself := hfresh p rfl e.page (htarget.target.allocated List.mem_cons_self)
          simp [hpage, Span.Apart, SYSMEMPAGE] at hself
      · rintro ⟨_, hp, h⟩
        cases hp
        refine h.imp_right fun hp => ?_
        rw [hhead, hp.2]

/-- Assignment to itself: the pages are given back, and with them what the head points to. -/
theorem not_renews_self (hsrc : Chain s.nodes th.pEleHead fs) (hinit : fs ≠ []) : ¬Renews s th fs page (th.assign fuel s th page) := by
  rintro ⟨s', t', p, hrun, rfl, h⟩
  cases fs with
  | nil => exact hinit rfl
  | cons f fs =>
    have hkept : t'.pEleHead = some f.page := by
      unfold Object.assign at hrun
      split at hrun
      · obtain ⟨s₁, -, hrun⟩ := bind_eq_ok.1 hrun
        exact Expend_head hrun hsrc.1
      · exact Expend_head hrun hsrc.1
    exact h.new f List.mem_cons_self (Option.some.inj (hkept.symm.trans h.head_eq))

/-- The copy constructor: the head is what the storage had. -/
theorem renews_copy_iff {stale : Option Int} (hsrc : Chain s.nodes th.pEleHead fs) (hfresh : FreshPage s [] page) (hfuel : 0 < fuel) :
    Renews s th fs page (Object.copy fuel s stale th page) ↔ ∃ p, page = some p ∧ (stale = none ∨ stale = some p) := by
  cases page with
  | none => exact iff_of_false not_renews_null nofun
  | some p =>
    have hapart := hfresh.apart hsrc fun _ _ => List.not_mem_nil
    refine (renews_Init_iff hsrc hapart hfuel).trans ?_
    simp

/-- Assignment from a manager that has a page, assignment to itself and copy construction, each with when it leaves a
fresh manager. -/
theorem renews_iff (s : Store) (th : Object) (fs : List EleNode) (hsrc : Chain s.nodes th.pEleHead fs) (hinit : fs ≠ []) :
    (∀ t es fuel page, Apart s t es fs → FreshPage s (if 0 < t.nUnit then es.map EleNode.page else []) page → es.length < fuel →
      (Renews s th fs page (t.assign fuel s th page) ↔
        ∃ p, page = some p ∧ (es = [] ∨ 0 < t.nUnit ∧ es.head?.map EleNode.page = some p))) ∧
    (∀ fuel page, ¬Renews s th fs page (th.assign fuel s th page)) ∧
    ∀ stale fuel page, FreshPage s [] page → 0 < fuel →
      (Renews s th fs page (Object.copy fuel s stale th page) ↔ ∃ p, page = some p ∧ (stale = none ∨ stale = some p)) :=
  ⟨fun _ _ _ _ htarget hfresh hfuel => renews_assign_iff hsrc htarget hfresh hfuel,
    fun _ _ => not_renews_self hsrc hinit,
    fun _ _ _ hfresh hfuel => renews_copy_iff hsrc hfresh hfuel⟩

/-- A source of units of 16 bytes with the page at 4096, and a page at 8192. -/
def twoPages : Store where
  mem _ := 0
  nodes q := if q = 4096 then some ⟨eleNode 16 4096 SYSMEMPAGE, none⟩ else if q = 8192 then some ⟨eleNode 8 8192 SYSMEMPAGE, none⟩ else none

theorem twoPages_source : Chain twoPages.nodes (some 4096) [eleNode 16 4096 SYSMEMPAGE] := by
  simp [Chain, page_eleNode, twoPages]

theorem renews_iff_two :
    (∀ t es fuel page, Apart twoPages t es [eleNode 16 4096 SYSMEMPAGE] →
      FreshPage twoPages (if 0 < t.nUnit then es.map EleNode.page else []) page → es.length < fuel →
      (Renews twoPages ⟨16, some 4096⟩ [eleNode 16 4096 SYSMEMPAGE] page (t.assign fuel twoPages ⟨16, some 4096⟩ page) ↔
        ∃ p, page = some p ∧ (es = [] ∨ 0 < t.nUnit ∧ es.head?.map EleNode.page = some p))) ∧
    (∀ fuel page, ¬Renews twoPages ⟨16, some 4096⟩ [eleNode 16 4096 SYSMEMPAGE] page
      (Object.assign fuel twoPages ⟨16, some 4096⟩ ⟨16, some 4096⟩ page)) ∧
    ∀ stale fuel page, FreshPage twoPages [] page → 0 < fuel →
      (Renews twoPages ⟨16, some 4096⟩ [eleNode 16 4096 SYSMEMPAGE] page (Object.copy fuel twoPages stale ⟨16, some 4096⟩ page) ↔
        ∃ p, page = some p ∧ (stale = none ∨ stale = some p)) :=
  renews_iff twoPages ⟨16, some 4096⟩ [eleNode 16 4096 SYSMEMPAGE] twoPages_source (List.cons_ne_nil _ _)

/-- A manager with the page at 8192 is assigned, and `malloc` gives the page at 16384. -/
theorem not_renews_assign : ¬∀ (s : Store) (t th : Object) (es fs : List EleNode) (fuel : Nat) (page : Option Int),
    Chain s.nodes th.pEleHead fs → 1 ≤ th.nUnit → fs ≠ [] → Apart s t es fs →
    FreshPage s (if 0 < t.nUnit then es.map EleNode.page else []) page → page ≠ none → es.length < fuel →
    Renews s th fs page (t.assign fuel s th page) := fun h => by
  have htarget : Apart twoPages ⟨8, some 8192⟩ [eleNode 8 8192 SYSMEMPAGE] [eleNode 16 4096 SYSMEMPAGE] := by
    refine ⟨by simp [Chain, page_eleNode, twoPages], fun e he f hf => ?_⟩
    cases List.mem_singleton.1 he
    cases List.mem_singleton.1 hf
    simp [page_eleNode, Span.Apart, SYSMEMPAGE]
  have hfresh : FreshPage twoPages [8192] (some 16384) := by
    intro p hp q hq
    cases hp
    simp only [twoPages] at hq
    split at hq
    · exact .inr (by simp [Span.Apart, SYSMEMPAGE, *])
    · split at hq
      · exact .inl (by simp [*])
      · exact absurd rfl hq
  have hrun := h twoPages ⟨8, some 8192⟩ ⟨16, some 4096⟩ _ _ 2 (some 16384) twoPages_source (by decide) (List.cons_ne_nil _ _) htarget
    (by simpa [page_eleNode] using hfresh) (Option.some_ne_none _) (by simp)
  obtain ⟨p, hp, hcond⟩ := (renews_assign_iff twoPages_source htarget (by simpa [page_eleNode] using hfresh) (by simp)).1 hrun
  cases hp
  simp [page_eleNode] at hcond

end MemMgr
