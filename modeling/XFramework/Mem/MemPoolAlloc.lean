/-
`AllocImpl` and `FreeImpl`.

`found` is the node a request is taken from. `AllocImpl` hands it out, whole
or its front (`Took`), unless it is as long as two blocks: the map of the
chips has room for one of two of a length. From `Took` both keep the invariant,
on the condition `AllocOk`, which also leaves out a free list left empty, a
spare node, and a search that finds nothing and goes on to `expand`.
-/
import XFramework.Mem.MemPoolInv
import XFramework.Mem.MemPoolTake

open Fallible Bytes

namespace MemPool

variable {s s' : MemPool} {L : Blocks} {n : MemNode} {x len theLen : Nat} {sys p : Int}

/-- The node is twice as long as the request. -/
def Halves (s : MemPool) (theLen x : Nat) : Prop := (s.nodes.read x).map (·.nLen) = some (2 * theLen)

instance (s : MemPool) (theLen x : Nat) : Decidable (Halves s theLen x) := inferInstanceAs (Decidable (_ = _))

/-- The listed nodes a search for `theLen` tries, in their order. -/
def listedFrom (s : MemPool) (theLen : Nat) : List Nat := (entriesFrom s.m_poolset theLen).flatMap (·.2)

/-- The nodes of the buffers it tries after them. -/
def rootsFrom (s : MemPool) (theLen : Nat) : List Nat := (entriesFrom s.m_pools theLen).flatMap (·.2)

/-- The request gets a node of a buffer made for it. -/
def OwnBuffer (s : MemPool) (theLen : Nat) : Prop := 32 < theLen ∧ s.m_pools.find? theLen = none

instance (s : MemPool) (theLen : Nat) : Decidable (OwnBuffer s theLen) := inferInstanceAs (Decidable (_ ∧ _))

/-- The list of its length is not there, and a buffer of its own is cleared for the request. -/
def Clears (s : MemPool) (theLen : Nat) : Prop := s.m_poolset.find? theLen = none ∧ OwnBuffer s theLen

instance (s : MemPool) (theLen : Nat) : Decidable (Clears s theLen) := inferInstanceAs (Decidable (_ ∧ _))

/-- The memory after the request: the rest of it is as it was. -/
def memAfter (s : MemPool) (theLen : Nat) (sys : Int) : Mem := if Clears s theLen then (s.addBuffer theLen sys).mem else s.mem

/-- When a request of the rounded length `theLen` meets no defect. -/
structure LenOk (s : MemPool) (theLen : Nat) : Prop where
  small : theLen < 2 ^ 31
  back : ∀ ids ∈ s.m_poolset.find? theLen, ids ≠ []
  listed : s.m_poolset.find? theLen = none → ∀ x ∈ firstFree s theLen (listedFrom s theLen), ¬Halves s theLen x
  roots : s.m_poolset.find? theLen = none → firstFree s theLen (listedFrom s theLen) = none →
    OwnBuffer s theLen ∨ ∃ x ∈ firstFree s theLen (rootsFrom s theLen), ¬Halves s theLen x ∧ ¬Spare x

instance (s : MemPool) (theLen : Nat) : Decidable (LenOk s theLen) :=
  decidable_of_iff
    (theLen < 2 ^ 31 ∧ (∀ ids ∈ s.m_poolset.find? theLen, ids ≠ []) ∧
      (s.m_poolset.find? theLen = none → ∀ x ∈ firstFree s theLen (listedFrom s theLen), ¬Halves s theLen x) ∧
      (s.m_poolset.find? theLen = none → firstFree s theLen (listedFrom s theLen) = none →
        OwnBuffer s theLen ∨ ∃ x ∈ firstFree s theLen (rootsFrom s theLen), ¬Halves s theLen x ∧ ¬Spare x))
    ⟨fun ⟨h₁, h₂, h₃, h₄⟩ => ⟨h₁, h₂, h₃, h₄⟩, fun h => ⟨h.small, h.back, h.listed, h.roots⟩⟩

/-- When `Alloc(len)` meets no defect. -/
def AllocOk (s : MemPool) (len : Nat) : Prop := LenOk s (getCorrectLessChipLen len)

instance (s : MemPool) (len : Nat) : Decidable (AllocOk s len) := inferInstanceAs (Decidable (LenOk _ _))

/-- `malloc` returns memory that no buffer has. -/
def Fresh (s : MemPool) (len : Nat) (sys : Int) : Prop :=
  ∀ b ∈ s.m_OriginalBuffer, b.pOriStart + b.len ≤ sys ∨ sys + (len : Int) ≤ b.pOriStart

instance (s : MemPool) (len : Nat) (sys : Int) : Decidable (Fresh s len sys) := inferInstanceAs (Decidable (∀ b ∈ _, _))

theorem le_getCorrectLessChipLen (len : Nat) : len ≤ getCorrectLessChipLen len := by
  simp only [getCorrectLessChipLen, DEFAULTBLOCK]
  split_ifs <;> omega

/-! ## The ways to a block -/

/-- The node `x` is handed out, whole or its front. -/
inductive Hands (s s' : MemPool) (x : Nat) (n : MemNode) (theLen : Nat) : Prop
  | whole (hm : HandsWhole s s' x n) (hlen : n.nLen = theLen)
  | front (n' : MemNode) (hm : HandsFront s s' x theLen n n')

theorem Hands.pools (hm : Hands s s' x n theLen) : s'.m_pools = s.m_pools := by
  cases hm with
  | whole hm hlen => exact hm.pools
  | front n' hm => exact hm.pools

theorem Shape.hand (h : Shape s) (hm : Hands s s' x n theLen) : Shape s' := by
  cases hm with
  | whole hm hlen => exact h.hand_whole hm
  | front n' hm => exact h.hand_front hm

theorem takeBack_hands (h : Shape s) {ids : List Nat} (hids : s.m_poolset.find? theLen = some ids) (hne : ids ≠ []) :
    ∃ s' n, takeBack s theLen ids = .ok (s', some n.pStart) ∧ Hands s s' (ids.getLast hne) n theLen := by
  have hmem := StdMap.find?_eq_some.1 hids
  have hlast := List.getLast_mem hne
  obtain ⟨n, hx, hn, hnlen⟩ := h.listed theLen (ids.getLast hne) ⟨ids, hmem, hlast⟩
  have hrun : takeBack s theLen ids = .ok ({ setNode s (ids.getLast hne) { n with eStatus := .UF_USE } with
      m_record := s.m_record.insert n.pStart (ids.getLast hne), m_poolset := s.m_poolset.set theLen ids.dropLast },
      some n.pStart) := by
    rw [takeBack, List.getLast?_eq_getLast_of_ne_nil hne]
    dsimp only
    rw [deref_eq hx]
    rfl
  have hnodup := h.nodup theLen ids hmem
  have hdrop : ∀ y, y ∈ ids.dropLast ↔ y ∈ ids ∧ y ≠ ids.getLast hne := by
    intro y
    have hsplit := List.dropLast_append_getLast hne
    have hnd : (ids.dropLast ++ [ids.getLast hne]).Nodup := by rwa [hsplit]
    have hnot := (List.nodup_append.1 hnd).2.2
    refine ⟨?_, ?_⟩
    · intro hy
      exact ⟨List.dropLast_subset _ hy, hnot y hy _ (List.mem_singleton_self _)⟩
    · rintro ⟨hy, hyne⟩
      rw [← hsplit, List.mem_append, List.mem_singleton] at hy
      exact hy.resolve_right hyne
  exact ⟨_, n, hrun, .whole ⟨⟨hx, rfl, rfl, rfl⟩, hn,
    fun k y => inSet_set_remove hmem hdrop fun a ha => (h.key hx ha).trans hnlen,
    noRepeat_set h.nodup (hnodup.sublist (List.dropLast_sublist _)), rfl⟩ hnlen⟩

/-- A listed node comes down to itself. -/
theorem freeNode_listed (h : Shape s) {k id : Nat} (hid : InSet s.m_poolset k id) (hf : freeNode s theLen id = some x) :
    id = x := by
  obtain ⟨n, hn, hst, -⟩ := h.listed k id hid
  obtain ⟨hr, -⟩ := freeNode_eq_some.1 hf
  rw [depth, reached, hn] at hr
  simp only [hst, reduceCtorEq, if_false] at hr
  exact Option.some.inj hr

theorem Shape.known_listed (h : Shape s) (theLen : Nat) : Known s (listedFrom s theLen) := by
  refine known_entriesFrom (fun k x hx => ?_) theLen
  obtain ⟨n, hn, -⟩ := h.listed k x hx
  exact ⟨n, hn⟩

theorem Shape.known_roots (h : Shape s) (theLen : Nat) : Known s (rootsFrom s theLen) :=
  known_entriesFrom (fun k x hx => (h.roots k x hx).1) theLen

/-- A search of the free list finds a node that is listed. -/
theorem listed_of_firstFree (h : Shape s) (hf : firstFree s theLen (listedFrom s theLen) = some x) :
    ∃ k, InSet s.m_poolset k x := by
  obtain ⟨id, hid, hf⟩ := List.exists_of_findSome?_eq_some hf
  obtain ⟨e, he, hid⟩ := List.mem_flatMap.1 hid
  have hin : InSet s.m_poolset e.1 id := ⟨e.2, mem_of_mem_entriesFrom he, hid⟩
  exact ⟨e.1, freeNode_listed h hin hf ▸ hin⟩

/-- Chips of different lengths, from a node that is not of the length of two blocks. -/
theorem chips_ne (hx : s.nodes.read x = some n) (hlt : theLen < n.nLen) (hhalf : 0 < theLen → ¬Halves s theLen x) :
    n.nLen - theLen ≠ theLen := by
  intro he
  refine hhalf (by omega) ?_
  rw [Halves, hx, Option.map_some]
  congr 1
  omega

/-- A listed node is split; it leaves the free list and its rest is listed. -/
theorem trySet_hands (h : Shape s) (hkey : s.m_poolset.find? theLen = none)
    (hf : firstFree s theLen (listedFrom s theLen) = some x) (hhalf : 0 < theLen → ¬Halves s theLen x) :
    ∃ s' n, trySet theLen s (entriesFrom s.m_poolset theLen) = .ok (s', some n.pStart) ∧ Hands s s' x n theLen := by
  obtain ⟨k₀, hlisted⟩ := listed_of_firstFree h hf
  obtain ⟨n, hx, hn, hnlen⟩ := h.listed k₀ x hlisted
  obtain ⟨n', hx', -, hle⟩ := firstFree_spec hf
  rw [hx] at hx'
  cases hx'
  have hlt : theLen < n.nLen := by
    rcases Nat.lt_or_eq_of_le hle with hlt | heq
    · exact hlt
    · obtain ⟨l, hl, -⟩ := hlisted
      exact absurd (hnlen.symm.trans heq.symm) (StdMap.find?_eq_none.1 hkey (k₀, l) hl)
  have hne := chips_ne hx hlt hhalf
  obtain ⟨s₁, n', hget, hs, hlong, hset₁, hrec₁, hpools₁, hbufs₁⟩ :=
    getAddress_split hx (h.forest.whole x n hx (by rw [hn]; simp)) hlt hne
  obtain ⟨k, ids, j, id, hmem, hj, hid, hrun⟩ := trySet_some h.standing (h.known_listed theLen) hf hget
  have hids := mem_of_mem_entriesFrom hmem
  have hidx : id = x := freeNode_listed h ⟨ids, hids, List.mem_of_getElem? hj⟩ hid
  subst hidx
  have hlisted : InSet s.m_poolset k id := ⟨ids, hids, List.mem_of_getElem? hj⟩
  have hnew : ¬InSet s.m_poolset (n.nLen - theLen) (s.nodes.length + 1) := by
    intro hin
    obtain ⟨c, hc, -⟩ := h.listed _ _ hin
    rw [not_read_length] at hc
    cases hc
  -- the rest may be listed under the same length: then the list has grown
  obtain ⟨ids', hids', hprefix⟩ : ∃ l', (k, l') ∈ s₁.m_poolset ∧ ids <+: l' := hset₁ ▸ pushBack_prefix hids
  obtain ⟨more, rfl⟩ := hprefix
  obtain ⟨hjlt, hjid⟩ := List.getElem?_eq_some_iff.1
    ((List.getElem?_append_left (List.getElem?_eq_some_iff.1 hj).1 : (ids ++ more)[j]? = ids[j]?).trans hj)
  have hrep : NoRepeat s₁.m_poolset := by
    rw [hset₁]
    exact noRepeat_pushBack h.nodup hnew
  have hnodup := hrep k _ hids'
  have herase : ∀ y, y ∈ (ids ++ more).eraseIdx j ↔ y ∈ ids ++ more ∧ y ≠ id := by
    intro y
    rw [← hnodup.erase_getElem j hjlt, hjid, hnodup.mem_erase_iff, and_comm]
  have hidne : id ≠ s.nodes.length + 1 := by
    have := Heap.lt_of_read hx
    omega
  have honly : ∀ a, InSet s₁.m_poolset a id → a = k := by
    intro a ha
    rw [hset₁, inSet_pushBack] at ha
    rcases ha with ha | ⟨-, he⟩
    · exact (h.key hx ha).trans (h.key hx hlisted).symm
    · exact absurd he hidne
  refine ⟨_, n, hrun, .front n' ⟨hx, hn, hlt, hne, hs, hlong, fun k' y => ?_, ?_, hrec₁, hpools₁, hbufs₁⟩⟩
  · simp only [StdMap.find?_eq_some.2 hids', Option.getD_some]
    rw [inSet_set_remove hids' herase honly, hset₁, inSet_pushBack, or_and_right]
    refine or_congr_right (and_iff_left_of_imp fun hy => ?_)
    rw [hy.2]
    exact hidne.symm
  · simp only [StdMap.find?_eq_some.2 hids', Option.getD_some]
    exact noRepeat_set hrep (hnodup.sublist (List.eraseIdx_sublist _ _))

/-- A node that is not listed is handed out, whole or split. -/
theorem getAddress_hands (h : Shape s) (hx : s.nodes.read x = some n) (hn : n.eStatus = .UF_NONE) (hle : theLen ≤ n.nLen)
    (hhalf : 0 < theLen → ¬Halves s theLen x) (hnot : ∀ k, ¬InSet s.m_poolset k x) :
    ∃ s', getAddress s x theLen = .ok (s', some n.pStart) ∧ Hands s s' x n theLen := by
  have hother : ∀ k y, InSet s.m_poolset k y ↔ InSet s.m_poolset k y ∧ y ≠ x := by
    refine fun k y => (and_iff_left_of_imp fun hin he => ?_).symm
    rw [he] at hin
    exact hnot k hin
  rcases Nat.lt_or_eq_of_le hle with hlt | heq
  · have hne := chips_ne hx hlt hhalf
    obtain ⟨s₁, n', hget, hs, hlong, hset₁, hrec₁, hpools₁, hbufs₁⟩ :=
      getAddress_split hx (h.forest.whole x n hx (by rw [hn]; simp)) hlt hne
    have hnew : ¬InSet s.m_poolset (n.nLen - theLen) (s.nodes.length + 1) := by
      intro hin
      obtain ⟨c, hc, -⟩ := h.listed _ _ hin
      rw [not_read_length] at hc
      cases hc
    refine ⟨_, hget, .front n' ⟨hx, hn, hlt, hne, hs, hlong, fun k y => ?_, ?_, hrec₁, hpools₁, hbufs₁⟩⟩
    · rw [hset₁, inSet_pushBack, ← hother]
    · rw [hset₁]
      exact noRepeat_pushBack h.nodup hnew
  · exact ⟨_, getAddress_whole hx heq.symm, .whole ⟨⟨hx, rfl, rfl, rfl⟩, hn, hother, h.nodup, rfl⟩ heq.symm⟩

/-- What the search of the buffers finds was not listed, or the free list would have had it. -/
theorem not_listed_of_root (h : Shape s) (hx : s.nodes.read x = some n) (hn : n.eStatus = .UF_NONE) (hle : theLen ≤ n.nLen)
    (hf : firstFree s theLen (listedFrom s theLen) = none) (k : Nat) : ¬InSet s.m_poolset k x := by
  intro ⟨l, hl, hxl⟩
  obtain ⟨c, hc, -, hck⟩ := h.listed k x ⟨l, hl, hxl⟩
  rw [hx] at hc
  cases hc
  have hmem : x ∈ listedFrom s theLen := List.mem_flatMap.2 ⟨(k, l), (mem_entriesFrom hl (by simp only; omega)).1, hxl⟩
  have hnone := List.findSome?_eq_none_iff.1 hf x hmem
  have hreach : reached s s.depth x = some x := by
    rw [depth, reached, hx]
    simp only [hn, reduceCtorEq, if_false]
  rw [freeNode_eq_some.2 ⟨hreach, n, hx, hn, hle⟩] at hnone
  cases hnone

/-! ## AllocImpl -/

/-- A buffer of its own for a long request, or nothing. -/
def Lengthened (s s' : MemPool) (theLen : Nat) (sys : Int) : Prop := s' = s ∨ (32 < theLen ∧ Adds s s' ⟨theLen, sys⟩)

theorem lengthened_addLong (s : MemPool) (theLen : Nat) (sys : Int) : Lengthened s (addLong s theLen sys) theLen sys := by
  rw [addLong]
  split_ifs with hown
  · exact .inr ⟨hown.1, rfl, rfl, rfl, rfl, rfl⟩
  · exact .inl rfl

theorem Shape.lengthen (h : Shape s) (hm : Lengthened s s' theLen sys) : Shape s' := by
  rcases hm with rfl | ⟨-, hm⟩
  · exact h
  · exact h.add hm

theorem Lengthened.record (hm : Lengthened s s' theLen sys) : s'.m_record = s.m_record := by
  rcases hm with rfl | ⟨-, hm⟩
  · rfl
  · exact hm.record

theorem addLong_mem (s : MemPool) (theLen : Nat) (sys : Int) :
    (addLong s theLen sys).mem = if OwnBuffer s theLen then (s.addBuffer theLen sys).mem else s.mem := by
  by_cases hown : OwnBuffer s theLen
  · have hadd : addLong s theLen sys = pushNode (s.addBuffer theLen sys) ⟨theLen, .UF_NONE, sys, .empty⟩ := if_pos hown
    rw [hadd, if_pos hown]
    rfl
  · have hadd : addLong s theLen sys = s := if_neg hown
    rw [hadd, if_neg hown]

/-- The search of the buffers comes to the node of a new buffer first. -/
theorem addLong_found (hown : OwnBuffer s theLen) (sys : Int) :
    (addLong s theLen sys).nodes.read s.nodes.length = some ⟨theLen, .UF_NONE, sys, .empty⟩ ∧
      firstFree (addLong s theLen sys) theLen (rootsFrom (addLong s theLen sys) theLen) = some s.nodes.length := by
  have hadd : addLong s theLen sys = pushNode (s.addBuffer theLen sys) ⟨theLen, .UF_NONE, sys, .empty⟩ := if_pos hown
  rw [hadd]
  generalize hs₁ : pushNode (s.addBuffer theLen sys) ⟨theLen, .UF_NONE, sys, .empty⟩ = s₁
  have hread : s₁.nodes.read s.nodes.length = some ⟨theLen, .UF_NONE, sys, .empty⟩ := by
    rw [← hs₁]
    exact (Heap.read_new _ _ _).trans (if_pos rfl)
  have hpools : s₁.m_pools = s.m_pools.insert theLen [s.nodes.length] := by
    rw [← hs₁, pushNode, pushBack]
    simp only [addBuffer, hown.2]
  have hmem : (theLen, [s.nodes.length]) ∈ s₁.m_pools := by
    rw [hpools, StdMap.mem_insert_new (StdMap.find?_eq_none.1 hown.2)]
    exact .inr rfl
  have hhead := (mem_entriesFrom hmem (le_refl theLen)).2 rfl
  obtain ⟨rest, hrest⟩ : ∃ rest, entriesFrom s₁.m_pools theLen = (theLen, [s.nodes.length]) :: rest := by
    cases he : entriesFrom s₁.m_pools theLen with
    | nil => rw [he] at hhead; cases hhead
    | cons e rest =>
      rw [he] at hhead
      cases hhead
      exact ⟨rest, rfl⟩
  have hreach : reached s₁ s₁.depth s.nodes.length = some s.nodes.length := by
    rw [depth, reached, hread]
    simp only [reduceCtorEq, if_false]
  refine ⟨hread, ?_⟩
  rw [rootsFrom, hrest, List.flatMap_cons, firstFree, List.cons_append, List.findSome?_cons,
    freeNode_eq_some.2 ⟨hreach, _, hread, rfl, le_rfl⟩]

/-- What `AllocImpl` does when it hands out the node `x`: a long request may get its buffer after that too. -/
inductive Took (s s' : MemPool) (x : Nat) (n : MemNode) (theLen : Nat) (sys : Int) : Prop
  | after (t : MemPool) (hand : Hands s t x n theLen) (long : Lengthened t s' theLen sys)
  | before (t : MemPool) (long : Lengthened s t theLen sys) (hand : Hands t s' x n theLen)

/-- The node a request is taken from: the last of the list of its length, or what the searches come to, or the one of its own
buffer. -/
def found (s : MemPool) (theLen : Nat) : Option Nat :=
  match s.m_poolset.find? theLen with
  | some ids => ids.getLast?
  | none => (firstFree s theLen (listedFrom s theLen)).or
      (if OwnBuffer s theLen then some s.nodes.length else firstFree s theLen (rootsFrom s theLen))

/-- The request is taken from the buffer that was made for it. -/
theorem tryPools_ownBuffer (h : Shape s) (hown : OwnBuffer s theLen) (sys : Int) :
    ∃ s', tryPools theLen (addLong s theLen sys) (entriesFrom (addLong s theLen sys).m_pools theLen) = .ok (s', some sys) ∧
      Hands (addLong s theLen sys) s' s.nodes.length ⟨theLen, .UF_NONE, sys, .empty⟩ theLen ∧
      s'.mem = (addLong s theLen sys).mem := by
  obtain ⟨hread, hfree⟩ := addLong_found hown sys
  have hshape := h.lengthen (lengthened_addLong s theLen sys)
  have hset : (addLong s theLen sys).m_poolset = s.m_poolset := by
    rw [addLong]
    split_ifs <;> rfl
  have hnot : ∀ k, ¬InSet (addLong s theLen sys).m_poolset k s.nodes.length := by
    intro k hin
    rw [hset] at hin
    obtain ⟨c, hc, -⟩ := h.listed k _ hin
    exact absurd (Heap.lt_of_read hc) (lt_irrefl _)
  have hhalf : 0 < theLen → ¬Halves (addLong s theLen sys) theLen s.nodes.length := by
    rw [Halves, hread, Option.map_some]
    intro hpos he
    have := Option.some.inj he
    simp only at this
    omega
  obtain ⟨s', hget, hhand⟩ := getAddress_hands hshape hread rfl le_rfl hhalf hnot
  exact ⟨s', tryPools_some hshape.standing (hshape.known_roots theLen) hfree hget, hhand, getAddress_mem hget⟩

theorem take_took (h : Shape s) (sys : Int) (hsmall : getCorrectLessChipLen len < 2 ^ 31)
    (hx : found s (getCorrectLessChipLen len) = some x)
    (hhalf : 0 < getCorrectLessChipLen len → ¬Halves s (getCorrectLessChipLen len) x) :
    ∃ s' n, take s len sys = .ok (s', some n.pStart) ∧ Took s s' x n (getCorrectLessChipLen len) sys ∧
      s'.mem = memAfter s (getCorrectLessChipLen len) sys := by
  simp only [take, memAfter]
  rw [if_neg (Nat.not_le.2 hsmall)]
  generalize getCorrectLessChipLen len = theLen at hx hhalf
  rw [found] at hx
  cases hkey : s.m_poolset.find? theLen with
  | some ids =>
    rw [hkey] at hx
    have hne : ids ≠ [] := by
      intro he
      rw [he] at hx
      cases hx
    obtain ⟨s', n, hrun, hhand⟩ := takeBack_hands h hkey hne
    have hlast : ids.getLast hne = x := Option.some.inj ((List.getLast?_eq_getLast_of_ne_nil hne).symm.trans hx)
    refine ⟨s', n, hrun, .before s (.inl rfl) (hlast ▸ hhand), ?_⟩
    rw [if_neg fun hc => by cases hkey.symm.trans hc.1]
    exact takeBack_mem hrun
  | none =>
    rw [hkey] at hx
    dsimp only at hx ⊢
    cases hf : firstFree s theLen (listedFrom s theLen) with
    | some y =>
      rw [hf] at hx
      cases hx
      obtain ⟨s₁, n, hrun, hhand⟩ := trySet_hands h hkey hf hhalf
      have hown : OwnBuffer s₁ theLen ↔ Clears s theLen := by rw [Clears, OwnBuffer, hhand.pools, OwnBuffer, and_iff_right hkey]
      rw [hrun]
      refine ⟨_, n, rfl, .after s₁ hhand (lengthened_addLong _ _ _), ?_⟩
      have hmem : s₁.mem = s.mem := trySet_mem hrun
      rw [addLong_mem, if_congr hown rfl rfl, addBuffer, addBuffer, hmem]
    | none =>
      rw [hf, Option.none_or] at hx
      rw [trySet_none h.standing (h.known_listed theLen) hf]
      simp only [bind, Except.bind]
      by_cases hown : OwnBuffer s theLen
      · rw [if_pos hown] at hx
        cases hx
        obtain ⟨s', hrun, hhand, hmem⟩ := tryPools_ownBuffer h hown sys
        rw [hrun]
        refine ⟨s', _, rfl, .before _ (lengthened_addLong s theLen sys) hhand, ?_⟩
        rw [hmem, addLong_mem, if_pos hown, if_pos ⟨hkey, hown⟩]
      · rw [if_neg hown] at hx
        have hadd : addLong s theLen sys = s := if_neg hown
        obtain ⟨n, hxn, hn, hle⟩ := firstFree_spec hx
        obtain ⟨s', hget, hhand⟩ := getAddress_hands h hxn hn hle hhalf (not_listed_of_root h hxn hn hle hf)
        rw [hadd, tryPools_some h.standing (h.known_roots theLen) hx hget]
        refine ⟨s', n, rfl, .before s (.inl rfl) hhand, ?_⟩
        rw [if_neg fun hc => hown hc.2]
        exact getAddress_mem hget

theorem Hands.kept (hm : Hands s s' x n theLen) : ∀ e ∈ s.m_record, e ∈ s'.m_record := by
  intro e he
  cases hm with
  | whole hm hlen => exact hm.record ▸ StdMap.mem_insert.2 (.inl he)
  | front n' hm => exact hm.record ▸ StdMap.mem_insert.2 (.inl he)

/-- The record loses nothing. -/
theorem Took.kept (hm : Took s s' x n theLen sys) : ∀ e ∈ s.m_record, e ∈ s'.m_record := by
  intro e he
  cases hm with
  | after t hand long => exact long.record ▸ hand.kept e he
  | before t long hand => exact hand.kept e (long.record.symm ▸ he)

theorem Shape.took (h : Shape s) (hm : Took s s' x n theLen sys) : Shape s' := by
  cases hm with
  | after t hand long => exact (h.hand hand).lengthen long
  | before t long hand => exact (h.lengthen long).hand hand

/-! ## The invariant -/

theorem Inv.hand (h : Inv s L) (hm : Hands s s' x n theLen) (hsp : ¬Spare x) (hpos : 0 < theLen) (hle : len ≤ theLen) :
    Inv s' ((n.pStart, len) :: L) := by
  cases hm with
  | whole hm hlen => exact h.hand_whole hm hsp (hle.trans hlen.ge)
  | front n' hm => exact h.hand_front hm hsp hpos hle

theorem Inv.lengthen (h : Inv s L) (hm : Lengthened s s' theLen sys) (hpos : 0 < theLen) (hfresh : Fresh s theLen sys) :
    Inv s' L := by
  rcases hm with rfl | ⟨-, hm⟩
  · exact h
  · exact h.add hm hpos hfresh

theorem Hands.bufs (hm : Hands s s' x n theLen) : s'.m_OriginalBuffer = s.m_OriginalBuffer := by
  cases hm with
  | whole hm hlen => exact hm.bufs
  | front n' hm => exact hm.bufs

theorem Inv.took (h : Inv s L) (hm : Took s s' x n theLen sys) (hsp : ¬Spare x) (hpos : 0 < theLen) (hle : len ≤ theLen)
    (hfresh : Fresh s theLen sys) : Inv s' ((n.pStart, len) :: L) := by
  cases hm with
  | after t hand long =>
    refine (h.hand hand hsp hpos hle).lengthen long hpos ?_
    rw [Fresh, hand.bufs]
    exact hfresh
  | before t long hand => exact (h.lengthen long hpos hfresh).hand hand hsp hpos hle

/-- On the condition a node is found, and it may be handed out. -/
theorem LenOk.found (h : Inv s L) (hok : LenOk s theLen) (hpos : 0 < theLen) :
    ∃ x, found s theLen = some x ∧ ¬Halves s theLen x ∧ ¬Spare x := by
  obtain ⟨-, hback, hlisted, hroots⟩ := hok
  rw [MemPool.found]
  cases hkey : s.m_poolset.find? theLen with
  | some ids =>
    have hne := hback ids hkey
    obtain ⟨n, hx, -, hnlen, hsp⟩ := h.listed theLen (ids.getLast hne) ⟨ids, StdMap.find?_eq_some.1 hkey, List.getLast_mem hne⟩
    refine ⟨_, List.getLast?_eq_getLast_of_ne_nil hne, ?_, hsp⟩
    rw [Halves, hx, Option.map_some]
    intro he
    have := Option.some.inj he
    omega
  | none =>
    dsimp only
    cases hf : firstFree s theLen (listedFrom s theLen) with
    | some x =>
      obtain ⟨k, hin⟩ := listed_of_firstFree h.shape hf
      exact ⟨x, rfl, hlisted hkey x hf, h.listed_spare hin⟩
    | none =>
      rw [Option.none_or]
      by_cases hown : OwnBuffer s theLen
      · refine ⟨_, if_pos hown, ?_, ?_⟩
        · have := not_read_length s 0
          rw [Nat.add_zero] at this
          rw [Halves, this]
          simp
        · have := h.many
          rw [Spare]
          omega
      · obtain ⟨x, hx, hhalf, hsp⟩ := (hroots hkey hf).resolve_left hown
        exact ⟨x, (if_neg hown).trans hx, hhalf, hsp⟩

/-- What a call that hands out a block has done. -/
structure Handed (s s' : MemPool) (L : Blocks) (p : Int) (len : Nat) : Prop where
  inv : Inv s' ((p, len) :: L)
  kept : ∀ e ∈ s.m_record, e ∈ s'.m_record

/-- `AllocImpl` hands out a block. -/
theorem take_spec (h : Inv s L) (hlen : 0 < len) (hok : AllocOk s len) (hfresh : Fresh s (getCorrectLessChipLen len) sys) :
    ∃ s' p, take s len sys = .ok (s', some p) ∧ Handed s s' L p len := by
  have hle := le_getCorrectLessChipLen len
  have hok : LenOk s (getCorrectLessChipLen len) := hok
  have hpos : 0 < getCorrectLessChipLen len := by omega
  obtain ⟨x, hx, hhalf, hsp⟩ := hok.found h hpos
  obtain ⟨s', n, hrun, htook, -⟩ := take_took h.shape sys hok.small hx fun _ => hhalf
  exact ⟨s', n.pStart, hrun, h.took htook hsp hpos hle hfresh, htook.kept⟩

/-! ## Free -/

/-- `FreeImpl` of a recorded block. -/
theorem give_gives (h : Shape s) (hr : (p, x) ∈ s.m_record) : ∃ s' n, give s p = .ok s' ∧ Gives s s' p x n := by
  obtain ⟨n, hx, -⟩ := h.recorded p x hr
  have hrun : give s p = .ok { setNode s x { n with eStatus := .UF_NONE } with
      m_poolset := pushBack s.m_poolset n.nLen x, m_record := s.m_record.erase p } := by
    rw [give, StdMap.find?_eq_some.2 hr]
    dsimp only
    rw [deref_eq hx]
    rfl
  exact ⟨_, n, hrun, ⟨hx, rfl, rfl, rfl⟩, hr, rfl, rfl⟩

theorem give_spec (h : Inv s L) (hp : ∃ l, (p, l) ∈ L) : ∃ s', give s p = .ok s' ∧ Inv s' (without L p) := by
  obtain ⟨l, hp⟩ := hp
  obtain ⟨x, -, hr, -⟩ := h.live p l hp
  obtain ⟨s', n, hrun, hm⟩ := give_gives h.shape hr
  exact ⟨s', hrun, h.take_back hm⟩

/-- `Realloc` has marked the node free before `FreeImpl` does. -/
theorem give_marked (hr : (p, x) ∈ s.m_record) (hx : s.nodes.read x = some n) :
    give (setNode s x { n with eStatus := .UF_NONE }) p = give s p := by
  have hread : (setNode s x { n with eStatus := .UF_NONE }).nodes.read x = some { n with eStatus := .UF_NONE } :=
    (Heap.read_write (Heap.lt_of_read hx) _ _).trans (if_pos rfl)
  have hrec : (setNode s x { n with eStatus := .UF_NONE }).m_record.find? p = some x := StdMap.find?_eq_some.2 hr
  rw [give, hrec, give, StdMap.find?_eq_some.2 hr]
  dsimp only
  rw [deref_eq hread, deref_eq hx]
  simp only [bind, Except.bind, setNode, Heap.write, List.set_set]

end MemPool
