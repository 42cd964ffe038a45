/-
Signals and slots (Pattern/Signal/XObject.h, Pattern/Signal/XObject.cpp).

`m_objSets` has for each object and each of its signals a set of `slotInfo`.
The order of the set looks at the receiver only, so it keeps one slot for a
receiver, the first. `emits_iff` says in which runs of `XConnect` and
`XDisconnect` a signal still reaches exactly what is connected to it.
-/
import XFramework.Lib.Fallible
import XFramework.Lib.StdMap
import Mathlib.Data.String.Basic

open Fallible

namespace XObject

-- `XObject*`, and the names of signals and slots
variable {ο ν : Type} [LinearOrder ο] [LinearOrder ν]

/-- `set<slotInfo>`: one `strSlot` for each `slot`, by which it is ordered. -/
abbrev Slots (ο ν : Type) [LinearOrder ο] := StdMap ο ν

/-- `m_objSets`. -/
abbrev ObjSets (ο ν : Type) [LinearOrder ο] [LinearOrder ν] := StdMap ο (StdMap ν (Slots ο ν))

/-- The arguments of `XConnect` and `XDisconnect`. -/
structure Pair (ο ν : Type) where
  pSignal : ο
  strSig : ν
  pSlot : ο
  strSlot : ν
  deriving DecidableEq

/-- `end()` is dereferenced. -/
inductive Fault
  | endDeref
  deriving DecidableEq

/-- `XDisconnect`. -/
def xDisconnect (m_objSets : ObjSets ο ν) (p : Pair ο ν) : Except Fault (ObjSets ο ν) :=
  match m_objSets.find? p.pSignal with
  | none => .ok m_objSets
  | some tagMap =>
    match tagMap.find? p.strSig with
    | none => .error .endDeref
    | some tagSet =>
      let tagSet := if tagSet.find? p.pSlot ≠ none then tagSet.erase p.pSlot else tagSet
      -- with its last slot the signal goes, and the object with all its signals
      if tagSet.size = 0 then .ok (m_objSets.erase p.pSignal)
      else .ok (m_objSets.set p.pSignal (tagMap.set p.strSig tagSet))

/-- `XConnect`. -/
def xConnect (m_objSets : ObjSets ο ν) (p : Pair ο ν) : ObjSets ο ν × Bool :=
  match m_objSets.find? p.pSignal with
  | some tagSecond =>
    match tagSecond.find? p.strSig with
    | some tagSet =>
      if tagSet.size = 0 then (m_objSets, false)
      else (m_objSets.set p.pSignal (tagSecond.set p.strSig (tagSet.insert p.pSlot p.strSlot)), true)
    -- the slot gets the name of the signal here
    | none => (m_objSets.set p.pSignal (tagSecond.insert p.strSig (StdMap.empty.insert p.pSlot p.strSig)), true)
  | none => (m_objSets.insert p.pSignal (StdMap.empty.insert p.strSig (StdMap.empty.insert p.pSlot p.strSlot)), true)

/-- `XInterface`: the receivers and slots that `emit_signal` calls, in their order. -/
def xInterface (m_objSets : ObjSets ο ν) (pSigObj : ο) (strSig : ν) : List (ο × ν) :=
  match m_objSets.find? pSigObj with
  | none => []
  | some tag =>
    match tag.find? strSig with
    | none => []
    | some tagSet => tagSet.entries

/-- The registry, and what is connected: what `XConnect` was called for and `XDisconnect` not since. -/
structure Signals (ο ν : Type) [LinearOrder ο] [LinearOrder ν] where
  m_objSets : ObjSets ο ν
  connected : List (Pair ο ν)

inductive Action (ο ν : Type)
  | xConnect (p : Pair ο ν)
  | xDisconnect (p : Pair ο ν)

def begin : Signals ο ν := ⟨.empty, []⟩

def step (s : Signals ο ν) : Action ο ν → Except Fault (Signals ο ν)
  | .xConnect p =>
    let r := xConnect s.m_objSets p
    .ok ⟨r.1, if r.2 then p :: s.connected else s.connected⟩
  | .xDisconnect p => do
    let m_objSets ← xDisconnect s.m_objSets p
    .ok ⟨m_objSets, s.connected.filter (· ≠ p)⟩

/-- A signal calls each slot that is connected to it once, and no other. -/
def Exact (s : Signals ο ν) : Prop := ∀ o sig, (xInterface s.m_objSets o sig).Nodup ∧
  ∀ r n, (r, n) ∈ xInterface s.m_objSets o sig ↔ ⟨o, sig, r, n⟩ ∈ s.connected

/-- The call is defined, and the signals are exact after it. -/
def Works (s : Signals ο ν) (x : Action ο ν) : Prop := ∃ t, step s x = .ok t ∧ Exact t

/-- The receiver is connected to the signal with this slot, if at all. -/
def OneSlot (s : Signals ο ν) (p : Pair ο ν) : Prop :=
  ∀ q ∈ s.connected, q.pSignal = p.pSignal → q.strSig = p.strSig → q.pSlot = p.pSlot → q.strSlot = p.strSlot

/-- Something is connected to the signal. -/
def HasSlots (s : Signals ο ν) (o : ο) (sig : ν) : Prop := ∃ q ∈ s.connected, q.pSignal = o ∧ q.strSig = sig

def HasSignals (s : Signals ο ν) (o : ο) : Prop := ∃ q ∈ s.connected, q.pSignal = o

/-- The calls that the registry is made for: a receiver has one slot for a signal, and only the first signal of an
object has slots of other names; what is disconnected is a slot of a signal that has one, and the last one only where
the object has no other signal. -/
def Covered (s : Signals ο ν) : Action ο ν → Prop
  | .xConnect p => OneSlot s p ∧ (HasSignals s p.pSignal → ¬HasSlots s p.pSignal p.strSig → p.strSlot = p.strSig)
  | .xDisconnect p => OneSlot s p ∧ (HasSignals s p.pSignal → HasSlots s p.pSignal p.strSig) ∧
    (p ∈ s.connected → (∀ q ∈ s.connected, q.pSignal = p.pSignal → q.strSig = p.strSig → q = p) →
      ∀ q ∈ s.connected, q.pSignal = p.pSignal → q = p)

variable {s t : Signals ο ν} {m : ObjSets ο ν} {p : Pair ο ν} {o : ο} {sig : ν} {x : Action ο ν}

/-! ## What a signal calls -/

/-- What the signal of an object calls. -/
def slotsOf (tag : StdMap ν (Slots ο ν)) (sig : ν) : List (ο × ν) :=
  match tag.find? sig with
  | none => []
  | some tagSet => tagSet.entries

theorem xInterface_some {tag : StdMap ν (Slots ο ν)} (h : m.find? o = some tag) : xInterface m o sig = slotsOf tag sig := by
  rw [xInterface, h]
  rfl

theorem xInterface_none (h : m.find? o = none) : xInterface m o sig = [] := by
  rw [xInterface, h]

theorem xInterface_congr {m' : ObjSets ο ν} (h : m'.find? o = m.find? o) : xInterface m' o sig = xInterface m o sig := by
  rw [xInterface, xInterface, h]

theorem slotsOf_some {tag : StdMap ν (Slots ο ν)} {tagSet : Slots ο ν} (h : tag.find? sig = some tagSet) :
    slotsOf tag sig = tagSet.entries := by
  rw [slotsOf, h]

theorem slotsOf_none {tag : StdMap ν (Slots ο ν)} (h : tag.find? sig = none) : slotsOf tag sig = [] := by
  rw [slotsOf, h]

theorem slotsOf_congr {tag tag' : StdMap ν (Slots ο ν)} (h : tag'.find? sig = tag.find? sig) :
    slotsOf tag' sig = slotsOf tag sig := by
  rw [slotsOf, slotsOf, h]

theorem nodup_xInterface : (xInterface m o sig).Nodup := by
  rw [xInterface]
  split
  · exact List.nodup_nil
  · split
    · exact List.nodup_nil
    · exact StdMap.nodup_entries _

theorem exact_iff : Exact s ↔ ∀ o sig r n, (r, n) ∈ xInterface s.m_objSets o sig ↔ ⟨o, sig, r, n⟩ ∈ s.connected :=
  ⟨fun h o sig => (h o sig).2, fun h o sig => ⟨nodup_xInterface, h o sig⟩⟩

/-- An object has a signal, and a signal a slot. -/
structure WellFormed (m : ObjSets ο ν) : Prop where
  signals : ∀ o tag, m.find? o = some tag → tag.size ≠ 0
  slots : ∀ o tag sig tagSet, m.find? o = some tag → tag.find? sig = some tagSet → tagSet.size ≠ 0

/-- The slots of one signal are others now. -/
structure Replaced (m m' : ObjSets ο ν) (o : ο) (sig : ν) (tagSet : Slots ο ν) : Prop where
  here : xInterface m' o sig = tagSet.entries
  signals : ∀ sig', sig' ≠ sig → xInterface m' o sig' = xInterface m o sig'
  objects : ∀ o' sig', o' ≠ o → xInterface m' o' sig' = xInterface m o' sig'

theorem replaced_set {tag tag' : StdMap ν (Slots ο ν)} {tagSet : Slots ο ν} (hm : m.find? o = some tag)
    (hself : tag'.find? sig = some tagSet) (hne : ∀ sig', sig' ≠ sig → tag'.find? sig' = tag.find? sig') :
    Replaced m (m.set o tag') o sig tagSet where
  here := by rw [xInterface_some (StdMap.find?_set_self hm), slotsOf_some hself]
  signals sig' hs := by rw [xInterface_some (StdMap.find?_set_self hm), xInterface_some hm, slotsOf_congr (hne sig' hs)]
  objects o' sig' ho := xInterface_congr (StdMap.find?_set_ne ho)

theorem replaced_new {tagSet : Slots ο ν} (hm : m.find? o = none) :
    Replaced m (m.insert o (StdMap.empty.insert sig tagSet)) o sig tagSet where
  here := by
    rw [xInterface_some (StdMap.find?_insert_new hm)]
    exact slotsOf_some (StdMap.find?_insert_new rfl)
  signals sig' hs := by
    rw [xInterface_some (StdMap.find?_insert_new hm), xInterface_none hm]
    exact slotsOf_none (StdMap.find?_insert_ne hs)
  objects o' sig' ho := xInterface_congr (StdMap.find?_insert_ne ho)

/-- Then the signals are exact when these slots are what is connected. -/
theorem exact_replaced {m' : ObjSets ο ν} {c : List (Pair ο ν)} {tagSet : Slots ο ν} (hs : Exact s)
    (hrep : Replaced s.m_objSets m' o sig tagSet)
    (hc : ∀ q : Pair ο ν, q.pSignal ≠ o ∨ q.strSig ≠ sig → (q ∈ c ↔ q ∈ s.connected)) :
    Exact ⟨m', c⟩ ↔ ∀ r n, (r, n) ∈ tagSet ↔ ⟨o, sig, r, n⟩ ∈ c := by
  rw [exact_iff] at hs ⊢
  refine ⟨?_, ?_⟩
  · intro h r n
    rw [← h, hrep.here]
    rfl
  · intro h o' sig' r n
    by_cases ho : o' = o
    · subst ho
      by_cases hsig : sig' = sig
      · subst hsig
        rw [← h, hrep.here]
        rfl
      · rw [hrep.signals sig' hsig, hs, hc _ (.inr hsig)]
    · rw [hrep.objects o' sig' ho, hs, hc _ (.inl ho)]

theorem Exact.mem_connected (hs : Exact s) {q : Pair ο ν} :
    q ∈ s.connected ↔ (q.pSlot, q.strSlot) ∈ xInterface s.m_objSets q.pSignal q.strSig :=
  (exact_iff.1 hs q.pSignal q.strSig q.pSlot q.strSlot).symm

section Known

variable {tag : StdMap ν (Slots ο ν)}

/-- Nothing is connected to an object that is not there. -/
theorem Exact.no_object (hs : Exact s) (hm : s.m_objSets.find? o = none) {q : Pair ο ν} (hq : q ∈ s.connected) :
    q.pSignal ≠ o := by
  rintro rfl
  rw [hs.mem_connected, xInterface_none hm] at hq
  cases hq

/-- Nothing is connected to a signal that its object does not have. -/
theorem Exact.no_signal (hs : Exact s) (hm : s.m_objSets.find? o = some tag) (htag : tag.find? sig = none) {q : Pair ο ν}
    (hq : q ∈ s.connected) (ho : q.pSignal = o) : q.strSig ≠ sig := by
  rintro rfl
  subst ho
  rw [hs.mem_connected, xInterface_some hm, slotsOf_none htag] at hq
  cases hq

theorem hasSlots_iff (hwf : WellFormed s.m_objSets) (hs : Exact s) (hm : s.m_objSets.find? o = some tag) :
    HasSlots s o sig ↔ tag.find? sig ≠ none := by
  refine ⟨?_, ?_⟩
  · rintro ⟨q, hq, ho, hsig⟩ hnone
    exact hs.no_signal hm hnone hq ho hsig
  · intro hne
    obtain ⟨tagSet, htag⟩ := Option.ne_none_iff_exists'.1 hne
    obtain ⟨r, n, hrn⟩ := StdMap.size_ne_zero.1 (hwf.slots o tag sig tagSet hm htag)
    refine ⟨⟨o, sig, r, n⟩, ?_, rfl, rfl⟩
    rw [hs.mem_connected, xInterface_some hm, slotsOf_some htag]
    exact hrn

theorem hasSignals_iff (hwf : WellFormed s.m_objSets) (hs : Exact s) : HasSignals s o ↔ s.m_objSets.find? o ≠ none := by
  refine ⟨?_, ?_⟩
  · rintro ⟨q, hq, ho⟩ hnone
    exact hs.no_object hnone hq ho
  · intro hne
    obtain ⟨tag, hm⟩ := Option.ne_none_iff_exists'.1 hne
    obtain ⟨sig, tagSet, htag⟩ := StdMap.size_ne_zero.1 (hwf.signals o tag hm)
    have hhas : HasSlots s o sig :=
      (hasSlots_iff hwf hs hm).2 (by rw [StdMap.find?_eq_some.2 htag]; exact Option.some_ne_none _)
    obtain ⟨q, hq, ho, -⟩ := hhas
    exact ⟨q, hq, ho⟩

/-- The slots of a signal that has some are what is connected to it. -/
theorem mem_tagSet {tagSet : Slots ο ν} (hs : Exact s) (hm : s.m_objSets.find? o = some tag)
    (htag : tag.find? sig = some tagSet) {r : ο} {n : ν} : (r, n) ∈ tagSet ↔ ⟨o, sig, r, n⟩ ∈ s.connected := by
  rw [hs.mem_connected, xInterface_some hm, slotsOf_some htag]
  rfl

/-- A receiver that is connected with this slot only: what the set of slots has of it. -/
theorem oneSlot_iff {tagSet : Slots ο ν} (hs : Exact s) (hm : s.m_objSets.find? p.pSignal = some tag)
    (htag : tag.find? p.strSig = some tagSet) : OneSlot s p ↔ ∀ n, (p.pSlot, n) ∈ tagSet → n = p.strSlot := by
  refine ⟨?_, ?_⟩
  · intro h n hn
    exact h _ ((mem_tagSet hs hm htag).1 hn) rfl rfl rfl
  · rintro h ⟨o, sig, r, n⟩ hq ho hsig hr
    dsimp only at ho hsig hr
    subst ho hsig hr
    exact h n ((mem_tagSet hs hm htag).2 hq)

end Known

omit [LinearOrder ο] [LinearOrder ν] in
theorem pair_eq {r : ο} {n : ν} : (⟨p.pSignal, p.strSig, r, n⟩ : Pair ο ν) = p ↔ r = p.pSlot ∧ n = p.strSlot := by
  cases p
  simp

/-! ## XConnect -/

section Connect

variable {tag : StdMap ν (Slots ο ν)} {tagSet : Slots ο ν} {m' : ObjSets ο ν}

theorem xConnect_object (hm : m.find? p.pSignal = none) : xConnect m p =
    (m.insert p.pSignal (StdMap.empty.insert p.strSig (StdMap.empty.insert p.pSlot p.strSlot)), true) := by
  rw [xConnect, hm]

theorem xConnect_signal (hm : m.find? p.pSignal = some tag) (htag : tag.find? p.strSig = none) : xConnect m p =
    (m.set p.pSignal (tag.insert p.strSig (StdMap.empty.insert p.pSlot p.strSig)), true) := by
  simp only [xConnect, hm, htag]

theorem xConnect_slot (hm : m.find? p.pSignal = some tag) (htag : tag.find? p.strSig = some tagSet)
    (hsize : tagSet.size ≠ 0) : xConnect m p =
    (m.set p.pSignal (tag.set p.strSig (tagSet.insert p.pSlot p.strSlot)), true) := by
  simp only [xConnect, hm, htag, if_neg hsize]

theorem works_xConnect (h : xConnect s.m_objSets p = (m', true)) : Works s (.xConnect p) ↔ Exact ⟨m', p :: s.connected⟩ := by
  have hstep : step s (.xConnect p) = .ok ⟨m', p :: s.connected⟩ := by
    simp only [step, h, if_true]
  simp [Works, hstep]

omit [LinearOrder ο] [LinearOrder ν] in
theorem mem_cons_other {c : List (Pair ο ν)} (q : Pair ο ν) (hq : q.pSignal ≠ p.pSignal ∨ q.strSig ≠ p.strSig) :
    q ∈ p :: c ↔ q ∈ c := by
  rw [List.mem_cons, or_iff_right]
  rintro rfl
  exact hq.elim (fun h => h rfl) fun h => h rfl

/-- The first connection of an object. -/
theorem works_connect_object (hs : Exact s) (hm : s.m_objSets.find? p.pSignal = none) : Works s (.xConnect p) := by
  rw [works_xConnect (xConnect_object hm), exact_replaced hs (replaced_new hm) mem_cons_other]
  intro r n
  have hno : (⟨p.pSignal, p.strSig, r, n⟩ : Pair ο ν) ∉ s.connected := fun hq => hs.no_object hm hq rfl
  rw [StdMap.mem_insert_new (by simp), List.mem_cons, or_iff_right StdMap.not_mem_empty, or_iff_left hno, pair_eq,
    Prod.mk.injEq]

/-- The first connection of a further signal. -/
theorem works_connect_signal (hs : Exact s) (hm : s.m_objSets.find? p.pSignal = some tag)
    (htag : tag.find? p.strSig = none) : Works s (.xConnect p) ↔ p.strSlot = p.strSig := by
  have hrep : Replaced s.m_objSets _ p.pSignal p.strSig (StdMap.empty.insert p.pSlot p.strSig) :=
    replaced_set hm (StdMap.find?_insert_new htag) fun sig' h => StdMap.find?_insert_ne h
  rw [works_xConnect (xConnect_signal hm htag), exact_replaced hs hrep mem_cons_other]
  have hmem : ∀ r n, ((r, n) ∈ (StdMap.empty : Slots ο ν).insert p.pSlot p.strSig ↔
      (⟨p.pSignal, p.strSig, r, n⟩ : Pair ο ν) ∈ p :: s.connected) ↔
      ((r = p.pSlot ∧ n = p.strSig) ↔ (r = p.pSlot ∧ n = p.strSlot)) := by
    intro r n
    have hno : (⟨p.pSignal, p.strSig, r, n⟩ : Pair ο ν) ∉ s.connected := fun hq => hs.no_signal hm htag hq rfl rfl
    rw [StdMap.mem_insert_new (by simp), List.mem_cons, or_iff_right StdMap.not_mem_empty, or_iff_left hno, pair_eq,
      Prod.mk.injEq]
  simp only [hmem]
  refine ⟨?_, ?_⟩
  · exact fun h => ((h p.pSlot p.strSig).1 ⟨rfl, rfl⟩).2.symm
  · exact fun h r n => by rw [h]

/-- A further connection of a signal. -/
theorem works_connect_slot (hs : Exact s) (hm : s.m_objSets.find? p.pSignal = some tag)
    (htag : tag.find? p.strSig = some tagSet) (hsize : tagSet.size ≠ 0) : Works s (.xConnect p) ↔ OneSlot s p := by
  have hrep : Replaced s.m_objSets _ p.pSignal p.strSig (tagSet.insert p.pSlot p.strSlot) :=
    replaced_set hm (StdMap.find?_set_self htag) fun sig' h => StdMap.find?_set_ne h
  rw [works_xConnect (xConnect_slot hm htag hsize), exact_replaced hs hrep mem_cons_other, oneSlot_iff hs hm htag]
  simp only [StdMap.mem_insert, List.mem_cons, pair_eq, ← mem_tagSet hs hm htag, Prod.mk.injEq]
  refine ⟨?_, ?_⟩
  · intro h n hn
    rcases (h p.pSlot p.strSlot).2 (.inl ⟨rfl, rfl⟩) with hold | ⟨-, hnew⟩
    · exact StdMap.mem_unique hn hold
    · exact absurd rfl (hnew _ hn)
  · intro h r n
    refine ⟨?_, ?_⟩
    · rintro (hold | ⟨hnew, -⟩)
      · exact .inr hold
      · exact .inl hnew
    · rintro (⟨rfl, rfl⟩ | hold)
      · by_cases hkey : ∀ y ∈ tagSet, y.1 ≠ p.pSlot
        · exact .inr ⟨⟨rfl, rfl⟩, hkey⟩
        · simp only [not_forall, not_not] at hkey
          obtain ⟨⟨r, n⟩, hy, hr⟩ := hkey
          dsimp only at hr
          subst hr
          exact .inl (h n hy ▸ hy)
      · exact .inl hold

theorem works_connect (hwf : WellFormed s.m_objSets) (hs : Exact s) : Works s (.xConnect p) ↔ Covered s (.xConnect p) := by
  rw [Covered, hasSignals_iff hwf hs]
  cases hm : s.m_objSets.find? p.pSignal with
  | none =>
    exact iff_of_true (works_connect_object hs hm)
      ⟨fun q hq ho => absurd ho (hs.no_object hm hq), fun h => absurd rfl h⟩
  | some tag =>
    rw [hasSlots_iff hwf hs hm]
    cases htag : tag.find? p.strSig with
    | none =>
      rw [works_connect_signal hs hm htag]
      refine ⟨?_, ?_⟩
      · exact fun h => ⟨fun q hq ho hsig => absurd hsig (hs.no_signal hm htag hq ho), fun _ _ => h⟩
      · exact fun h => h.2 (Option.some_ne_none _) (not_not_intro rfl)
    | some tagSet =>
      rw [works_connect_slot hs hm htag (hwf.slots _ _ _ _ hm htag)]
      exact (and_iff_left fun _ hno => absurd (Option.some_ne_none _) hno).symm

end Connect

/-! ## XDisconnect -/

/-- What is left of the slots of the signal. -/
def leftOf (tagSet : Slots ο ν) (p : Pair ο ν) : Slots ο ν :=
  if tagSet.find? p.pSlot ≠ none then tagSet.erase p.pSlot else tagSet

omit [LinearOrder ν] in
theorem mem_leftOf {tagSet : Slots ο ν} {y : ο × ν} : y ∈ leftOf tagSet p ↔ y ∈ tagSet ∧ y.1 ≠ p.pSlot := by
  rw [leftOf]
  by_cases hkey : tagSet.find? p.pSlot = none
  · rw [if_neg (not_not_intro hkey)]
    exact ⟨fun hy => ⟨hy, StdMap.find?_eq_none.1 hkey y hy⟩, fun hy => hy.1⟩
  · rw [if_pos hkey, StdMap.mem_erase]

omit [LinearOrder ν] in
theorem leftOf_empty {tagSet : Slots ο ν} (h : (leftOf tagSet p).size = 0) {y : ο × ν} (hy : y ∈ tagSet) : y.1 = p.pSlot := by
  by_contra hne
  exact StdMap.size_ne_zero.2 ⟨y.1, y.2, mem_leftOf.2 ⟨hy, hne⟩⟩ h

/-- Without the object: what else was connected to it must have been the pair. -/
theorem exact_erase (hs : Exact s) : Exact ⟨s.m_objSets.erase p.pSignal, s.connected.filter (· ≠ p)⟩ ↔
    ∀ q ∈ s.connected, q.pSignal = p.pSignal → q = p := by
  have hgone : ∀ sig, xInterface (s.m_objSets.erase p.pSignal) p.pSignal sig = [] := fun sig =>
    xInterface_none StdMap.find?_erase_self
  have hother : ∀ o sig, o ≠ p.pSignal → xInterface (s.m_objSets.erase p.pSignal) o sig = xInterface s.m_objSets o sig :=
    fun o sig ho => xInterface_congr (StdMap.find?_erase_ne ho)
  simp only [exact_iff, List.mem_filter, decide_eq_true_eq]
  refine ⟨?_, ?_⟩
  · intro h q hq ho
    by_contra hne
    have hcall := (h q.pSignal q.strSig q.pSlot q.strSlot).2 ⟨hq, hne⟩
    rw [ho, hgone] at hcall
    cases hcall
  · intro h o sig r n
    by_cases ho : o = p.pSignal
    · rw [ho, hgone]
      exact iff_of_false List.not_mem_nil fun hq => hq.2 (h _ hq.1 rfl)
    · rw [hother o sig ho, exact_iff.1 hs]
      refine (and_iff_left ?_).symm
      rintro rfl
      exact ho rfl

section Disconnect

variable {tag : StdMap ν (Slots ο ν)} {tagSet : Slots ο ν} {m' : ObjSets ο ν}

theorem xDisconnect_object (hm : m.find? p.pSignal = none) : xDisconnect m p = .ok m := by
  simp only [xDisconnect, hm]

theorem xDisconnect_signal (hm : m.find? p.pSignal = some tag) (htag : tag.find? p.strSig = none) :
    xDisconnect m p = .error .endDeref := by
  simp only [xDisconnect, hm, htag]

theorem xDisconnect_last (hm : m.find? p.pSignal = some tag) (htag : tag.find? p.strSig = some tagSet)
    (hleft : (leftOf tagSet p).size = 0) : xDisconnect m p = .ok (m.erase p.pSignal) := by
  rw [leftOf] at hleft
  simp only [xDisconnect, hm, htag]
  exact if_pos hleft

theorem xDisconnect_left (hm : m.find? p.pSignal = some tag) (htag : tag.find? p.strSig = some tagSet)
    (hleft : (leftOf tagSet p).size ≠ 0) :
    xDisconnect m p = .ok (m.set p.pSignal (tag.set p.strSig (leftOf tagSet p))) := by
  rw [leftOf] at hleft ⊢
  simp only [xDisconnect, hm, htag]
  exact if_neg hleft

theorem works_xDisconnect (h : xDisconnect s.m_objSets p = .ok m') :
    Works s (.xDisconnect p) ↔ Exact ⟨m', s.connected.filter (· ≠ p)⟩ := by
  have hstep : step s (.xDisconnect p) = .ok ⟨m', s.connected.filter (· ≠ p)⟩ := by
    rw [step, h]
    rfl
  simp [Works, hstep]

/-- Nothing is connected to the object. -/
theorem works_disconnect_object (hs : Exact s) (hm : s.m_objSets.find? p.pSignal = none) : Works s (.xDisconnect p) := by
  have hfilter : s.connected.filter (· ≠ p) = s.connected :=
    List.filter_eq_self.2 fun q hq => decide_eq_true fun heq => hs.no_object hm hq (heq ▸ rfl)
  rw [works_xDisconnect (xDisconnect_object hm), hfilter]
  exact hs

theorem works_disconnect_signal (hm : s.m_objSets.find? p.pSignal = some tag) (htag : tag.find? p.strSig = none) :
    ¬Works s (.xDisconnect p) := by
  rintro ⟨t, ht, -⟩
  rw [step, xDisconnect_signal hm htag] at ht
  cases ht

/-- The last slot of the signal. -/
theorem works_disconnect_last (hs : Exact s) (hm : s.m_objSets.find? p.pSignal = some tag)
    (htag : tag.find? p.strSig = some tagSet) (hleft : (leftOf tagSet p).size = 0) :
    Works s (.xDisconnect p) ↔ ∀ q ∈ s.connected, q.pSignal = p.pSignal → q = p := by
  rw [works_xDisconnect (xDisconnect_last hm htag hleft), exact_erase hs]

/-- Other slots are left. -/
theorem works_disconnect_left (hs : Exact s) (hm : s.m_objSets.find? p.pSignal = some tag)
    (htag : tag.find? p.strSig = some tagSet) (hleft : (leftOf tagSet p).size ≠ 0) :
    Works s (.xDisconnect p) ↔ OneSlot s p := by
  have hrep : Replaced s.m_objSets _ p.pSignal p.strSig (leftOf tagSet p) :=
    replaced_set hm (StdMap.find?_set_self htag) fun sig' h => StdMap.find?_set_ne h
  have hc : ∀ q : Pair ο ν, q.pSignal ≠ p.pSignal ∨ q.strSig ≠ p.strSig →
      (q ∈ s.connected.filter (· ≠ p) ↔ q ∈ s.connected) := by
    intro q hq
    rw [List.mem_filter, decide_eq_true_eq, and_iff_left]
    rintro rfl
    exact hq.elim (fun h => h rfl) fun h => h rfl
  rw [works_xDisconnect (xDisconnect_left hm htag hleft), exact_replaced hs hrep hc, oneSlot_iff hs hm htag]
  simp only [mem_leftOf, List.mem_filter, decide_eq_true_eq, ne_eq, pair_eq, ← mem_tagSet hs hm htag]
  refine ⟨?_, ?_⟩
  · intro h n hn
    by_contra hne
    exact ((h p.pSlot n).2 ⟨hn, fun heq => hne heq.2⟩).2 rfl
  · intro hone r n
    refine and_congr_right fun hin => not_congr ⟨fun hr => ⟨hr, ?_⟩, fun h => h.1⟩
    subst hr
    exact hone n hin

/-- With the last slot of the signal gone, the pair was the only one that was connected to it. -/
theorem eq_of_last (hs : Exact s) (hm : s.m_objSets.find? p.pSignal = some tag) (htag : tag.find? p.strSig = some tagSet)
    (hleft : (leftOf tagSet p).size = 0) (hone : OneSlot s p) {q : Pair ο ν} (hq : q ∈ s.connected)
    (ho : q.pSignal = p.pSignal) (hsig : q.strSig = p.strSig) : q = p := by
  have hin : (q.pSlot, q.strSlot) ∈ tagSet := by
    rw [mem_tagSet hs hm htag, ← ho, ← hsig]
    exact hq
  have hr : q.pSlot = p.pSlot := leftOf_empty hleft hin
  have hn : q.strSlot = p.strSlot := hone q hq ho hsig hr
  cases q
  cases p
  simp_all

/-- As long as other slots are left, the pair is not the only one. -/
theorem exists_of_left (hs : Exact s) (hm : s.m_objSets.find? p.pSignal = some tag) (htag : tag.find? p.strSig = some tagSet)
    (hleft : (leftOf tagSet p).size ≠ 0) : ∃ q ∈ s.connected, q.pSignal = p.pSignal ∧ q.strSig = p.strSig ∧ q ≠ p := by
  obtain ⟨r, n, hrn⟩ := StdMap.size_ne_zero.1 hleft
  obtain ⟨hin, hne⟩ := mem_leftOf.1 hrn
  exact ⟨⟨p.pSignal, p.strSig, r, n⟩, (mem_tagSet hs hm htag).1 hin, rfl, rfl, fun heq => hne (congrArg Pair.pSlot heq)⟩

theorem works_disconnect (hwf : WellFormed s.m_objSets) (hs : Exact s) :
    Works s (.xDisconnect p) ↔ Covered s (.xDisconnect p) := by
  rw [Covered, hasSignals_iff hwf hs]
  cases hm : s.m_objSets.find? p.pSignal with
  | none =>
    exact iff_of_true (works_disconnect_object hs hm)
      ⟨fun q hq ho => absurd ho (hs.no_object hm hq), fun h => absurd rfl h, fun hp => absurd rfl (hs.no_object hm hp)⟩
  | some tag =>
    rw [hasSlots_iff hwf hs hm]
    cases htag : tag.find? p.strSig with
    | none => exact iff_of_false (works_disconnect_signal hm htag) fun h => h.2.1 (Option.some_ne_none _) rfl
    | some tagSet =>
      by_cases hleft : (leftOf tagSet p).size = 0
      · rw [works_disconnect_last hs hm htag hleft]
        refine ⟨?_, ?_⟩
        · intro h
          refine ⟨fun q hq ho _ _ => ?_, fun _ => Option.some_ne_none _, fun _ _ => h⟩
          rw [h q hq ho]
        · rintro ⟨hone, -, hrest⟩
          have honly := fun q hq ho hsig => eq_of_last hs hm htag hleft hone (q := q) hq ho hsig
          obtain ⟨q, hq, ho, hsig⟩ := (hasSlots_iff hwf hs hm).2 (htag ▸ Option.some_ne_none tagSet)
          exact hrest (honly q hq ho hsig ▸ hq) honly
      · rw [works_disconnect_left hs hm htag hleft]
        refine (and_iff_left ⟨fun _ => Option.some_ne_none _, fun hp honly => ?_⟩).symm
        obtain ⟨q, hq, ho, hsig, hne⟩ := exists_of_left hs hm htag hleft
        exact absurd (honly q hq ho hsig) hne

end Disconnect

/-! ## Runs -/

theorem works_iff (hwf : WellFormed s.m_objSets) (hs : Exact s) : Works s x ↔ Covered s x := by
  cases x with
  | xConnect p => exact works_connect hwf hs
  | xDisconnect p => exact works_disconnect hwf hs

theorem size_insert {κ μ : Type} [LinearOrder κ] (m : StdMap κ μ) (k : κ) (v : μ) : (m.insert k v).size ≠ 0 := by
  cases hk : m.find? k with
  | none => exact StdMap.size_ne_zero.2 ⟨k, v, StdMap.find?_eq_some.1 (StdMap.find?_insert_new hk)⟩
  | some w => exact StdMap.size_ne_zero.2 ⟨k, w, StdMap.find?_eq_some.1 (StdMap.find?_insert_old hk)⟩

theorem size_of_find {κ μ : Type} [LinearOrder κ] {m : StdMap κ μ} {k : κ} {v : μ} (h : m.find? k = some v) : m.size ≠ 0 :=
  StdMap.size_ne_zero.2 ⟨k, v, StdMap.find?_eq_some.1 h⟩

section WellFormed

variable {tag tag' : StdMap ν (Slots ο ν)} {tagSet : Slots ο ν}

/-- An object whose signal has slots instead of the ones before. -/
theorem WellFormed.set (hwf : WellFormed m) (hm : m.find? o = some tag) (hself : tag'.find? sig = some tagSet)
    (hne : ∀ sig', sig' ≠ sig → tag'.find? sig' = tag.find? sig') (hsize : tagSet.size ≠ 0) : WellFormed (m.set o tag') where
  signals o' tag₁ h := by
    by_cases ho : o' = o
    · rw [ho, StdMap.find?_set_self hm] at h
      cases h
      exact size_of_find hself
    · rw [StdMap.find?_set_ne ho] at h
      exact hwf.signals o' tag₁ h
  slots o' tag₁ sig' tagSet₁ h hsig := by
    by_cases ho : o' = o
    · rw [ho, StdMap.find?_set_self hm] at h
      cases h
      by_cases heq : sig' = sig
      · rw [heq, hself] at hsig
        cases hsig
        exact hsize
      · rw [hne sig' heq] at hsig
        exact hwf.slots o tag sig' tagSet₁ hm hsig
    · rw [StdMap.find?_set_ne ho] at h
      exact hwf.slots o' tag₁ sig' tagSet₁ h hsig

theorem WellFormed.insert (hwf : WellFormed m) (hm : m.find? o = none) (hsize : tagSet.size ≠ 0) :
    WellFormed (m.insert o (StdMap.empty.insert sig tagSet)) where
  signals o' tag₁ h := by
    by_cases ho : o' = o
    · rw [ho, StdMap.find?_insert_new hm] at h
      cases h
      exact size_insert _ _ _
    · rw [StdMap.find?_insert_ne ho] at h
      exact hwf.signals o' tag₁ h
  slots o' tag₁ sig' tagSet₁ h hsig := by
    by_cases ho : o' = o
    · rw [ho, StdMap.find?_insert_new hm] at h
      cases h
      by_cases heq : sig' = sig
      · rw [heq, StdMap.find?_insert_new rfl] at hsig
        cases hsig
        exact hsize
      · rw [StdMap.find?_insert_ne heq] at hsig
        cases hsig
    · rw [StdMap.find?_insert_ne ho] at h
      exact hwf.slots o' tag₁ sig' tagSet₁ h hsig

theorem WellFormed.erase (hwf : WellFormed m) : WellFormed (m.erase o) where
  signals o' tag₁ h := by
    rw [StdMap.find?_eq_some, StdMap.mem_erase, ← StdMap.find?_eq_some] at h
    exact hwf.signals o' tag₁ h.1
  slots o' tag₁ sig' tagSet₁ h hsig := by
    rw [StdMap.find?_eq_some, StdMap.mem_erase, ← StdMap.find?_eq_some] at h
    exact hwf.slots o' tag₁ sig' tagSet₁ h.1 hsig

theorem WellFormed.xConnect (hwf : WellFormed m) : WellFormed (xConnect m p).1 := by
  cases hm : m.find? p.pSignal with
  | none =>
    rw [xConnect_object hm]
    exact hwf.insert hm (size_insert _ _ _)
  | some tag =>
    cases htag : tag.find? p.strSig with
    | none =>
      rw [xConnect_signal hm htag]
      exact hwf.set hm (StdMap.find?_insert_new htag) (fun sig' h => StdMap.find?_insert_ne h) (size_insert _ _ _)
    | some tagSet =>
      rw [xConnect_slot hm htag (hwf.slots _ _ _ _ hm htag)]
      exact hwf.set hm (StdMap.find?_set_self htag) (fun sig' h => StdMap.find?_set_ne h) (size_insert _ _ _)

theorem WellFormed.xDisconnect {m' : ObjSets ο ν} (hwf : WellFormed m) (h : xDisconnect m p = .ok m') : WellFormed m' := by
  cases hm : m.find? p.pSignal with
  | none =>
    cases (xDisconnect_object hm).symm.trans h
    exact hwf
  | some tag =>
    cases htag : tag.find? p.strSig with
    | none => cases (xDisconnect_signal hm htag).symm.trans h
    | some tagSet =>
      by_cases hleft : (leftOf tagSet p).size = 0
      · cases (xDisconnect_last hm htag hleft).symm.trans h
        exact hwf.erase
      · cases (xDisconnect_left hm htag hleft).symm.trans h
        exact hwf.set hm (StdMap.find?_set_self htag) (fun sig' h => StdMap.find?_set_ne h) hleft

end WellFormed

theorem WellFormed.step (hwf : WellFormed s.m_objSets) (h : step s x = .ok t) : WellFormed t.m_objSets := by
  cases x with
  | xConnect p =>
    cases h
    exact hwf.xConnect
  | xDisconnect p =>
    obtain ⟨m', hm', h⟩ := bind_eq_ok.1 h
    cases h
    exact hwf.xDisconnect hm'

theorem wellFormed_begin : WellFormed (begin : Signals ο ν).m_objSets where
  signals o tag h := by cases h
  slots o tag sig tagSet h := by cases h

theorem exact_begin : Exact (begin : Signals ο ν) := fun _ _ => 
  ⟨List.nodup_nil, fun _ _ => iff_of_false List.not_mem_nil List.not_mem_nil⟩

theorem works_along_iff (actions : List (Action ο ν)) :
    Along step Works begin actions ↔ Along step Covered begin actions := by
  refine along_congr (fun s => WellFormed s.m_objSets ∧ Exact s) ⟨wellFormed_begin, exact_begin⟩
    (fun s x hs => works_iff hs.1 hs.2) ?_
  rintro s x t ⟨hwf, -⟩ ⟨t', ht', hex⟩ ht
  cases ht.symm.trans ht'
  exact ⟨hwf.step ht, hex⟩

/-- Every call is defined and the signals are exact after it just when each call is one that is covered; then they are
at the end. -/
theorem emits_iff (actions : List (Action ο ν)) :
    (Along step Works begin actions ↔ Along step Covered begin actions) ∧
      (Along step Covered begin actions → ∃ s, actions.foldlM step begin = .ok s ∧ Exact s) := by
  refine ⟨works_along_iff actions, fun hcov => ?_⟩
  refine ((works_along_iff actions).2 hcov).run (fun s => Exact s) exact_begin ?_
  rintro s x - ⟨t, ht, hex⟩
  exact ⟨t, ht, hex⟩

instance : Decidable (OneSlot s p) := inferInstanceAs (Decidable (∀ q ∈ _, _))

instance : Decidable (HasSlots s o sig) := inferInstanceAs (Decidable (∃ q ∈ _, _))

instance : Decidable (HasSignals s o) := inferInstanceAs (Decidable (∃ q ∈ _, _))

instance : Decidable (Covered s x) :=
  match x with
  | .xConnect _ => inferInstanceAs (Decidable (_ ∧ (_ → ¬_ → _)))
  | .xDisconnect _ => inferInstanceAs (Decidable (_ ∧ (_ → _) ∧ (_ → (∀ q ∈ _, _) → ∀ q ∈ _, _)))

/-- Two receivers, and a second signal whose slot has its name. -/
theorem emits_iff_three : ∃ s, [Action.xConnect ⟨1, "XObject_signal", 2, "XObject_slot"⟩,
      .xConnect ⟨1, "XObject_signal", 3, "XObject_slot"⟩, .xConnect ⟨1, "changed", 2, "changed"⟩,
      .xDisconnect ⟨1, "XObject_signal", 2, "XObject_slot"⟩].foldlM step (begin : Signals Nat String) = .ok s ∧ Exact s :=
  (emits_iff _).2 (by decide +kernel)

/-- The slot of a further signal gets the name of the signal. -/
theorem not_emits_further : ¬Along step Works (begin : Signals Nat String)
    [.xConnect ⟨1, "XObject_signal", 2, "XObject_slot"⟩, .xConnect ⟨1, "changed", 2, "XObject_slot"⟩] := fun h =>
  absurd ((works_along_iff _).1 h) (by decide +kernel)

end XObject
