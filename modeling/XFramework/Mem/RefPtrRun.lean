/-
Who deletes an object (Mem/RefPtr.h, TestCase/Memory/RefPtr.cpp).

Outside loop mode the destructor asks whether it was the last `RefPtr` to its
object, and `operator=` does not: an object is deleted exactly once in runs in
which no assignment takes the last one away (`ownsOnce_run`).

With loop mode nothing is deleted twice in runs in which a `RefPtr` outside it
that was told that its object is gone is not destroyed as the last of the table
(`freedOnce_run`).
-/
import XFramework.Mem.RefPtrInv
import Mathlib.Data.Set.Card

open Fallible

namespace Counted

namespace Refs

variable {α ρ : Type}

/-! ## Loop mode included -/

/-- No object is deleted twice, and a `RefPtr` refers to an object that is there, or has been told. -/
structure FreedOnce (t : Refs α ρ) : Prop where
  once : t.deletes.Nodup
  alive : ∀ r x p, t.refs r = some x → x._bHasFree = false → x._pData = some p → t.Alive p
  /-- Assignments used no `RefPtr` that was not there any more. -/
  dangling : t.dangling = []

variable [DecidableEq α] [DecidableEq ρ] {t t' : Refs α ρ} {r s that : ρ} {x y : RefPtr α ρ} {p : Pointer α} {a : α}
  {act : Action α ρ} {acts : List (Action α ρ)}

@[simp] theorem dangling_addRef {p : Option (Pointer α)} : (t.addRef p r).dangling = t.dangling := by cases p <;> rfl

@[simp] theorem dangling_delRef {p : Option (Pointer α)} : (t.delRef p r).dangling = t.dangling := by cases p <;> rfl

omit [DecidableEq α] in
@[simp] theorem dangling_store {o : Option (RefPtr α ρ)} : (t.store r o).dangling = t.dangling := rfl

@[simp] theorem dangling_notifyFree : (t.notifyFree p).dangling = t.dangling := rfl

omit [DecidableEq ρ] in
@[simp] theorem dangling_delete {p : Option (Pointer α)} : (t.delete p).dangling = t.dangling := by
  cases p with
  | none => rfl
  | some p =>
    rw [delete]
    split
    · split_ifs <;> rfl
    · rfl

@[simp] theorem dangling_takeFrom : (t.takeFrom r x that y).dangling = t.dangling := by
  rw [takeFrom]
  split <;> simp

theorem dangling_destructor : (t.destructor r x).dangling = t.dangling := by
  rw [destructor]
  dsimp only
  split_ifs
  · split <;> simp
  · simp
  · simp

theorem dangling_assign : (t.assign r x that y).dangling = t.dangling := by
  rw [assign]
  split_ifs
  · rfl
  · split <;> simp
  · simp

theorem dangling_destroy (hstep : t.destroy r = .ok t') : t'.dangling = t.dangling := by
  rw [destroy] at hstep
  split at hstep
  · cases hstep
  · cases hstep
    exact dangling_destructor

theorem dangling_step (hok : t.Careful act) (hstep : t.step act = .ok t') : t'.dangling = t.dangling := by
  cases act with
  | null r =>
    rw [step] at hstep
    split at hstep <;> cases hstep
    rfl
  | new r a members =>
    rw [step] at hstep
    split_ifs at hstep
    cases hstep
    rw [construct, dangling_addRef]
    rfl
  | copy r that junk =>
    rw [step] at hstep
    split at hstep <;> cases hstep
    rw [copy]
    split <;> simp
  | assign r that =>
    rw [step] at hstep
    split at hstep <;> cases hstep
    exact dangling_assign
  | enableLoopRefMode r =>
    rw [step] at hstep
    split at hstep <;> cases hstep
    rfl
  | destroy r => exact dangling_destroy hstep
  | next =>
    rw [step] at hstep
    split at hstep
    case h_1 => cases hstep
    case h_2 r rest hpending =>
      have hrest := dangling_destroy hstep
      exact hrest
    case h_3 r that rest hpending =>
      cases hstep
      obtain ⟨⟨x, hx, -⟩, hthat⟩ := hok (.take r that) (by rw [hpending]; rfl)
      obtain ⟨y, hy⟩ := Option.ne_none_iff_exists'.1 hthat
      rw [take]
      dsimp only
      rw [hx, hy, dangling_takeFrom]

/-- In every run in which no stray `RefPtr` is destroyed. -/
theorem freedOnce_run (hk : Along step Careful begin acts) (hrun : acts.foldlM step begin = .ok t) : t.FreedOnce := by
  have hends := hk.keeps (fun t => t.Inv ∧ t.dangling = []) hrun ⟨inv_begin, rfl⟩ fun s act s' h hok hstep =>
    ⟨h.1.step hok hstep, (dangling_step hok hstep).trans h.2⟩
  exact ⟨hends.1.nodup, fun r x p hx hfree hp => hends.1.alive r x p hx hp hfree, hends.2⟩

instance decNotStray (t : Refs α ρ) (r : ρ) : Decidable (t.NotStray r) :=
  inferInstanceAs (Decidable (∀ x, t.refs r = some x → x._bLoopRef = false → x._bHasFree = true →
    ∀ p, x._pData = some p → (t.m_refMaps p.addr).erase r ≠ ∅))

instance decCareful (t : Refs α ρ) : ∀ act, Decidable (t.Careful act)
  | .destroy r => inferInstanceAs (Decidable (t.NotStray r))
  | .next =>
    have : DecidablePred fun task : Pending ρ => match task with
        | .destroy r => t.NotStray r
        | .take r that => (∃ x, t.refs r = some x ∧ x._bHasFree = true ∧ x._fromRef = none) ∧ t.refs that ≠ none :=
      fun task => by cases task <;> infer_instance
    decForallSome t.pending.head?
  | .null _ | .new .. | .copy .. | .assign .. | .enableLoopRefMode _ => isTrue trivial

/-- Two objects that refer to each other, in loop mode: 10 is in the first and 11 in the second. -/
def cycleActions : List (Action Nat Nat) :=
  [.null 10, .new 0 100 [10], .null 11, .new 1 200 [11], .enableLoopRefMode 0, .enableLoopRefMode 1,
    .assign 10 1, .assign 11 0, .destroy 1, .next, .destroy 0, .next]

theorem freedOnce_run_cycle : ∃ t, cycleActions.foldlM step begin = .ok t ∧ t.deletes = [1, 0] ∧ t.FreedOnce := by
  have hended : ∃ t, cycleActions.foldlM step begin = .ok t ∧ t.deletes = [1, 0] := by decide +kernel
  obtain ⟨t, ht, hdeletes⟩ := hended
  exact ⟨t, ht, hdeletes, freedOnce_run (by decide +kernel) ht⟩

/-- The owner of an object enters loop mode, of which its copy was not told, and both are destroyed. -/
def lateLoopActions : List (Action Nat Nat) :=
  [.new 0 100 [], .copy 1 0 ⟨false, false, none, none⟩, .enableLoopRefMode 0, .destroy 0, .destroy 1]

theorem not_freedOnce_late : ∃ t, lateLoopActions.foldlM step begin = .ok t ∧ t.deletes = [0, 0] ∧ ¬t.FreedOnce := by
  have hended : ∃ t, lateLoopActions.foldlM step begin = .ok t ∧ t.deletes = [0, 0] := by decide +kernel
  obtain ⟨t, ht, hdeletes⟩ := hended
  refine ⟨t, ht, hdeletes, fun h => ?_⟩
  have honce := h.once
  rw [hdeletes] at honce
  exact absurd honce (by decide)

/-! ## Outside loop mode -/

/-- The object that is referred to at `r`. -/
def dataOf (t : Refs α ρ) (r : ρ) : Option (Pointer α) := (t.refs r).bind RefPtr._pData

/-- An object is deleted exactly once, as soon as nothing refers to it, and the table counts the `RefPtr`s. -/
structure OwnsOnce (t : Refs α ρ) : Prop where
  counts : ∀ p, t.getRefCount (some p) = {r | ∃ q, t.dataOf r = some q ∧ q.addr = p.addr}.ncard
  kept : ∀ r p, t.dataOf r = some p → t.Alive p ∧ p.object ∉ t.deletes
  gone : ∀ n < t.made, (∀ r p, t.dataOf r = some p → p.object ≠ n) → t.deletes.count n = 1

/-- No loop mode, and what the left side of an assignment refers to is referred to by another `RefPtr` too. -/
def Covered (t : Refs α ρ) : Action α ρ → Prop
  | .assign r that => r = that ∨ t.dataOf r = none ∨ ∃ s, s ≠ r ∧ t.dataOf s = t.dataOf r
  | .enableLoopRefMode _ => False
  | _ => True

/-- No `RefPtr` to an object is in loop mode, or was told anything, and the objects that are not there any more
were deleted. -/
structure Flat (t : Refs α ρ) : Prop where
  plain : ∀ r x p, t.refs r = some x → x._pData = some p → x._bLoopRef = false ∧ x._bHasFree = false
  all : ∀ n < t.made, n ∈ t.deletes ∨ ∃ a o, t.heap a = some o ∧ o.number = n
  tasks : ∀ r that, .take r that ∉ t.pending

/-- Every object that is there is referred to. -/
def Used (t : Refs α ρ) : Prop := ∀ a o, t.heap a = some o → t.m_refMaps a ≠ ∅

structure Plain (t : Refs α ρ) : Prop where
  inv : t.Inv
  flat : t.Flat
  used : t.Used

omit [DecidableEq α] [DecidableEq ρ] in
theorem dataOf_eq_some : t.dataOf r = some p ↔ ∃ x, t.refs r = some x ∧ x._pData = some p := Option.bind_eq_some_iff

omit [DecidableEq α] [DecidableEq ρ] in
/-- Outside loop mode the table has exactly the `RefPtr`s to the address. -/
theorem Plain.mem_iff (h : t.Plain) (a : α) (r : ρ) : r ∈ t.m_refMaps a ↔ ∃ q, t.dataOf r = some q ∧ q.addr = a := by
  refine ⟨?_, ?_⟩
  · intro hmem
    obtain ⟨x, q, hx, hq, haddr⟩ := h.inv.sound a r hmem
    exact ⟨q, dataOf_eq_some.2 ⟨x, hx, hq⟩, haddr⟩
  · intro ⟨q, hq, haddr⟩
    obtain ⟨x, hx, hdata⟩ := dataOf_eq_some.1 hq
    rw [← haddr]
    exact h.inv.listed r x q hx hdata (h.flat.plain r x q hx hdata).2

omit [DecidableEq α] [DecidableEq ρ] in
theorem Plain.ownsOnce (h : t.Plain) : t.OwnsOnce := by
  have halive : ∀ r p, t.dataOf r = some p → t.Alive p := by
    intro r p hp
    obtain ⟨x, hx, hdata⟩ := dataOf_eq_some.1 hp
    exact h.inv.alive r x p hx hdata (h.flat.plain r x p hx hdata).2
  constructor
  case counts =>
    intro p
    rw [getRefCount, ← Set.ncard_coe_finset]
    congr 1
    ext r
    exact h.mem_iff p.addr r
  case kept =>
    intro r p hp
    obtain ⟨o, ho, hnumber⟩ := halive r p hp
    refine ⟨⟨o, ho, hnumber⟩, ?_⟩
    rw [← hnumber]
    exact (h.inv.made _ o ho).2
  case gone =>
    intro n hn hnone
    refine List.count_eq_one_of_mem h.inv.nodup ((h.flat.all n hn).resolve_right fun hthere => ?_)
    obtain ⟨a, o, ho, hnumber⟩ := hthere
    obtain ⟨r, hr⟩ := Finset.nonempty_iff_ne_empty.2 (h.used a o ho)
    obtain ⟨q, hq, haddr⟩ := (h.mem_iff a r).1 hr
    obtain ⟨o', ho', hnumber'⟩ := halive r q hq
    rw [haddr, ho] at ho'
    cases ho'
    exact hnone r q hq (hnumber'.symm.trans hnumber)

omit [DecidableEq ρ] in
theorem Flat.delete (h : t.Flat) (halive : t.Alive p) : (t.delete (some p)).Flat := by
  obtain ⟨members, heq⟩ := delete_alive halive
  obtain ⟨o, ho, hnumber⟩ := halive
  rw [heq]
  constructor
  case plain => exact h.plain
  case all =>
    intro n hn
    refine (h.all n hn).elim (fun hmem => .inl (List.mem_append_left _ hmem)) fun ⟨a, o', ho', hnumber'⟩ => ?_
    by_cases ha : a = p.addr
    · rw [ha, ho] at ho'
      cases ho'
      rw [← hnumber', hnumber]
      exact .inl (List.mem_append_right _ (List.mem_singleton_self _))
    · exact .inr ⟨a, o', (Function.update_of_ne ha ..).trans ho', hnumber'⟩
  case tasks =>
    intro r that hmem
    rcases List.mem_append.1 hmem with hmem | hmem
    · obtain ⟨m, -, hm⟩ := List.mem_map.1 hmem
      cases hm
    · exact h.tasks r that hmem

theorem Flat.delRef (h : t.Flat) {p : Option (Pointer α)} : (t.delRef p r).Flat := by
  cases p with
  | none => exact h
  | some p => exact ⟨h.plain, h.all, h.tasks⟩

theorem Flat.addRef (h : t.Flat) {p : Option (Pointer α)} : (t.addRef p r).Flat := by
  cases p with
  | none => exact h
  | some p => exact ⟨h.plain, h.all, h.tasks⟩

omit [DecidableEq α] in
theorem Flat.store (h : t.Flat) (o : Option (RefPtr α ρ))
    (ho : ∀ x, o = some x → ∀ p, x._pData = some p → x._bLoopRef = false ∧ x._bHasFree = false) : (t.store r o).Flat := by
  refine ⟨fun s x p hs hp => ?_, h.all, h.tasks⟩
  change Function.update t.refs r o s = some x at hs
  by_cases hsr : s = r
  · rw [hsr, Function.update_self] at hs
    exact ho x hs p hp
  · rw [Function.update_of_ne hsr] at hs
    exact h.plain s x p hs hp

theorem Flat.takeFrom (h : t.Flat) (hx : ∀ p, x._pData = some p → x._bLoopRef = false ∧ x._bHasFree = false)
    (hy : t.refs that = some y) : (t.takeFrom r x that y).Flat := by
  rw [Refs.takeFrom]
  split
  case h_1 => exact h.store _ fun z hz => by cases hz; exact hx
  case h_2 p hp =>
    refine (h.store _ fun z hz q _ => ?_).addRef
    cases hz
    exact h.plain that y p hy hp

omit [DecidableEq α] [DecidableEq ρ] in
/-- The table loses no entry, and no object comes. -/
theorem Used.grow (h : t.Used) (hheap : t'.heap = t.heap) (hmaps : ∀ a, t.m_refMaps a ⊆ t'.m_refMaps a) : t'.Used := by
  intro a o ho hempty
  rw [hheap] at ho
  exact h a o ho (Finset.subset_empty.1 (hempty ▸ hmaps a))

theorem Used.takeFrom (h : t.Used) : (t.takeFrom r x that y).Used := by
  rw [Refs.takeFrom]
  split
  case h_1 => exact h
  case h_2 p hp =>
    refine h.grow rfl fun a => ?_
    change t.m_refMaps a ⊆ Function.update t.m_refMaps p.addr (insert r (t.m_refMaps p.addr)) a
    by_cases ha : a = p.addr
    · rw [ha, Function.update_self]
      exact Finset.subset_insert ..
    · rw [Function.update_of_ne ha]

/-- A `RefPtr` leaves its object, to which there is another one. -/
theorem Used.delRef (h : t.Used) {o : Option (Pointer α)} (hleft : ∀ p, o = some p → (t.m_refMaps p.addr).erase r ≠ ∅) :
    (t.delRef o r).Used := by
  cases o with
  | none => exact h
  | some p =>
    intro a obj hobj
    change Function.update t.m_refMaps p.addr ((t.m_refMaps p.addr).erase r) a ≠ ∅
    by_cases ha : a = p.addr
    · rw [ha, Function.update_self]
      exact hleft p rfl
    · rw [Function.update_of_ne ha]
      exact h a obj hobj

omit [DecidableEq α] in
/-- A `RefPtr` to an object has not been told that it is gone. -/
theorem Plain.notStray (h : t.Plain) (r : ρ) : t.NotStray r := by
  intro x hx _ hfree p hp
  rw [(h.flat.plain r x p hx hp).2] at hfree
  cases hfree

omit [DecidableEq α] [DecidableEq ρ] in
/-- Only a `RefPtr` that refers to nothing is in loop mode. -/
theorem Flat.no_loop (h : t.Flat) (hx : t.refs r = some x) (hloop : x._bLoopRef = true) : x._pData = none := by
  rw [Option.eq_none_iff_forall_ne_some]
  intro p hp
  rw [(h.plain r x p hx hp).1] at hloop
  cases hloop

/-- The end of a `RefPtr` that refers to nothing. -/
theorem destructor_none (hp : x._pData = none) : t.destructor r x = t.store r none := by
  rw [destructor]
  by_cases hloop : x._bLoopRef = true
  · rw [if_pos hloop, hp]
    cases x._fromRef with
    | none => cases x._bHasFree <;> rfl
    | some source => rfl
  · rw [if_neg hloop, hp]
    rfl

theorem Plain.destructor (h : t.Plain) (hx : t.refs r = some x) : (t.destructor r x).Plain := by
  have hinv := h.inv.destructor hx (h.notStray r)
  cases hp : x._pData with
  | none =>
    rw [destructor_none hp] at hinv ⊢
    exact ⟨hinv, h.flat.store none nofun, h.used⟩
  | some p =>
    have hflags := h.flat.plain r x p hx hp
    have hflat : ((t.delRef (some p) r).store r none).Flat := h.flat.delRef.store none nofun
    rw [Refs.destructor, hflags.1, if_neg Bool.false_ne_true, hp] at hinv ⊢
    dsimp only at hinv ⊢
    split_ifs at hinv ⊢ with hcount
    case neg =>
      have hused : (t.delRef (some p) r).Used := h.used.delRef fun q hq hempty => by
        cases hq
        exact hcount (Finset.card_eq_zero.2 ((Function.update_self ..).trans hempty))
      exact ⟨hinv, hflat, hused⟩
    case pos =>
      have halive : Alive ((t.delRef (some p) r).store r none) p := h.inv.alive r x p hx hp hflags.2
      refine ⟨hinv, hflat.delete halive, fun a o ho => ?_⟩
      obtain ⟨members, heq⟩ := delete_alive halive
      rw [heq] at ho ⊢
      change Function.update t.heap p.addr none a = some o at ho
      change Function.update t.m_refMaps p.addr ((t.m_refMaps p.addr).erase r) a ≠ ∅
      by_cases ha : a = p.addr
      · rw [ha, Function.update_self] at ho
        cases ho
      · rw [Function.update_of_ne ha] at ho ⊢
        exact h.used a o ho

/-- The left side refers to nothing. -/
theorem assign_none (hp : x._pData = none) (hsame : r ≠ that) :
    ∃ x' : RefPtr α ρ, x'._pData = none ∧ t.assign r x that y = t.takeFrom r x' that y := by
  rw [Refs.assign, if_neg hsame]
  by_cases hloop : x._bLoopRef = true
  · rw [if_pos hloop, hp]
    refine ⟨x, hp, ?_⟩
    cases x._fromRef with
    | none => cases x._bHasFree <;> rfl
    | some source => rfl
  · rw [if_neg hloop, hp]
    exact ⟨_, rfl, rfl⟩

theorem Plain.assign (h : t.Plain) (hx : t.refs r = some x) (hy : t.refs that = some y)
    (hok : r = that ∨ t.dataOf r = none ∨ ∃ s, s ≠ r ∧ t.dataOf s = t.dataOf r) : (t.assign r x that y).Plain := by
  have hinv := h.inv.assign hx hy
  have hdata : t.dataOf r = x._pData := by rw [dataOf, hx]; rfl
  by_cases hsame : r = that
  · rw [Refs.assign, if_pos hsame]
    exact h
  cases hp : x._pData with
  | none =>
    obtain ⟨x', hx', heq⟩ := assign_none (t := t) (y := y) hp hsame
    rw [heq] at hinv ⊢
    exact ⟨hinv, h.flat.takeFrom (fun p hp => by rw [hx'] at hp; cases hp) hy, h.used.takeFrom⟩
  | some p =>
    -- there is another one to the object, so the table keeps an entry
    rw [hdata, hp] at hok
    obtain ⟨s, hsr, hs⟩ := (hok.resolve_left hsame).resolve_left (Option.some_ne_none p)
    have hleft : ∀ q, some p = some q → (t.m_refMaps q.addr).erase r ≠ ∅ := by
      intro q hq hempty
      cases hq
      have hmem := Finset.mem_erase.2 ⟨hsr, (h.mem_iff p.addr s).2 ⟨p, hs, rfl⟩⟩
      rw [hempty] at hmem
      exact absurd hmem (Finset.notMem_empty _)
    rw [Refs.assign, if_neg hsame, (h.flat.plain r x p hx hp).1, if_neg Bool.false_ne_true, hp] at hinv ⊢
    refine ⟨hinv, h.flat.delRef.takeFrom (fun q hq => by cases hq) ?_, (h.used.delRef hleft).takeFrom⟩
    rw [refs_delRef]
    exact hy

theorem Plain.copy (h : t.Plain) (hr : t.refs r = none) (hy : t.refs that = some y) (junk : RefPtr α ρ) :
    (t.copy r that y junk).Plain := by
  have hinv := h.inv.copy hr hy junk
  rw [copy_eq] at hinv ⊢
  exact ⟨hinv, h.flat.takeFrom nofun hy, h.used.takeFrom⟩

theorem Plain.construct (h : t.Plain) (hr : t.refs r = none) (ha : t.heap a = none) (members : List ρ) :
    (t.construct r a members).Plain := by
  have hstored : (t.store r (some ⟨false, false, some ⟨a, t.made⟩, none⟩)).Flat :=
    h.flat.store _ fun z hz q _ => by cases hz; exact ⟨rfl, rfl⟩
  have hmade : Flat { t.store r (some ⟨false, false, some ⟨a, t.made⟩, none⟩) with
      heap := Function.update t.heap a (some ⟨t.made, members⟩)
      made := t.made + 1 } := by
    refine ⟨hstored.plain, fun n hn => ?_, h.flat.tasks⟩
    rcases Nat.lt_succ_iff_lt_or_eq.1 hn with hn | rfl
    · refine (h.flat.all n hn).imp_right fun ⟨b, o, ho, hnumber⟩ => ⟨b, o, ?_, hnumber⟩
      refine (Function.update_of_ne (fun heq => ?_) ..).trans ho
      rw [heq, ha] at ho
      cases ho
    · exact .inr ⟨a, _, Function.update_self .., rfl⟩
  refine ⟨h.inv.construct hr ha members, hmade.addRef, fun b o ho => ?_⟩
  change Function.update t.heap a (some ⟨t.made, members⟩) b = some o at ho
  change Function.update t.m_refMaps a (insert r (t.m_refMaps a)) b ≠ ∅
  by_cases hb : b = a
  · rw [hb, Function.update_self]
    exact Finset.insert_ne_empty _ _
  · rw [Function.update_of_ne hb] at ho ⊢
    exact h.used b o ho

theorem Plain.destroy (h : t.Plain) (hstep : t.destroy r = .ok t') : t'.Plain := by
  rw [Refs.destroy] at hstep
  split at hstep
  case h_1 => cases hstep
  case h_2 x hx =>
    cases hstep
    exact h.destructor hx

theorem Plain.step (h : t.Plain) (hok : t.Covered act) (hstep : t.step act = .ok t') : t'.Plain := by
  cases act with
  | null r =>
    have hinv := h.inv.step (show t.Careful (.null r) from trivial) hstep
    rw [Refs.step] at hstep
    split at hstep <;> cases hstep
    exact ⟨hinv, h.flat.store _ fun z hz q hq => (by cases hz; cases hq), h.used⟩
  | new r a members =>
    rw [Refs.step] at hstep
    split_ifs at hstep with hfree
    cases hstep
    exact h.construct hfree.1 hfree.2.1 members
  | copy r that junk =>
    rw [Refs.step] at hstep
    split at hstep
    case h_1 y hr hy =>
      cases hstep
      exact h.copy hr hy junk
    case h_2 => cases hstep
  | assign r that =>
    rw [Refs.step] at hstep
    split at hstep
    case h_1 x y hx hy =>
      cases hstep
      exact h.assign hx hy hok
    case h_2 => cases hstep
  | enableLoopRefMode r => exact hok.elim
  | destroy r => exact h.destroy hstep
  | next =>
    rw [Refs.step] at hstep
    split at hstep
    case h_1 => cases hstep
    case h_2 r rest hpending =>
      have htasks : ∀ r that, .take r that ∉ rest := by
        intro r that hmem
        refine h.flat.tasks r that ?_
        rw [hpending]
        exact List.mem_cons_of_mem _ hmem
      have hrest : Plain { t with pending := rest } :=
        ⟨h.inv.congr rfl rfl rfl rfl rfl, ⟨h.flat.plain, h.flat.all, htasks⟩, h.used⟩
      exact hrest.destroy hstep
    case h_3 r that rest hpending =>
      refine absurd ?_ (h.flat.tasks r that)
      rw [hpending]
      exact List.mem_cons_self

omit [DecidableEq α] [DecidableEq ρ] in
theorem plain_begin : (begin : Refs α ρ).Plain :=
  ⟨inv_begin, ⟨nofun, fun n hn => absurd hn (Nat.not_lt_zero n), nofun⟩, nofun⟩

/-- In every run outside loop mode in which no assignment takes the last `RefPtr` away from an object. -/
theorem ownsOnce_run (hk : Along step Covered begin acts) (hrun : acts.foldlM step begin = .ok t) : t.OwnsOnce :=
  (hk.keeps Plain hrun plain_begin fun _ _ _ h hok hstep => h.step hok hstep).ownsOnce

instance decCovered [Fintype ρ] (t : Refs α ρ) : ∀ act, Decidable (t.Covered act)
  | .assign r that => inferInstanceAs (Decidable (r = that ∨ t.dataOf r = none ∨ ∃ s, s ≠ r ∧ t.dataOf s = t.dataOf r))
  | .enableLoopRefMode _ => isFalse id
  | .null _ | .new .. | .copy .. | .destroy _ | .next => isTrue trivial

/-- A copy is assigned to itself and then another object, and all are destroyed. -/
def coveredActions : List (Action Nat (Fin 4)) :=
  [.new 0 100 [], .new 1 200 [], .copy 2 0 ⟨false, false, none, none⟩, .assign 2 2, .assign 2 1, .destroy 0, .destroy 1,
    .destroy 2]

theorem ownsOnce_run_covered : ∃ t, coveredActions.foldlM step begin = .ok t ∧ t.deletes = [0, 1] ∧ t.OwnsOnce := by
  have hended : ∃ t, coveredActions.foldlM step begin = .ok t ∧ t.deletes = [0, 1] := by decide +kernel
  obtain ⟨t, ht, hdeletes⟩ := hended
  exact ⟨t, ht, hdeletes, ownsOnce_run (by decide +kernel) ht⟩

/-- The only `RefPtr` to an object is assigned another one. -/
def lostActions : List (Action Nat (Fin 2)) := [.new 0 100 [], .new 1 200 [], .assign 0 1, .destroy 0, .destroy 1]

theorem not_ownsOnce_lost : ∃ t, lostActions.foldlM step begin = .ok t ∧ t.deletes = [1] ∧ ¬t.OwnsOnce := by
  have hended : ∃ t, lostActions.foldlM step begin = .ok t ∧ t.deletes = [1] ∧ 0 < t.made ∧ ∀ r, t.dataOf r = none := by
    decide +kernel
  obtain ⟨t, ht, hdeletes, hmade, hnone⟩ := hended
  refine ⟨t, ht, hdeletes, fun h => ?_⟩
  have hgone := h.gone 0 hmade fun r p hp => by rw [hnone r] at hp; cases hp
  rw [hdeletes] at hgone
  exact absurd hgone (by decide)

end Refs

end Counted
