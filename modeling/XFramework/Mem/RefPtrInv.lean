/-
What the table of `Ref` says (Mem/RefPtr.h).

What is in the table is a `RefPtr` to the address, and each `RefPtr` that was
not told that its object is gone is in the table and refers to an object that
is there. The loop mode does not matter for this, only the flag does.
-/
import XFramework.Mem.RefPtr

open Fallible

namespace Counted

namespace Refs

variable {α ρ : Type}

/-- The object that the pointer was taken from is still there. -/
def Alive (t : Refs α ρ) (p : Pointer α) : Prop := ∃ o, t.heap p.addr = some o ∧ o.number = p.object

structure Inv (t : Refs α ρ) : Prop where
  sound : ∀ a r, r ∈ t.m_refMaps a → ∃ x p, t.refs r = some x ∧ x._pData = some p ∧ p.addr = a
  listed : ∀ r x p, t.refs r = some x → x._pData = some p → x._bHasFree = false → r ∈ t.m_refMaps p.addr
  alive : ∀ r x p, t.refs r = some x → x._pData = some p → x._bHasFree = false → t.Alive p
  /-- The one that deleted its object is in the table no more. -/
  owner : ∀ r x, t.refs r = some x → x._bHasFree = true → x._fromRef = none → ∀ a, r ∉ t.m_refMaps a
  made : ∀ a o, t.heap a = some o → o.number < t.made ∧ o.number ∉ t.deletes
  apart : ∀ a b o o', t.heap a = some o → t.heap b = some o' → o.number = o'.number → a = b
  deleted : ∀ n ∈ t.deletes, n < t.made
  nodup : t.deletes.Nodup

variable {t t' : Refs α ρ} {r s that : ρ} {x y : RefPtr α ρ} {p : Pointer α} {a : α}

theorem inv_begin : (begin : Refs α ρ).Inv := by
  constructor <;> simp [begin]

/-- A `RefPtr` that refers to nothing is not in the table. -/
theorem Inv.not_listed (h : t.Inv) (hr : ∀ x, t.refs r = some x → x._pData = none) (a : α) : r ∉ t.m_refMaps a := by
  intro hmem
  obtain ⟨x, p, hx, hp, -⟩ := h.sound a r hmem
  rw [hr x hx] at hp
  cases hp

/-- The invariant is about the `RefPtr`s, the table and the objects. -/
theorem Inv.congr (h : t.Inv) (hrefs : t'.refs = t.refs) (hmaps : t'.m_refMaps = t.m_refMaps) (hheap : t'.heap = t.heap)
    (hmade : t'.made = t.made) (hdeletes : t'.deletes = t.deletes) : t'.Inv := by
  obtain ⟨refs, maps, heap, made, deletes, pending, dangling⟩ := t
  obtain ⟨refs', maps', heap', made', deletes', pending', dangling'⟩ := t'
  cases hrefs
  cases hmaps
  cases hheap
  cases hmade
  cases hdeletes
  exact ⟨h.sound, h.listed, h.alive, h.owner, h.made, h.apart, h.deleted, h.nodup⟩

variable [DecidableEq ρ]

/-- A `RefPtr` ends, or refers to nothing from now on, and leaves the table. -/
theorem Inv.reset (h : t.Inv) (o : Option (RefPtr α ρ)) (ho : ∀ x, o = some x → x._pData = none)
    (hrefs : t'.refs = Function.update t.refs r o) (hmaps : ∀ a s, s ∈ t'.m_refMaps a ↔ s ∈ t.m_refMaps a ∧ s ≠ r)
    (hheap : t'.heap = t.heap) (hmade : t'.made = t.made) (hdeletes : t'.deletes = t.deletes) : t'.Inv := by
  have hat : ∀ s x, t'.refs s = some x → s = r ∧ x._pData = none ∨ s ≠ r ∧ t.refs s = some x := by
    intro s x hs
    rw [hrefs] at hs
    by_cases hsr : s = r
    · rw [hsr, Function.update_self] at hs
      exact .inl ⟨hsr, ho x hs⟩
    · rw [Function.update_of_ne hsr] at hs
      exact .inr ⟨hsr, hs⟩
  constructor
  case sound =>
    intro a s hs
    obtain ⟨hs, hsr⟩ := (hmaps a s).1 hs
    rw [hrefs, Function.update_of_ne hsr]
    exact h.sound a s hs
  case listed =>
    intro s x p hs hp hfree
    rcases hat s x hs with ⟨-, hnone⟩ | ⟨hsr, hs⟩
    · rw [hnone] at hp
      cases hp
    · exact (hmaps _ s).2 ⟨h.listed s x p hs hp hfree, hsr⟩
  case alive =>
    intro s x p hs hp hfree
    rcases hat s x hs with ⟨-, hnone⟩ | ⟨-, hs⟩
    · rw [hnone] at hp
      cases hp
    · rw [Alive, hheap]
      exact h.alive s x p hs hp hfree
  case owner =>
    intro s x hs hfree hfrom a hmem
    obtain ⟨hmem, hsr⟩ := (hmaps a s).1 hmem
    rcases hat s x hs with ⟨heq, -⟩ | ⟨-, hs⟩
    · exact hsr heq
    · exact h.owner s x hs hfree hfrom a hmem
  case made => rw [hheap, hmade, hdeletes]; exact h.made
  case apart => rw [hheap]; exact h.apart
  case deleted => rw [hmade, hdeletes]; exact h.deleted
  case nodup => rw [hdeletes]; exact h.nodup

/-- A `RefPtr` that is not in the table ends or refers to nothing. -/
theorem Inv.forget (h : t.Inv) (hr : ∀ a, r ∉ t.m_refMaps a) (o : Option (RefPtr α ρ)) (ho : ∀ x, o = some x → x._pData = none) :
    (t.store r o).Inv := by
  refine h.reset o ho rfl (fun a s => (and_iff_left_of_imp fun hmem heq => ?_).symm) rfl rfl rfl
  rw [heq] at hmem
  exact hr a hmem

variable [DecidableEq α]

theorem mem_delRef (h : t.Inv) (hx : t.refs r = some x) (a : α) (s : ρ) :
    s ∈ (t.delRef x._pData r).m_refMaps a ↔ s ∈ t.m_refMaps a ∧ s ≠ r := by
  cases hp : x._pData with
  | none =>
    rw [delRef]
    refine (and_iff_left_of_imp fun hmem heq => ?_).symm
    rw [heq] at hmem
    refine h.not_listed (fun y hy => ?_) a hmem
    rw [hx] at hy
    cases hy
    exact hp
  | some p =>
    change s ∈ Function.update t.m_refMaps p.addr ((t.m_refMaps p.addr).erase r) a ↔ _
    by_cases ha : a = p.addr
    · rw [ha, Function.update_self, Finset.mem_erase, and_comm]
    · rw [Function.update_of_ne ha]
      refine (and_iff_left_of_imp fun hmem heq => ?_).symm
      rw [heq] at hmem
      obtain ⟨y, q, hy, hq, haddr⟩ := h.sound a r hmem
      rw [hx] at hy
      cases hy
      rw [hp] at hq
      cases hq
      exact ha haddr.symm

theorem heap_delRef {p : Option (Pointer α)} : (t.delRef p r).heap = t.heap := by cases p <;> rfl

theorem refs_delRef {p : Option (Pointer α)} : (t.delRef p r).refs = t.refs := by cases p <;> rfl

theorem made_delRef {p : Option (Pointer α)} : (t.delRef p r).made = t.made := by cases p <;> rfl

theorem deletes_delRef {p : Option (Pointer α)} : (t.delRef p r).deletes = t.deletes := by cases p <;> rfl

/-- A `RefPtr` is taken out of the table, and ends or refers to nothing. -/
theorem Inv.detach (h : t.Inv) (hx : t.refs r = some x) (o : Option (RefPtr α ρ)) (ho : ∀ x, o = some x → x._pData = none) :
    ((t.delRef x._pData r).store r o).Inv := by
  refine h.reset o ho ?_ (mem_delRef h hx) heap_delRef made_delRef deletes_delRef
  rw [store, refs_delRef]

/-- A `RefPtr` that is not in the table refers to an object and is entered. -/
theorem Inv.attach (h : t.Inv) (hr : ∀ a, r ∉ t.m_refMaps a) (hp : x._pData = some p)
    (hfrom : x._bHasFree = true → x._fromRef ≠ none) (halive : x._bHasFree = false → t.Alive p) :
    ((t.store r (some x)).addRef (some p) r).Inv := by
  have hmem : ∀ a s, s ∈ Function.update t.m_refMaps p.addr (insert r (t.m_refMaps p.addr)) a ↔
      s = r ∧ a = p.addr ∨ s ≠ r ∧ s ∈ t.m_refMaps a := by
    intro a s
    by_cases ha : a = p.addr
    · rw [ha, Function.update_self, Finset.mem_insert]
      by_cases hs : s = r
      · simp [hs]
      · simp [hs]
    · rw [Function.update_of_ne ha]
      by_cases hs : s = r
      · simp [hs, ha, hr a]
      · simp [hs]
  have hat : ∀ s y, Function.update t.refs r (some x) s = some y → s = r ∧ y = x ∨ s ≠ r ∧ t.refs s = some y := by
    intro s y hs
    by_cases hsr : s = r
    · rw [hsr, Function.update_self] at hs
      exact .inl ⟨hsr, (Option.some.inj hs).symm⟩
    · rw [Function.update_of_ne hsr] at hs
      exact .inr ⟨hsr, hs⟩
  constructor
  case sound =>
    intro a s hs
    rcases (hmem a s).1 hs with ⟨rfl, rfl⟩ | ⟨hsr, hs⟩
    · exact ⟨x, p, Function.update_self .., hp, rfl⟩
    · obtain ⟨y, q, hy, hq⟩ := h.sound a s hs
      exact ⟨y, q, (Function.update_of_ne hsr ..).trans hy, hq⟩
  case listed =>
    intro s y q hs hq hfree
    refine (hmem q.addr s).2 ?_
    rcases hat s y hs with ⟨hsr, rfl⟩ | ⟨hsr, hs⟩
    · rw [hp] at hq
      cases hq
      exact .inl ⟨hsr, rfl⟩
    · exact .inr ⟨hsr, h.listed s y q hs hq hfree⟩
  case alive =>
    intro s y q hs hq hfree
    rcases hat s y hs with ⟨-, rfl⟩ | ⟨-, hs⟩
    · rw [hp] at hq
      cases hq
      exact halive hfree
    · exact h.alive s y q hs hq hfree
  case owner =>
    intro s y hs hfree hnone a hin
    rcases hat s y hs with ⟨-, rfl⟩ | ⟨hsr, hs⟩
    · exact hfrom hfree hnone
    · rcases (hmem a s).1 hin with ⟨heq, -⟩ | ⟨-, hin⟩
      · exact hsr heq
      · exact h.owner s y hs hfree hnone a hin
  case made => exact h.made
  case apart => exact h.apart
  case deleted => exact h.deleted
  case nodup => exact h.nodup

theorem mem_notifyFree {a : α} : s ∈ (t.notifyFree p).m_refMaps a ↔ a ≠ p.addr ∧ s ∈ t.m_refMaps a := by
  change s ∈ Function.update t.m_refMaps p.addr ∅ a ↔ _
  by_cases ha : a = p.addr
  · simp [ha]
  · simp [ha]

/-- What `NotifyFree` does with a `RefPtr`: it sets the flag of those that are in the table for the object. -/
theorem refs_notifyFree (hs : (t.notifyFree p).refs s = some y) : ∃ x, t.refs s = some x ∧ y._pData = x._pData ∧
    y._fromRef = x._fromRef ∧ (s ∈ t.m_refMaps p.addr ∧ y._bHasFree = true ∨ s ∉ t.m_refMaps p.addr ∧ y = x) := by
  rw [notifyFree] at hs
  dsimp only at hs
  split_ifs at hs with hmem
  · obtain ⟨x, hx, rfl⟩ := Option.map_eq_some_iff.1 hs
    exact ⟨x, hx, rfl, rfl, .inl ⟨hmem, rfl⟩⟩
  · exact ⟨y, hs, rfl, rfl, .inr ⟨hmem, rfl⟩⟩

/-- All that is in the table for the object is told, and leaves the table. -/
theorem Inv.notify (h : t.Inv) (p : Pointer α) : (t.notifyFree p).Inv := by
  constructor
  case sound =>
    intro a s hs
    obtain ⟨-, hs⟩ := mem_notifyFree.1 hs
    obtain ⟨x, q, hx, hq, haddr⟩ := h.sound a s hs
    by_cases hmem : s ∈ t.m_refMaps p.addr
    · refine ⟨{ x with _bHasFree := true }, q, ?_, hq, haddr⟩
      rw [notifyFree]
      dsimp only
      rw [if_pos hmem, hx]
      rfl
    · refine ⟨x, q, ?_, hq, haddr⟩
      rw [notifyFree]
      dsimp only
      rw [if_neg hmem, hx]
  case listed =>
    intro s y q hs hq hfree
    obtain ⟨x, hx, hdata, -, ⟨-, hflag⟩ | ⟨hmem, rfl⟩⟩ := refs_notifyFree hs
    · rw [hfree] at hflag
      cases hflag
    · have hlisted := h.listed s y q hx hq hfree
      refine mem_notifyFree.2 ⟨fun heq => ?_, hlisted⟩
      rw [heq] at hlisted
      exact hmem hlisted
  case alive =>
    intro s y q hs hq hfree
    obtain ⟨x, hx, hdata, -, ⟨-, hflag⟩ | ⟨-, rfl⟩⟩ := refs_notifyFree hs
    · rw [hfree] at hflag
      cases hflag
    · exact h.alive s y q hx hq hfree
  case owner =>
    intro s y hs hfree hnone a hin
    obtain ⟨hne, hin⟩ := mem_notifyFree.1 hin
    obtain ⟨x, hx, hdata, hfrom, ⟨hmem, -⟩ | ⟨-, rfl⟩⟩ := refs_notifyFree hs
    · -- it is in the table for this object only
      obtain ⟨x₁, q₁, hx₁, hq₁, haddr₁⟩ := h.sound _ s hmem
      obtain ⟨x₂, q₂, hx₂, hq₂, haddr₂⟩ := h.sound a s hin
      rw [hx₁] at hx₂
      cases hx₂
      rw [hq₁] at hq₂
      cases hq₂
      exact hne (haddr₂.symm.trans haddr₁)
    · exact h.owner s y hx hfree hnone a hin
  case made => exact h.made
  case apart => exact h.apart
  case deleted => exact h.deleted
  case nodup => exact h.nodup

omit [DecidableEq ρ] in
theorem delete_alive (halive : t.Alive p) : ∃ members : List ρ, t.delete (some p) = { t with
    heap := Function.update t.heap p.addr none
    deletes := t.deletes ++ [p.object]
    pending := members.map .destroy ++ t.pending } := by
  obtain ⟨o, ho, hnumber⟩ := halive
  rw [Refs.delete, ho]
  dsimp only
  rw [if_pos hnumber]
  exact ⟨_, rfl⟩

omit [DecidableEq ρ] in
/-- An object is deleted that is there, and to which the table has nothing. -/
theorem Inv.delete (h : t.Inv) (hempty : t.m_refMaps p.addr = ∅) (halive : t.Alive p) : (t.delete (some p)).Inv := by
  obtain ⟨members, heq⟩ := delete_alive halive
  obtain ⟨o, ho, hnumber⟩ := halive
  have hheap : ∀ a o', Function.update t.heap p.addr none a = some o' → a ≠ p.addr ∧ t.heap a = some o' := by
    intro a o' ha
    by_cases haddr : a = p.addr
    · rw [haddr, Function.update_self] at ha
      cases ha
    · rw [Function.update_of_ne haddr] at ha
      exact ⟨haddr, ha⟩
  rw [heq]
  constructor
  case sound => exact h.sound
  case listed => exact h.listed
  case alive =>
    intro s x q hs hq hfree
    obtain ⟨o', ho', hnumber'⟩ := h.alive s x q hs hq hfree
    refine ⟨o', ?_, hnumber'⟩
    have hlisted := h.listed s x q hs hq hfree
    rw [← ho']
    refine Function.update_of_ne (fun haddr => ?_) ..
    rw [haddr, hempty] at hlisted
    exact absurd hlisted (Finset.notMem_empty _)
  case owner => exact h.owner
  case made =>
    intro a o' ha
    obtain ⟨hne, ha⟩ := hheap a o' ha
    obtain ⟨hlt, hnot⟩ := h.made a o' ha
    refine ⟨hlt, fun hmem => ?_⟩
    rcases List.mem_append.1 hmem with hmem | hmem
    · exact hnot hmem
    · exact hne (h.apart a p.addr o' o ha ho (by rw [List.mem_singleton.1 hmem, hnumber]))
  case apart => exact fun a b o₁ o₂ ha hb => h.apart a b o₁ o₂ (hheap a o₁ ha).2 (hheap b o₂ hb).2
  case deleted =>
    intro n hn
    rcases List.mem_append.1 hn with hn | hn
    · exact h.deleted n hn
    · rw [List.mem_singleton.1 hn, ← hnumber]
      exact (h.made _ o ho).1
  case nodup =>
    have hnew := (h.made _ o ho).2
    rw [hnumber] at hnew
    have hnodup := h.nodup.concat hnew
    rw [List.concat_eq_append] at hnodup
    exact hnodup

omit [DecidableEq ρ] in
/-- A new object is where there was none. -/
theorem Inv.make (h : t.Inv) (ha : t.heap a = none) (members : List ρ) :
    Inv { t with heap := Function.update t.heap a (some ⟨t.made, members⟩), made := t.made + 1 } := by
  have hheap : ∀ b o, Function.update t.heap a (some ⟨t.made, members⟩) b = some o →
      b = a ∧ o.number = t.made ∨ t.heap b = some o := by
    intro b o hb
    by_cases hba : b = a
    · rw [hba, Function.update_self] at hb
      cases hb
      exact .inl ⟨hba, rfl⟩
    · rw [Function.update_of_ne hba] at hb
      exact .inr hb
  constructor
  case sound => exact h.sound
  case listed => exact h.listed
  case alive =>
    intro s x q hs hq hfree
    obtain ⟨o, ho, hnumber⟩ := h.alive s x q hs hq hfree
    refine ⟨o, ?_, hnumber⟩
    rw [← ho]
    refine Function.update_of_ne (fun heq => ?_) ..
    rw [heq, ha] at ho
    cases ho
  case owner => exact h.owner
  case made =>
    intro b o hb
    rcases hheap b o hb with ⟨-, hnumber⟩ | hb
    · exact ⟨by rw [hnumber]; exact Nat.lt_succ_self _, fun hmem => absurd (h.deleted _ hmem) (by omega)⟩
    · exact ⟨Nat.lt_succ_of_lt (h.made b o hb).1, (h.made b o hb).2⟩
  case apart =>
    intro b c o o' hb hc heq
    rcases hheap b o hb with ⟨hba, hnumber⟩ | hb
    · rcases hheap c o' hc with ⟨hca, -⟩ | hc
      · rw [hba, hca]
      · have := (h.made c o' hc).1
        omega
    · rcases hheap c o' hc with ⟨-, hnumber⟩ | hc
      · have := (h.made b o hb).1
        omega
      · exact h.apart b c o o' hb hc heq
  case deleted => exact fun n hn => Nat.lt_succ_of_lt (h.deleted n hn)
  case nodup => exact h.nodup

/-- `RefPtr(new T)`. -/
theorem Inv.construct (h : t.Inv) (hr : t.refs r = none) (ha : t.heap a = none) (members : List ρ) :
    (t.construct r a members).Inv :=
  (h.make ha members).attach (h.not_listed fun x hx => by rw [hr] at hx; cases hx) rfl nofun
    fun _ => ⟨_, Function.update_self .., rfl⟩

/-! ## The steps -/

/-- A `RefPtr` outside loop mode that was told that its object is gone is not the last of the table. -/
def NotStray (t : Refs α ρ) (r : ρ) : Prop :=
  ∀ x, t.refs r = some x → x._bLoopRef = false → x._bHasFree = true → ∀ p, x._pData = some p → (t.m_refMaps p.addr).erase r ≠ ∅

/-- No stray `RefPtr` is destroyed; and when an assignment has deleted the old object, both sides are still
there, and the left one has not been assigned to in between. -/
def Careful (t : Refs α ρ) : Action α ρ → Prop
  | .destroy r => t.NotStray r
  | .next => ∀ task, t.pending.head? = some task → match task with
    | .destroy r => t.NotStray r
    | .take r that => (∃ x, t.refs r = some x ∧ x._bHasFree = true ∧ x._fromRef = none) ∧ t.refs that ≠ none
  | _ => True

/-- The last part of `operator=`, when the left side is not in the table any more. -/
theorem Inv.takeFrom (h : t.Inv) (hr : ∀ a, r ∉ t.m_refMaps a) (hy : t.refs that = some y)
    (hx : y._pData = none → (t.store r (some x)).Inv) : (t.takeFrom r x that y).Inv := by
  cases hp : y._pData with
  | none =>
    rw [Refs.takeFrom, hp]
    exact hx hp
  | some p =>
    rw [Refs.takeFrom, hp]
    exact h.attach hr rfl nofun fun hfree => h.alive that y p hy hp hfree

/-- A `RefPtr` in loop mode that owns its object is destroyed or assigned to. -/
theorem Inv.release (h : t.Inv) (hx : t.refs r = some x) (hp : x._pData = some p) (hfree : x._bHasFree = false) :
    (t.notifyFree p).m_refMaps p.addr = ∅ ∧ (t.notifyFree p).Alive p ∧ ∀ a, r ∉ (t.notifyFree p).m_refMaps a := by
  refine ⟨Function.update_self .., h.alive r x p hx hp hfree, fun a hmem => ?_⟩
  obtain ⟨hne, hmem⟩ := mem_notifyFree.1 hmem
  obtain ⟨y, q, hy, hq, haddr⟩ := h.sound a r hmem
  rw [hx] at hy
  cases hy
  rw [hp] at hq
  cases hq
  exact hne haddr.symm

omit [DecidableEq ρ] [DecidableEq α] in
/-- A `RefPtr` that was given its object and does not own it any more is not in the table. -/
theorem Inv.unlisted (h : t.Inv) (hx : t.refs r = some x) (hfrom : x._fromRef = none)
    (hnot : x._bHasFree = false → x._pData = none) (a : α) : r ∉ t.m_refMaps a := by
  cases hfree : x._bHasFree with
  | true => exact h.owner r x hx hfree hfrom a
  | false =>
    refine h.not_listed (fun y hy => ?_) a
    rw [hx] at hy
    cases hy
    exact hnot hfree

theorem Inv.destructor (h : t.Inv) (hx : t.refs r = some x) (hstray : t.NotStray r) : (t.destructor r x).Inv := by
  rw [Refs.destructor]
  by_cases hloop : x._bLoopRef = true
  · rw [if_pos hloop]
    split
    case h_1 p hfrom hfree hp =>
      obtain ⟨hempty, halive, hout⟩ := h.release hx hp hfree
      exact ((h.notify p).forget hout none nofun).delete hempty halive
    case h_2 => exact h.detach hx none nofun
    case h_3 hfrom hnot =>
      refine h.forget (h.unlisted hx hfrom fun hfree => ?_) none nofun
      rw [Option.eq_none_iff_forall_ne_some]
      exact fun p hp => hnot p hfree hp
  · rw [if_neg hloop]
    have hdetach := h.detach hx none nofun
    dsimp only
    split_ifs with hcount
    case neg => exact hdetach
    cases hp : x._pData with
    | none =>
      rw [hp] at hdetach
      exact hdetach
    | some p =>
      -- it was the last one, so it was not told that the object is gone
      rw [hp] at hdetach hcount
      have hempty : (t.m_refMaps p.addr).erase r = ∅ := by
        have hzero := Finset.card_eq_zero.1 hcount
        rwa [show ((t.delRef (some p) r).store r none).m_refMaps p.addr = (t.m_refMaps p.addr).erase r from
          Function.update_self ..] at hzero
      refine hdetach.delete (Finset.card_eq_zero.1 hcount) (h.alive r x p hx hp ?_)
      rw [Bool.eq_false_iff]
      exact fun hfree => hstray x hx (Bool.eq_false_iff.2 hloop) hfree p hp hempty

theorem takeFrom_store {o : Option (RefPtr α ρ)} : (t.store r o).takeFrom r x that y = t.takeFrom r x that y := by
  rw [takeFrom, takeFrom]
  cases y._pData <;> simp only [store, Function.update_idem]

/-- The left side leaves its object, and refers to that of the right side. -/
theorem Inv.retake (h : t.Inv) (hx : t.refs r = some x) (hy : t.refs that = some y) (hsame : r ≠ that) (x' : RefPtr α ρ)
    (hx' : x'._pData = none) : ((t.delRef x._pData r).takeFrom r x' that y).Inv := by
  have hnone : ∀ z, some x' = some z → z._pData = none := fun z hz => by cases hz; exact hx'
  have hdetach := h.detach hx (some x') hnone
  rw [← takeFrom_store (o := some x')]
  refine hdetach.takeFrom (fun a hmem => ((mem_delRef h hx a r).1 hmem).2 rfl) ?_ fun _ => ?_
  · rw [store, refs_delRef]
    exact (Function.update_of_ne (Ne.symm hsame) ..).trans hy
  · exact hdetach.forget (fun a hmem => ((mem_delRef h hx a r).1 hmem).2 rfl) (some x') hnone

theorem Inv.assign (h : t.Inv) (hx : t.refs r = some x) (hy : t.refs that = some y) : (t.assign r x that y).Inv := by
  rw [Refs.assign]
  by_cases hsame : r = that
  · rw [if_pos hsame]
    exact h
  rw [if_neg hsame]
  by_cases hloop : x._bLoopRef = true
  · rw [if_pos hloop]
    split
    case h_1 p hfrom hfree hp =>
      obtain ⟨hempty, halive, -⟩ := h.release hx hp hfree
      have hpending : Inv { t.notifyFree p with pending := .take r that :: t.pending } :=
        (h.notify p).congr rfl rfl rfl rfl rfl
      exact hpending.delete hempty halive
    case h_2 source p hfrom hp =>
      rw [← hp]
      exact h.retake hx hy hsame _ rfl
    case h_3 hweak howner =>
      refine h.takeFrom (fun a => ?_) hy fun _ => ?_
      · cases hfrom : x._fromRef with
        | none =>
          refine h.unlisted hx hfrom (fun hfree => ?_) a
          rw [Option.eq_none_iff_forall_ne_some]
          exact fun p hp => howner p hfrom hfree hp
        | some source =>
          refine h.not_listed (fun z hz => ?_) a
          rw [hx] at hz
          cases hz
          rw [Option.eq_none_iff_forall_ne_some]
          exact fun p hp => hweak source p hfrom hp
      · rw [store, ← hx, Function.update_eq_self]
        exact h
  · rw [if_neg hloop]
    exact h.retake hx hy hsame _ rfl

theorem copy_eq {junk : RefPtr α ρ} : t.copy r that y junk = t.takeFrom r { junk with _pData := none } that y := by
  rw [copy, takeFrom]

theorem Inv.copy (h : t.Inv) (hr : t.refs r = none) (hy : t.refs that = some y) (junk : RefPtr α ρ) :
    (t.copy r that y junk).Inv := by
  have hout := h.not_listed (r := r) fun x hx => by rw [hr] at hx; cases hx
  rw [copy_eq]
  exact h.takeFrom hout hy fun _ => h.forget hout _ fun z hz => by cases hz; rfl

theorem Inv.take (h : t.Inv) (hx : t.refs r = some x) (hfree : x._bHasFree = true) (hfrom : x._fromRef = none)
    (hy : t.refs that = some y) : (t.take r that).Inv := by
  have hout := h.owner r x hx hfree hfrom
  rw [Refs.take, hx, hy]
  exact h.takeFrom hout hy fun _ => h.forget hout _ fun z hz => by cases hz; rfl

omit [DecidableEq α] in
/-- The flags of a `RefPtr` do not count for the table, except the one that its object is gone. -/
theorem Inv.enable (h : t.Inv) (hx : t.refs r = some x) : (t.store r (some { x with _bLoopRef := true })).Inv := by
  have hat : ∀ s y, Function.update t.refs r (some { x with _bLoopRef := true }) s = some y → ∃ z, t.refs s = some z ∧
      y._bHasFree = z._bHasFree ∧ y._pData = z._pData ∧ y._fromRef = z._fromRef := by
    intro s y hs
    by_cases hsr : s = r
    · rw [hsr, Function.update_self] at hs
      cases hs
      exact ⟨x, hsr ▸ hx, rfl, rfl, rfl⟩
    · rw [Function.update_of_ne hsr] at hs
      exact ⟨y, hs, rfl, rfl, rfl⟩
  constructor
  case sound =>
    intro a s hs
    obtain ⟨z, p, hz, hp, haddr⟩ := h.sound a s hs
    by_cases hsr : s = r
    · rw [hsr, hx] at hz
      cases hz
      refine ⟨{ x with _bLoopRef := true }, p, ?_, hp, haddr⟩
      rw [hsr]
      exact Function.update_self ..
    · exact ⟨z, p, (Function.update_of_ne hsr ..).trans hz, hp, haddr⟩
  case listed =>
    intro s y p hs hp hfree
    obtain ⟨z, hz, hflag, hdata, -⟩ := hat s y hs
    exact h.listed s z p hz (hdata ▸ hp) (hflag ▸ hfree)
  case alive =>
    intro s y p hs hp hfree
    obtain ⟨z, hz, hflag, hdata, -⟩ := hat s y hs
    exact h.alive s z p hz (hdata ▸ hp) (hflag ▸ hfree)
  case owner =>
    intro s y hs hfree hfrom
    obtain ⟨z, hz, hflag, -, hsource⟩ := hat s y hs
    exact h.owner s z hz (hflag ▸ hfree) (hsource ▸ hfrom)
  case made => exact h.made
  case apart => exact h.apart
  case deleted => exact h.deleted
  case nodup => exact h.nodup

theorem Inv.destroy (h : t.Inv) (hstray : t.NotStray r) (hstep : t.destroy r = .ok t') : t'.Inv := by
  rw [Refs.destroy] at hstep
  split at hstep
  case h_1 => cases hstep
  case h_2 x hx =>
    cases hstep
    exact h.destructor hx hstray

theorem Inv.step {act : Action α ρ} (h : t.Inv) (hok : t.Careful act) (hstep : t.step act = .ok t') : t'.Inv := by
  cases act with
  | null r =>
    rw [Refs.step] at hstep
    split at hstep
    case h_1 hr =>
      cases hstep
      exact h.forget (h.not_listed fun x hx => by rw [hr] at hx; cases hx) _ fun x hx => by cases hx; rfl
    case h_2 => cases hstep
  | new r a members =>
    rw [Refs.step] at hstep
    split_ifs at hstep with hok
    cases hstep
    exact h.construct hok.1 hok.2.1 members
  | copy r that junk =>
    rw [Refs.step] at hstep
    split at hstep
    case h_1 y hr hy =>
      cases hstep
      exact h.copy hr hy junk
    case h_2 => cases hstep
  | assign r that =>
    rw [Refs.step] at hstep
    split at hstep
    case h_1 x y hx hy =>
      cases hstep
      exact h.assign hx hy
    case h_2 => cases hstep
  | enableLoopRefMode r =>
    rw [Refs.step] at hstep
    split at hstep
    case h_1 => cases hstep
    case h_2 x hx =>
      cases hstep
      exact h.enable hx
  | destroy r => exact h.destroy hok hstep
  | next =>
    rw [Refs.step] at hstep
    split at hstep
    case h_1 => cases hstep
    case h_2 r rest hpending =>
      have hstray : t.NotStray r := hok (.destroy r) (by rw [hpending]; rfl)
      have hrest : Inv { t with pending := rest } := h.congr rfl rfl rfl rfl rfl
      exact hrest.destroy hstray hstep
    case h_3 r that rest hpending =>
      cases hstep
      obtain ⟨⟨x, hx, hfree, hfrom⟩, hthat⟩ := hok (.take r that) (by rw [hpending]; rfl)
      obtain ⟨y, hy⟩ := Option.ne_none_iff_exists'.1 hthat
      have hrest : Inv { t with pending := rest } := h.congr rfl rfl rfl rfl rfl
      exact hrest.take hx hfree hfrom hy

end Refs

end Counted
