/-
`Alloc` of the object pool (Mem/ObjPool.h).

What is in the slots, and what `expand` makes of them. `Alloc` doubles the
pool once, in an `unsigned short`, and reads the slot that it looks for then
whether it is found or not: `Alloc(n)` takes `n` slots or none exactly when a
run of free slots is there or comes with one doubling (`allOrNothing_iff`).
-/
import XFramework.Mem.ObjPool

open Fallible

namespace ObjPool

variable {p p' : ObjPool} {inits : List InitResult} {k q : Nat}

def pointer (p : ObjPool) (k : Nat) : Option Nat := (p.m_vecPMem[k]?).bind TNode.pData

def Marked (p : ObjPool) (k : Nat) : Prop := ∃ x, p.m_vecPMem[k]? = some x ∧ x.nFlag ≠ 0

/-- Each slot has its own object. -/
def Distinct (p : ObjPool) : Prop := ∀ i j q, p.pointer i = some q → p.pointer j = some q → i = j

/-- `Free` finds the slot. -/
theorem Distinct.findIdx? (hp : Distinct p) (hk : p.pointer k = some q) :
    p.m_vecPMem.findIdx? (fun x => x.pData = some q) = some k := by
  obtain ⟨x, hx, hxq⟩ := Option.bind_eq_some_iff.1 hk
  obtain ⟨hlt, rfl⟩ := List.getElem?_eq_some_iff.1 hx
  refine List.findIdx?_eq_some_iff_getElem.2 ⟨hlt, decide_eq_true hxq, fun j hj hjq => ?_⟩
  have hjlt := Nat.lt_trans hj hlt
  have hjk := hp j k q (Option.bind_eq_some_iff.2 ⟨_, List.getElem?_eq_getElem hjlt, of_decide_eq_true hjq⟩) hk
  exact absurd hj (hjk ▸ Nat.lt_irrefl j)

/-- `InitObj` stores new objects. -/
def Fresh (p : ObjPool) (inits : List InitResult) : Prop :=
  ∀ i < inits.length, ∀ q ∈ ((inits[i]?).bind InitResult.stored).join,
    (∀ x ∈ p.m_vecPMem, x.pData ≠ some q) ∧
      ∀ j < inits.length, (inits[j]?).bind InitResult.stored = some (some q) → i = j

instance : Decidable (Fresh p inits) := inferInstanceAs (Decidable (∀ i < _, ∀ q ∈ _, _))

theorem Fresh.spec (h : Fresh p inits) {i : Nat} (hi : (inits[i]?).bind InitResult.stored = some (some q)) :
    (∀ k, p.pointer k ≠ some q) ∧ ∀ j, (inits[j]?).bind InitResult.stored = some (some q) → i = j := by
  have hlt : ∀ {j}, (inits[j]?).bind InitResult.stored = some (some q) → j < inits.length := by
    intro j hj
    obtain ⟨r, hr, -⟩ := Option.bind_eq_some_iff.1 hj
    exact (List.getElem?_eq_some_iff.1 hr).1
  obtain ⟨hnew, hinj⟩ := h i (hlt hi) q (Option.join_eq_some_iff.2 hi)
  refine ⟨fun k hk => ?_, fun j hj => hinj j (hlt hj) hj⟩
  obtain ⟨x, hx, hxq⟩ := Option.bind_eq_some_iff.1 hk
  exact hnew x (List.mem_of_getElem? hx) hxq

/-- The pool once `InitObj` was called for the slots from `k` on. -/
def initFrom (p : ObjPool) (k : Nat) (inits : List InitResult) : ObjPool :=
  ⟨p.m_nMax, p.m_vecPMem.take k ++ (initNodes (p.m_vecPMem.drop k) inits).1⟩

def resized (p : ObjPool) (n : Nat) : ObjPool := ⟨n, resize p.m_vecPMem n⟩

theorem length_initFrom (p : ObjPool) (k : Nat) (inits : List InitResult) :
    (p.initFrom k inits).m_vecPMem.length = p.m_vecPMem.length := by
  rw [initFrom, List.length_append, length_initNodes, List.length_take, List.length_drop]
  omega

/-- `InitObj` leaves the flags. -/
theorem getElem_initFrom (p : ObjPool) (k : Nat) (inits : List InitResult) (i : Nat) :
    ((p.initFrom k inits).m_vecPMem[i]?).map TNode.nFlag = (p.m_vecPMem[i]?).map TNode.nFlag := by
  rw [initFrom, getElem?_initFrom]
  have hinit : ∀ r x, (TNode.initObj x r).nFlag = x.nFlag := by
    intro r x
    rw [TNode.initObj]
    cases r.stored <;> rfl
  split_ifs
  · rfl
  · cases (initCalls (p.m_vecPMem.drop k) inits)[i - k]? with
    | none => rfl
    | some r => simp [Function.comp_def, hinit]

theorem pointer_of_lt {i : Nat} (hi : i < k) : (p.initFrom k inits).pointer i = p.pointer i := by
  rw [pointer, initFrom, getElem?_initFrom, if_pos hi]
  rfl

/-- A slot has its old object, or a new one. -/
theorem pointer_initFrom {i : Nat} (h : (p.initFrom k inits).pointer i = some q) :
    p.pointer i = some q ∨ k ≤ i ∧ (inits[i - k]?).bind InitResult.stored = some (some q) := by
  by_cases hi : i < k
  · exact .inl ((pointer_of_lt hi).symm.trans h)
  · rw [pointer, initFrom, getElem?_initFrom, if_neg hi] at h
    cases hcall : (initCalls (p.m_vecPMem.drop k) inits)[i - k]? with
    | none =>
      rw [hcall] at h
      exact .inl h
    | some r =>
      rw [hcall] at h
      obtain ⟨x, hx, hxq⟩ := Option.bind_eq_some_iff.1 h
      obtain ⟨y, hy, rfl⟩ := Option.map_eq_some_iff.1 hx
      rw [TNode.initObj] at hxq
      cases hr : r.stored with
      | none =>
        rw [hr] at hxq
        exact .inl (Option.bind_eq_some_iff.2 ⟨y, hy, hxq⟩)
      | some q? =>
        rw [hr] at hxq
        refine .inr ⟨Nat.le_of_not_lt hi, Option.bind_eq_some_iff.2 ⟨r, getElem?_initCalls hcall, ?_⟩⟩
        rw [hr]
        exact congrArg some hxq

theorem Distinct.initFrom (hp : Distinct p) (hfresh : Fresh p inits) : Distinct (p.initFrom k inits) := by
  intro i j q hi hj
  rcases pointer_initFrom hi with hi | ⟨hki, hi⟩
  · rcases pointer_initFrom hj with hj | ⟨hkj, hj⟩
    · exact hp i j q hi hj
    · exact absurd hi ((hfresh.spec hj).1 i)
  · rcases pointer_initFrom hj with hj | ⟨hkj, hj⟩
    · exact absurd hj ((hfresh.spec hi).1 j)
    · have := (hfresh.spec hi).2 _ hj
      omega

/-- The slots after a resize are old ones and empty ones. -/
theorem pointer_resized {n i : Nat} (h : (p.resized n).pointer i = some q) : p.pointer i = some q := by
  rw [pointer, resized, getElem?_resize] at h
  split_ifs at h
  · cases hold : p.m_vecPMem[i]? with
    | none =>
      rw [hold] at h
      cases h
    | some x =>
      rw [hold] at h
      exact Option.bind_eq_some_iff.2 ⟨x, hold, h⟩
  · cases h

theorem getElem_resized {n i : Nat} (hi : i < p.m_vecPMem.length) (hn : i < n) :
    (p.resized n).m_vecPMem[i]? = p.m_vecPMem[i]? := by
  rw [resized, getElem?_resize, if_pos hn, List.getElem?_eq_getElem hi]
  rfl

theorem Distinct.resized (hp : Distinct p) (n : Nat) : Distinct (p.resized n) :=
  fun i j q hi hj => hp i j q (pointer_resized hi) (pointer_resized hj)

theorem Fresh.resized (h : Fresh p inits) (n : Nat) : Fresh (p.resized n) inits := by
  intro i hi q hq
  obtain ⟨hnew, hinj⟩ := h i hi q hq
  refine ⟨fun x hx hxq => ?_, hinj⟩
  obtain ⟨k, hk⟩ := List.mem_iff_getElem?.1 hx
  obtain ⟨y, hy, hyq⟩ := Option.bind_eq_some_iff.1 (pointer_resized (Option.bind_eq_some_iff.2 ⟨x, hk, hxq⟩))
  exact hnew y (List.mem_of_getElem? hy) hyq

/-- The pool after `expand`. -/
def grown (p : ObjPool) (inits : List InitResult) : ObjPool := (p.resized (p.m_nMax * 2)).initFrom p.m_nMax inits

theorem expand_eq (inits : List InitResult) (hmax : p.m_nMax < 32768) : ∃ b, p.expand inits = (p.grown inits, b) ∧
    (b = true ↔ ∀ i < p.m_nMax, (inits[i]?).any InitResult.ok = true) := by
  have hmod : p.m_nMax * 2 % 65536 = p.m_nMax * 2 := Nat.mod_eq_of_lt (by omega)
  have hhalf : p.m_nMax * 2 / 2 = p.m_nMax := by omega
  have hlen : ((resize p.m_vecPMem (p.m_nMax * 2)).drop p.m_nMax).length = p.m_nMax := by
    rw [List.length_drop, length_resize]
    omega
  refine ⟨(initNodes ((resize p.m_vecPMem (p.m_nMax * 2)).drop p.m_nMax) inits).2, ?_, ?_⟩
  · simp only [expand, updateRecord, hmod, Bool.false_eq_true, if_false, hhalf]
    rfl
  · rw [initNodes_eq_true, hlen]

/-- The flags of a slot that was there are as before. -/
theorem marked_grown (hlen : p.m_vecPMem.length = p.m_nMax) (hk : p.Marked k) : (p.grown inits).Marked k := by
  obtain ⟨x, hx, hflag⟩ := hk
  have hlt := (List.getElem?_eq_some_iff.1 hx).1
  have h := getElem_initFrom (p.resized (p.m_nMax * 2)) p.m_nMax inits k
  rw [getElem_resized hlt (by omega), hx] at h
  obtain ⟨y, hy, hyflag⟩ := Option.map_eq_some_iff.1 h
  exact ⟨y, hy, hyflag ▸ hflag⟩

theorem pointer_grown (hlen : p.m_vecPMem.length = p.m_nMax) (hk : k < p.m_nMax) :
    (p.grown inits).pointer k = p.pointer k := by
  rw [grown, pointer_of_lt hk, pointer, getElem_resized (by omega) (by omega)]
  rfl

theorem findAvailable_grown (p : ObjPool) (inits : List InitResult) (n : Nat) :
    findAvailable (p.grown inits).m_vecPMem 0 n = findAvailable (resize p.m_vecPMem (p.m_nMax * 2)) 0 n := by
  refine findAvailable_congr (List.ext_getElem? fun i => ?_)
  rw [List.getElem?_map, List.getElem?_map]
  exact getElem_initFrom ..

theorem length_grown (p : ObjPool) (inits : List InitResult) : (p.grown inits).m_vecPMem.length = p.m_nMax * 2 :=
  (length_initFrom ..).trans (length_resize ..)

/-! ## Alloc -/

variable {n : Nat} {r : Option Nat}

/-- `Alloc`. -/
def alloc (p : ObjPool) (n : Nat) (inits : List InitResult) : Except PoolFault (ObjPool × Option Nat) := do
  let r ← p.search n inits
  match r.2.2 with
  | none => .ok (r.1, none)
  | some q =>
    let pool ← r.1.setFlags r.2.1 n 1
    .ok (pool, some q)

/-- The flag of a slot; one that is not there is free. -/
def flag (p : ObjPool) (k : Nat) : Nat := ((p.m_vecPMem[k]?).map TNode.nFlag).getD 0

/-- `n` free slots in a row. -/
def FreeRun (xs : List TNode) (n : Nat) : Prop := ∃ s, Flagged xs 0 s (s + n)

theorem freeRun_iff {xs : List TNode} (hn : 0 < n) : FreeRun xs n ↔ findAvailable xs 0 n ≠ none := by
  rw [Ne, findAvailable_eq_none_iff hn, not_not, FreeRun]

instance {xs : List TNode} : Decidable (FreeRun xs 1) := decidable_of_iff _ (freeRun_iff Nat.zero_lt_one).symm

/-- The pool has `n` free slots in a row, or can be doubled and has them then, unless `InitObj` fails for a new slot. -/
def Serves (p : ObjPool) (n : Nat) (inits : List InitResult) : Prop :=
  FreeRun p.m_vecPMem n ∨ p.m_nMax < 32768 ∧ ((∃ i < p.m_nMax, (inits[i]?).any InitResult.ok = false) ∨
    FreeRun (p.m_vecPMem ++ List.replicate p.m_nMax .new) n)

/-- `Alloc(n)` has returned `NULL` and left the flags, or the object of the first of `n` slots that were free and are
marked now; the other flags are as before. -/
def AllOrNothing (p : ObjPool) (n : Nat) (p' : ObjPool) (r : Option Nat) : Prop :=
  p.m_vecPMem.length ≤ p'.m_vecPMem.length ∧ match r with
    | none => ∀ k, p'.flag k = p.flag k
    | some q => ∃ i, i + n ≤ p'.m_vecPMem.length ∧ p'.pointer i = some q ∧ (∀ k, i ≤ k → k < i + n → p.flag k = 0) ∧
      ∀ k, p'.flag k = if i ≤ k ∧ k < i + n then 1 else p.flag k

theorem flag_congr (h : (p'.m_vecPMem[k]?).map TNode.nFlag = (p.m_vecPMem[k]?).map TNode.nFlag) : p'.flag k = p.flag k := by
  rw [flag, flag, h]

theorem Flagged.flag {s e : Nat} (h : Flagged p.m_vecPMem 0 s e) (hk : s ≤ k) (hlt : k < e) : p.flag k = 0 := by
  obtain ⟨x, hx, hflag⟩ := h k hk hlt
  rw [ObjPool.flag, hx]
  exact hflag

/-- A slot has the flag that it had, or none when it is new. -/
theorem flag_resized (p : ObjPool) {m : Nat} (hm : p.m_vecPMem.length ≤ m) (k : Nat) : (p.resized m).flag k = p.flag k := by
  rw [flag, flag, resized, getElem?_resize]
  cases hk : p.m_vecPMem[k]? with
  | none => split_ifs <;> rfl
  | some x =>
    have := (List.getElem?_eq_some_iff.1 hk).1
    rw [if_pos (by omega)]
    rfl

theorem flag_grown (hlen : p.m_vecPMem.length = p.m_nMax) (inits : List InitResult) (k : Nat) :
    (p.grown inits).flag k = p.flag k := by
  rw [grown, flag_congr (getElem_initFrom _ _ inits k), flag_resized p (by omega)]

theorem resize_of_le {xs : List TNode} {m : Nat} (h : m ≤ xs.length) : resize xs m = xs.take m := by
  rw [resize, Nat.sub_eq_zero_of_le h]
  exact List.append_nil _

theorem resize_double (hlen : p.m_vecPMem.length = p.m_nMax) :
    resize p.m_vecPMem (p.m_nMax * 2) = p.m_vecPMem ++ List.replicate p.m_nMax .new := by
  have hnew : p.m_nMax * 2 - p.m_vecPMem.length = p.m_nMax := by omega
  rw [resize, List.take_of_length_le (by omega), hnew]

theorem FreeRun.append {xs ys : List TNode} (h : FreeRun xs n) : FreeRun (xs ++ ys) n :=
  h.imp fun _ hs => hs.append

theorem FreeRun.of_take {xs : List TNode} {m : Nat} (h : FreeRun (xs.take m) n) : FreeRun xs n := by
  obtain ⟨s, hs⟩ := h
  exact ⟨s, List.take_append_drop m xs ▸ hs.append⟩

/-- A pool that has too many slots to count twice as many loses some. -/
theorem expand_wraps (n : Nat) (inits : List InitResult) (hlen : p.m_vecPMem.length = p.m_nMax) (hmax : p.m_nMax < 65536) (hmany : 32768 ≤ p.m_nMax) :
    (p.expand inits).1.m_vecPMem.length < p.m_vecPMem.length ∧
      (FreeRun (p.expand inits).1.m_vecPMem n → FreeRun p.m_vecPMem n) := by
  have hwrap : p.m_nMax * 2 % 65536 < p.m_nMax := by omega
  have heq : (p.expand inits).1 = (p.resized (p.m_nMax * 2 % 65536)).initFrom (p.m_nMax * 2 % 65536 / 2) inits := by
    simp only [expand, updateRecord, Bool.false_eq_true, if_false]
    rfl
  rw [heq]
  refine ⟨?_, ?_⟩
  · rw [length_initFrom, resized, length_resize, hlen]
    exact hwrap
  · rintro ⟨s, hs⟩
    refine FreeRun.of_take (m := p.m_nMax * 2 % 65536) ⟨s, fun j hj hlt => ?_⟩
    obtain ⟨x, hx, hflag⟩ := hs j hj hlt
    have h := getElem_initFrom (p.resized (p.m_nMax * 2 % 65536)) (p.m_nMax * 2 % 65536 / 2) inits j
    rw [hx, resized, resize_of_le (by omega)] at h
    obtain ⟨y, hy, hyflag⟩ := Option.map_eq_some_iff.1 h.symm
    exact ⟨y, hy, hyflag.trans hflag⟩

/-- `Alloc` marks the slots that the search has found. -/
theorem allOrNothing_found {p₁ : ObjPool} {i : Nat} (hn : 0 < n) (hle : p.m_vecPMem.length ≤ p₁.m_vecPMem.length)
    (hflags : ∀ k, p₁.flag k = p.flag k) (hfind : findAvailable p₁.m_vecPMem 0 n = some i)
    (hsearch : p.search n inits = p₁.readAt (some i) >>= fun r => .ok (p₁, r)) :
    ∃ p' r, p.alloc n inits = .ok (p', r) ∧ AllOrNothing p n p' r := by
  obtain ⟨hin, hfree⟩ := findAvailable_spec hn hfind
  obtain ⟨x, hx, -⟩ := hfree i (Nat.le_refl i) (by omega)
  have hread : p₁.readAt (some i) = .ok (i, x.pData) := by rw [readAt, hx]
  rw [alloc, hsearch, hread]
  cases hq : x.pData with
  | none => exact ⟨p₁, none, rfl, hle, hflags⟩
  | some q =>
    obtain ⟨nodes, hset, hget⟩ := p₁.setFlags_spec 1 hin
    have hlen : nodes.length = p₁.m_vecPMem.length := by
      refine Nat.le_antisymm ?_ ?_
      · rw [← List.getElem?_eq_none_iff, hget, List.getElem?_eq_none (Nat.le_refl _)]
        rfl
      · rw [← List.getElem?_eq_none_iff, ← Option.map_eq_none_iff, ← hget, List.getElem?_eq_none (Nat.le_refl _)]
    refine ⟨{ p₁ with m_vecPMem := nodes }, some q, bind_eq_ok.2 ⟨_, rfl, bind_eq_ok.2 ⟨_, hset, rfl⟩⟩, ?_, i, ?_, ?_, ?_, ?_⟩
    · exact hlen ▸ hle
    · exact hlen ▸ hin
    · rw [pointer]
      dsimp only
      rw [hget, hx, Option.map_some, if_pos ⟨Nat.le_refl i, by omega⟩]
      exact hq
    · intro k hk hlt
      rw [← hflags]
      exact Flagged.flag hfree hk hlt
    · intro k
      rw [← hflags, flag]
      dsimp only
      rw [hget]
      split_ifs with hk
      · obtain ⟨y, hy, -⟩ := hfree k hk.1 hk.2
        rw [hy]
        rfl
      · rw [Option.map_id']
        rfl

/-- The pool has grown, and the slots are still not found. -/
theorem alloc_error (hfind : findAvailable p.m_vecPMem 0 n = none) (hok : (p.expand inits).2 = true)
    (hnone : findAvailable (p.expand inits).1.m_vecPMem 0 n = none) : p.alloc n inits = .error .outOfRange := by
  rw [alloc, search, hfind]
  dsimp only
  rw [hok, if_pos rfl, hnone]
  rfl

theorem expand_ok (h : ∀ i < p.m_nMax * 2 % 65536, (inits[i]?).any InitResult.ok = true) : (p.expand inits).2 = true := by
  change (initNodes ((resize p.m_vecPMem (p.m_nMax * 2 % 65536)).drop (p.m_nMax * 2 % 65536 / 2)) inits).2 = true
  rw [initNodes_eq_true, List.length_drop, length_resize]
  exact fun i hi => h i (by omega)

/-- A pool that can be doubled serves a request it has no slots for when it gets them, or when `InitObj` fails. -/
theorem allOrNothing_doubled (hlen : p.m_vecPMem.length = p.m_nMax) (hn : 0 < n) (hfind : findAvailable p.m_vecPMem 0 n = none)
    (hmany : p.m_nMax < 32768) : (∃ p' r, p.alloc n inits = .ok (p', r) ∧ AllOrNothing p n p' r) ↔
      (∃ i < p.m_nMax, (inits[i]?).any InitResult.ok = false) ∨
        FreeRun (p.m_vecPMem ++ List.replicate p.m_nMax .new) n := by
  obtain ⟨b, hexpand, hok⟩ := expand_eq inits hmany
  have hgrown := findAvailable_grown p inits n
  rw [resize_double hlen] at hgrown
  have hle : p.m_vecPMem.length ≤ (p.grown inits).m_vecPMem.length := by
    rw [length_grown]
    omega
  cases b with
  | false =>
    refine iff_of_true ⟨p.grown inits, none, ?_, hle, flag_grown hlen inits⟩ (.inl ?_)
    · rw [alloc, search, hfind]
      dsimp only
      rw [hexpand]
      rfl
    · by_contra hall
      have hfail : ∀ i < p.m_nMax, (inits[i]?).any InitResult.ok = true := fun i hi =>
        Bool.of_not_eq_false fun h => hall ⟨i, hi, h⟩
      exact absurd (hok.2 hfail) Bool.false_ne_true
  | true =>
    have hsucc : ¬∃ i < p.m_nMax, (inits[i]?).any InitResult.ok = false := by
      intro ⟨i, hi, hfail⟩
      rw [hok.1 rfl i hi] at hfail
      cases hfail
    have hsearch : p.search n inits =
        (p.grown inits).readAt (findAvailable (p.grown inits).m_vecPMem 0 n) >>= fun r => .ok (p.grown inits, r) := by
      rw [search, hfind]
      dsimp only
      rw [hexpand, if_pos rfl]
    rw [or_iff_right hsucc, freeRun_iff hn, ← hgrown]
    cases hfound : findAvailable (p.grown inits).m_vecPMem 0 n with
    | none =>
      refine iff_of_false ?_ (not_not_intro rfl)
      intro ⟨p', r, halloc, _⟩
      rw [alloc, hsearch, hfound] at halloc
      cases halloc
    | some i =>
      refine iff_of_true ?_ (Option.some_ne_none i)
      exact allOrNothing_found hn hle (flag_grown hlen inits) hfound (hsearch.trans (by rw [hfound]))

/-- The doubled number does not fit: slots are lost, and none of those that are left is free. -/
theorem not_allOrNothing_wrapped (hlen : p.m_vecPMem.length = p.m_nMax) (hmax : p.m_nMax < 65536) (hn : 0 < n)
    (hrun : ¬FreeRun p.m_vecPMem n) (hmany : 32768 ≤ p.m_nMax) :
    ¬∃ p' r, p.alloc n inits = .ok (p', r) ∧ AllOrNothing p n p' r := by
  have hfind : findAvailable p.m_vecPMem 0 n = none := not_not.1 fun h => hrun ((freeRun_iff hn).2 h)
  obtain ⟨hless, hfree⟩ := expand_wraps n inits hlen hmax hmany
  have hnone : findAvailable (p.expand inits).1.m_vecPMem 0 n = none :=
    not_not.1 fun h => hrun (hfree ((freeRun_iff hn).2 h))
  intro ⟨p', r, halloc, hle, _⟩
  cases hb : (p.expand inits).2 with
  | false =>
    rw [alloc, search, hfind] at halloc
    dsimp only at halloc
    rw [hb] at halloc
    cases halloc
    exact absurd hle (Nat.not_le.2 hless)
  | true =>
    rw [alloc_error hfind hb hnone] at halloc
    cases halloc

/-- `Alloc(n)` takes `n` free slots or none, and touches no slot that is not there, exactly when the pool has such slots
or gets them when it is doubled once, or `InitObj` fails then. -/
theorem allOrNothing_iff (hlen : p.m_vecPMem.length = p.m_nMax) (hmax : p.m_nMax < 65536) (hn : 0 < n) :
    (∃ p' r, p.alloc n inits = .ok (p', r) ∧ AllOrNothing p n p' r) ↔ Serves p n inits := by
  by_cases hrun : FreeRun p.m_vecPMem n
  · refine iff_of_true ?_ (.inl hrun)
    obtain ⟨i, hfind⟩ := Option.ne_none_iff_exists'.1 ((freeRun_iff hn).1 hrun)
    exact allOrNothing_found hn (Nat.le_refl _) (fun _ => rfl) hfind (by rw [search, hfind])
  · rw [Serves, or_iff_right hrun]
    by_cases hmany : p.m_nMax < 32768
    · have hfind : findAvailable p.m_vecPMem 0 n = none := not_not.1 fun h => hrun ((freeRun_iff hn).2 h)
      rw [and_iff_right hmany, allOrNothing_doubled hlen hn hfind hmany]
    · exact iff_of_false (not_allOrNothing_wrapped hlen hmax hn hrun (Nat.le_of_not_lt hmany)) fun h => hmany h.1

/-- The second slot of three is in use: two free slots in a row come when the pool is doubled. -/
theorem allOrNothing_iff_three : ∃ p' r, (⟨3, [⟨0, some 11⟩, ⟨1, some 12⟩, ⟨0, some 13⟩]⟩ : ObjPool).alloc 2
    [⟨some (some 14), true⟩, ⟨some (some 15), true⟩, ⟨some (some 16), true⟩] = .ok (p', r) ∧
      AllOrNothing ⟨3, [⟨0, some 11⟩, ⟨1, some 12⟩, ⟨0, some 13⟩]⟩ 2 p' r :=
  (allOrNothing_iff rfl (by decide) (by decide)).2 (.inr ⟨by decide, .inr ((freeRun_iff (by decide)).2 (by decide))⟩)

/-- Three slots of a pool of one: two are there when it is doubled, and none is found. -/
theorem not_allOrNothing_three : ¬∀ (p : ObjPool) (n : Nat) (inits : List InitResult),
    p.m_vecPMem.length = p.m_nMax → p.m_nMax < 65536 → 0 < n →
      ∃ p' r, p.alloc n inits = .ok (p', r) ∧ AllOrNothing p n p' r := by
  intro h
  obtain ⟨p', r, halloc, -⟩ := h (((⟨0, []⟩ : ObjPool).init 1 [⟨some (some 11), true⟩]).1) 3 [⟨some (some 12), true⟩]
    rfl (by decide) (by decide)
  cases halloc

end ObjPool
