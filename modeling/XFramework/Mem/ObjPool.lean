/-
The object pool (Mem/ObjPool.h).

A slot is a flag and a pointer to its object. `InitObj` makes the object of a
slot and is the user's: what its calls will do is given as a list, and a call
beyond it fails. `Alloc` looks for a run of free slots and doubles the pool
when there is none (`search`, under the lock), then marks the slots.
-/
import XFramework.Lib.Fallible
import Mathlib.Data.List.Basic

open Fallible

/-- A call of `InitObj`: what it stores in `*ppObj`, if anything, and what it returns. -/
structure InitResult where
  stored : Option (Option Nat)
  ok : Bool
  deriving DecidableEq

/-- What C++ leaves undefined: a slot that is not there, an object that is gone. -/
inductive PoolFault
  | outOfRange
  | destroyed
  deriving DecidableEq

structure TNode where
  nFlag : Nat
  pData : Option Nat
  deriving DecidableEq

namespace TNode

def new : TNode := ⟨0, none⟩

/-- `InitObj(&pData, ..)`. -/
def initObj (x : TNode) (r : InitResult) : TNode :=
  match r.stored with
  | none => x
  | some q => { x with pData := q }

def setFlag (x : TNode) (flag : Nat) : TNode := { x with nFlag := flag }

@[simp] theorem nFlag_setFlag (x : TNode) (flag : Nat) : (x.setFlag flag).nFlag = flag := rfl

@[simp] theorem pData_setFlag (x : TNode) (flag : Nat) : (x.setFlag flag).pData = x.pData := rfl

end TNode

/-- `m_nMax` is an `unsigned short`. -/
structure ObjPool where
  m_nMax : Nat
  m_vecPMem : List TNode
  deriving DecidableEq

namespace ObjPool

/-- `nCount` and `itStart` once a slot is found at `i`. -/
def nextRun (i nCount itStart itBegin : Nat) : Nat × Nat :=
  if nCount = 0 then (1, i) else if i = itBegin then (nCount + 1, itStart) else (1, i)

/-- The loop of `FindAvailable` at place `i`: `itStart` is where the last run of `nCount` slots begins, `itBegin` where
the search goes on. -/
def scan (type n : Nat) : List TNode → Nat → Nat → Nat → Nat → Option Nat
  | [], _, nCount, itStart, _ => if nCount = n then some itStart else none
  | x :: xs, i, nCount, itStart, itBegin =>
    if x.nFlag = type then
      let next := nextRun i nCount itStart itBegin
      if next.1 = n then some next.2 else scan type n xs (i + 1) next.1 next.2 (i + 1)
    else scan type n xs (i + 1) nCount itStart itBegin

/-- `FindAvailable`; `none` is -1. -/
def findAvailable (m_vecPMem : List TNode) (type n : Nat) : Option Nat := scan type n m_vecPMem 0 0 m_vecPMem.length 0

/-- `m_vecPMem.resize`. -/
def resize (nodes : List TNode) (n : Nat) : List TNode := nodes.take n ++ List.replicate (n - nodes.length) .new

/-- `InitObj` for one slot after the other, up to one that fails. -/
def initNodes : List TNode → List InitResult → List TNode × Bool
  | [], _ => ([], true)
  | x :: xs, [] => (x :: xs, false)
  | x :: xs, r :: rs =>
    if r.ok then
      let rest := initNodes xs rs
      (x.initObj r :: rest.1, rest.2)
    else (x.initObj r :: xs, false)

/-- `UpdateRecord`. Its callers have made `m_vecPMem` as long as `m_nMax`. -/
def updateRecord (p : ObjPool) (bInit : Bool) (inits : List InitResult) : ObjPool × Bool :=
  let i := if bInit then 0 else p.m_nMax / 2
  let r := initNodes (p.m_vecPMem.drop i) inits
  (⟨p.m_nMax, p.m_vecPMem.take i ++ r.1⟩, r.2)

def init (p : ObjPool) (size : Int) (inits : List InitResult) : ObjPool × Bool :=
  let m_nMax := (size % 65536).toNat
  updateRecord ⟨m_nMax, resize p.m_vecPMem m_nMax⟩ true inits

def expand (p : ObjPool) (inits : List InitResult) : ObjPool × Bool :=
  let m_nMax := p.m_nMax * 2 % 65536
  updateRecord ⟨m_nMax, resize p.m_vecPMem m_nMax⟩ false inits

/-- `pRet = m_vecPMem[nIndex].pData`, beside `nIndex`. -/
def readAt (p : ObjPool) (nIndex : Option Nat) : Except PoolFault (Nat × Option Nat) :=
  match nIndex with
  | none => .error .outOfRange
  | some i =>
    match p.m_vecPMem[i]? with
    | none => .error .outOfRange
    | some x => .ok (i, x.pData)

/-- What `Alloc` does under the lock: the pool, `nIndex` and `pRet`. -/
def search (p : ObjPool) (n : Nat) (inits : List InitResult) : Except PoolFault (ObjPool × Nat × Option Nat) :=
  match findAvailable p.m_vecPMem 0 n with
  | some i => do
    let r ← readAt p (some i)
    .ok (p, r)
  | none =>
    let e := expand p inits
    if e.2 then do
      let r ← readAt e.1 (findAvailable e.1.m_vecPMem 0 n)
      .ok (e.1, r)
    else .ok (e.1, 0, none)

/-- `m_vecPMem[i].nFlag = flag`. -/
def setFlag (p : ObjPool) (i flag : Nat) : Except PoolFault ObjPool :=
  if i < p.m_vecPMem.length then .ok { p with m_vecPMem := p.m_vecPMem.modify i (·.setFlag flag) }
  else .error .outOfRange

/-- The loops that set the flags of `n` slots. -/
def setFlags (p : ObjPool) (nIndex n flag : Nat) : Except PoolFault ObjPool :=
  (List.range n).foldlM (fun p i => setFlag p (nIndex + i) flag) p

/-- `Free`. -/
def free (p : ObjPool) (q : Option Nat) (n : Nat) : Except PoolFault ObjPool :=
  match p.m_vecPMem.findIdx? fun x => x.pData = q with
  | none => .ok p
  | some nIndex => p.setFlags nIndex n 0

/-- `RetryInitObj`. -/
def retryInitObj (p : ObjPool) (inits : List InitResult) : ObjPool × Bool :=
  let r := initNodes p.m_vecPMem inits
  (⟨p.m_nMax, r.1⟩, r.2)

/-! ## FindAvailable -/

variable {type n i nCount itStart itBegin s : Nat} {xs pre : List TNode}

/-- The slots from `a` on to `b` have the flag. -/
def Flagged (xs : List TNode) (flag a b : Nat) : Prop := ∀ j, a ≤ j → j < b → ∃ x, xs[j]? = some x ∧ x.nFlag = flag

theorem Flagged.append {flag a b : Nat} (h : Flagged pre flag a b) : Flagged (pre ++ xs) flag a b := by
  intro j ha hb
  obtain ⟨x, hx, hflag⟩ := h j ha hb
  exact ⟨x, by rw [List.getElem?_append_left (List.getElem?_eq_some_iff.1 hx).1, hx], hflag⟩

theorem Flagged.concat {x : TNode} {a : Nat} (h : Flagged pre x.nFlag a pre.length) :
    Flagged (pre ++ [x]) x.nFlag a (pre.length + 1) := by
  intro j ha hb
  rcases Nat.lt_succ_iff_lt_or_eq.1 hb with hj | rfl
  · exact h.append j ha hj
  · exact ⟨x, List.getElem?_concat_length, rfl⟩

/-- The run that the scan has at hand. -/
structure Run (type n : Nat) (pre : List TNode) (nCount itStart itBegin : Nat) : Prop where
  short : nCount < n
  ends : 0 < nCount → itStart + nCount = itBegin
  before : 0 < nCount → itBegin ≤ pre.length
  flagged : 0 < nCount → Flagged pre type itStart itBegin

theorem Run.next {x : TNode} (h : Run x.nFlag n pre nCount itStart itBegin) :
    0 < (nextRun pre.length nCount itStart itBegin).1 ∧ (nextRun pre.length nCount itStart itBegin).1 ≤ n ∧
      (nextRun pre.length nCount itStart itBegin).2 + (nextRun pre.length nCount itStart itBegin).1 = pre.length + 1 ∧
      Flagged (pre ++ [x]) x.nFlag (nextRun pre.length nCount itStart itBegin).2 (pre.length + 1) := by
  have hone : Flagged (pre ++ [x]) x.nFlag pre.length (pre.length + 1) :=
    Flagged.concat fun j ha hb => absurd hb (Nat.not_lt.2 ha)
  have hshort := h.short
  rw [nextRun]
  split_ifs with hzero hbegin
  · exact ⟨Nat.zero_lt_one, by omega, rfl, hone⟩
  · have hpos := Nat.pos_of_ne_zero hzero
    have hends := h.ends hpos
    refine ⟨Nat.succ_pos _, hshort, ?_, ?_⟩
    · dsimp only
      omega
    · exact (hbegin ▸ h.flagged hpos : Flagged pre x.nFlag itStart pre.length).concat
  · exact ⟨Nat.zero_lt_one, by omega, rfl, hone⟩

/-- What the scan finds is a run of `n` slots. -/
theorem scan_spec (hrun : Run type n pre nCount itStart itBegin)
    (h : scan type n xs pre.length nCount itStart itBegin = some s) :
    s + n ≤ (pre ++ xs).length ∧ Flagged (pre ++ xs) type s (s + n) := by
  induction xs generalizing pre nCount itStart itBegin with
  | nil =>
    rw [scan, if_neg (Nat.ne_of_lt hrun.short)] at h
    cases h
  | cons x xs ih =>
    have hsplit : pre ++ x :: xs = (pre ++ [x]) ++ xs := by rw [List.append_assoc, List.singleton_append]
    have hlen : (pre ++ [x]).length = pre.length + 1 := by rw [List.length_append, List.length_singleton]
    rw [scan] at h
    rw [hsplit]
    by_cases hflag : x.nFlag = type
    · subst hflag
      obtain ⟨hpos, hle, hends, hflagged⟩ := hrun.next (x := x)
      rw [if_pos rfl] at h
      dsimp only at h
      by_cases hfull : (nextRun pre.length nCount itStart itBegin).1 = n
      · rw [if_pos hfull] at h
        cases h
        rw [hfull] at hends
        refine ⟨?_, ?_⟩
        · rw [List.length_append, hlen]
          omega
        · rw [hends]
          exact hflagged.append
      · rw [if_neg hfull, ← hlen] at h
        rw [← hlen] at hends hflagged
        exact ih ⟨by omega, fun _ => hends, fun _ => Nat.le_refl _, fun _ => hflagged⟩ h
    · rw [if_neg hflag, ← hlen] at h
      refine ih ⟨hrun.short, hrun.ends, fun hpos => ?_, fun hpos => (hrun.flagged hpos).append⟩ h
      rw [hlen]
      exact Nat.le_succ_of_le (hrun.before hpos)

/-- `FindAvailable` finds `n` free slots in a row. -/
theorem findAvailable_spec (hn : 0 < n) (h : findAvailable xs type n = some s) :
    s + n ≤ xs.length ∧ Flagged xs type s (s + n) := by
  have hrun : Run type n [] 0 xs.length 0 :=
    ⟨hn, fun h => absurd h (Nat.lt_irrefl 0), fun h => absurd h (Nat.lt_irrefl 0), fun h => absurd h (Nat.lt_irrefl 0)⟩
  exact scan_spec hrun h

theorem Flagged.le_length {flag a b : Nat} (h : Flagged xs flag a b) (hab : a < b) : b ≤ xs.length := by
  obtain ⟨x, hx, -⟩ := h (b - 1) (by omega) (by omega)
  have := (List.getElem?_eq_some_iff.1 hx).1
  omega

theorem Flagged.of_append {flag a b : Nat} (h : Flagged (pre ++ xs) flag a b) (hb : b ≤ pre.length) :
    Flagged pre flag a b := by
  intro j ha hj
  obtain ⟨x, hx, hflag⟩ := h j ha hj
  exact ⟨x, by rwa [List.getElem?_append_left (by omega)] at hx, hflag⟩

theorem Flagged.last {x : TNode} {flag a b : Nat} (h : Flagged (pre ++ [x]) flag a b) (ha : a ≤ pre.length)
    (hb : pre.length < b) : x.nFlag = flag := by
  obtain ⟨y, hy, hflag⟩ := h pre.length ha hb
  cases List.getElem?_concat_length.symm.trans hy
  exact hflag

/-- The scan has passed no run of `n` slots, and the slots that it has behind it end with the run at hand, if at all. -/
structure Passed (type n : Nat) (pre : List TNode) (nCount itStart itBegin : Nat) : Prop where
  run : Run type n pre nCount itStart itBegin
  none : ∀ s, ¬Flagged pre type s (s + n)
  last : ∀ s < pre.length, Flagged pre type s pre.length → 0 < nCount ∧ itBegin = pre.length ∧ itStart ≤ s

/-- A slot that has the flag is passed, when the run is not full with it. -/
theorem Passed.next {x : TNode} (h : Passed x.nFlag n pre nCount itStart itBegin)
    (hfull : (nextRun pre.length nCount itStart itBegin).1 ≠ n) :
    Passed x.nFlag n (pre ++ [x]) (nextRun pre.length nCount itStart itBegin).1
      (nextRun pre.length nCount itStart itBegin).2 (pre.length + 1) := by
  obtain ⟨hpos, hle, hends, hflagged⟩ := h.run.next (x := x)
  have hlen : (pre ++ [x]).length = pre.length + 1 := by rw [List.length_append, List.length_singleton]
  have hlast : ∀ s < pre.length + 1, Flagged (pre ++ [x]) x.nFlag s (pre.length + 1) →
      (nextRun pre.length nCount itStart itBegin).2 ≤ s := by
    intro s hs hflag
    rcases Nat.lt_succ_iff_lt_or_eq.1 hs with hs | rfl
    · have hpre : Flagged pre x.nFlag s pre.length :=
        Flagged.of_append (fun j ha hb => hflag j ha (by omega)) (Nat.le_refl _)
      obtain ⟨hcount, hbegin, hstart⟩ := h.last s hs hpre
      rw [nextRun, if_neg (Nat.ne_of_gt hcount), if_pos hbegin.symm]
      exact hstart
    · omega
  constructor
  case run =>
    rw [← hlen] at hends hflagged ⊢
    exact ⟨by omega, fun _ => hends, fun _ => Nat.le_refl _, fun _ => hflagged⟩
  case none =>
    intro s hs
    have hn := h.run.short
    have hin := hs.le_length (by omega)
    rw [hlen] at hin
    rcases Nat.lt_succ_iff_lt_or_eq.1 (Nat.lt_succ_of_le hin) with hin | hin
    · exact h.none s (hs.of_append (by omega))
    · have := hlast s (by omega) (hin ▸ hs)
      omega
  case last =>
    intro s hs hflag
    rw [hlen] at hs hflag ⊢
    exact ⟨hpos, rfl, hlast s hs hflag⟩

/-- A slot without the flag is passed. -/
theorem Passed.skip {x : TNode} (h : Passed type n pre nCount itStart itBegin) (hflag : x.nFlag ≠ type) :
    Passed type n (pre ++ [x]) nCount itStart itBegin where
  run := by
    refine ⟨h.run.short, h.run.ends, fun hpos => ?_, fun hpos => (h.run.flagged hpos).append⟩
    rw [List.length_append]
    exact Nat.le_add_right_of_le (h.run.before hpos)
  none s hs := by
    have hn := h.run.short
    have hin := hs.le_length (by omega)
    rw [List.length_append, List.length_singleton] at hin
    by_cases hle : s + n ≤ pre.length
    · exact h.none s (hs.of_append hle)
    · exact hflag (hs.last (by omega) (by omega))
  last s hs hrun := by
    rw [List.length_append, List.length_singleton] at hs hrun
    exact absurd (hrun.last (by omega) (by omega)) hflag

/-- Before the first slot. -/
theorem Passed.nil (hn : 0 < n) : Passed type n [] 0 itStart 0 := by
  refine ⟨⟨hn, ?_, ?_, ?_⟩, fun s hs => ?_, fun s hs => absurd hs (Nat.not_lt_zero s)⟩
  · exact fun h => absurd h (Nat.lt_irrefl 0)
  · exact fun h => absurd h (Nat.lt_irrefl 0)
  · exact fun h => absurd h (Nat.lt_irrefl 0)
  · have := hs.le_length (by omega)
    simp at this
    omega

theorem scan_none (hpassed : Passed type n pre nCount itStart itBegin)
    (h : scan type n xs pre.length nCount itStart itBegin = none) : ∀ s, ¬Flagged (pre ++ xs) type s (s + n) := by
  induction xs generalizing pre nCount itStart itBegin with
  | nil =>
    rw [List.append_nil]
    exact hpassed.none
  | cons x xs ih =>
    have hsplit : pre ++ x :: xs = (pre ++ [x]) ++ xs := by rw [List.append_assoc, List.singleton_append]
    have hlen : (pre ++ [x]).length = pre.length + 1 := by rw [List.length_append, List.length_singleton]
    rw [scan] at h
    rw [hsplit]
    by_cases hflag : x.nFlag = type
    · subst hflag
      rw [if_pos rfl] at h
      dsimp only at h
      split_ifs at h with hfull
      rw [← hlen] at h
      exact ih (hlen ▸ hpassed.next hfull) h
    · rw [if_neg hflag, ← hlen] at h
      exact ih (hpassed.skip hflag) h

/-- `FindAvailable` finds `n` slots in a row when there are. -/
theorem findAvailable_eq_none_iff (hn : 0 < n) : findAvailable xs type n = none ↔ ¬∃ s, Flagged xs type s (s + n) := by
  constructor
  case mp =>
    rintro h ⟨s, hs⟩
    exact scan_none (Passed.nil hn) h s hs
  case mpr =>
    intro h
    rw [Option.eq_none_iff_forall_ne_some]
    intro s hs
    exact h ⟨s, (findAvailable_spec hn hs).2⟩

/-- One free slot is found when there is one. -/
theorem findAvailable_one (h : findAvailable xs type 1 = none) : ∀ x ∈ xs, x.nFlag ≠ type := by
  have hscan : ∀ (xs : List TNode) (i itStart itBegin : Nat), scan type 1 xs i 0 itStart itBegin = none →
      ∀ x ∈ xs, x.nFlag ≠ type := by
    intro xs
    induction xs with
    | nil => exact fun _ _ _ _ x hx => absurd hx List.not_mem_nil
    | cons y ys ih =>
      intro i itStart itBegin h
      rw [scan] at h
      split_ifs at h with hflag
      · cases h
      · exact List.forall_mem_cons.2 ⟨hflag, ih _ _ _ h⟩
  exact hscan xs _ _ _ h

/-- The scan looks at the flags only. -/
theorem findAvailable_congr {ys : List TNode} (h : xs.map TNode.nFlag = ys.map TNode.nFlag) :
    findAvailable xs type n = findAvailable ys type n := by
  have hscan : ∀ (xs ys : List TNode), xs.map TNode.nFlag = ys.map TNode.nFlag → ∀ i nCount itStart itBegin,
      scan type n xs i nCount itStart itBegin = scan type n ys i nCount itStart itBegin := by
    intro xs
    induction xs with
    | nil =>
      intro ys h
      cases List.map_eq_nil_iff.1 h.symm
      exact fun _ _ _ _ => rfl
    | cons x xs ih =>
      intro ys h i nCount itStart itBegin
      cases ys with
      | nil => cases h
      | cons y ys =>
        obtain ⟨hflag, hrest⟩ := List.cons.inj h
        rw [scan, scan, hflag]
        simp only [ih ys hrest]
  have hlen : xs.length = ys.length := by rw [← List.length_map (f := TNode.nFlag), h, List.length_map]
  rw [findAvailable, findAvailable, hscan xs ys h, hlen]

/-! ## InitObj -/

variable {inits : List InitResult} {j k : Nat} {r : InitResult}

/-- The calls of `InitObj` that are made, the one that fails included. -/
def initCalls : List TNode → List InitResult → List InitResult
  | [], _ => []
  | _ :: _, [] => []
  | _ :: xs, r :: rs => if r.ok then r :: initCalls xs rs else [r]

theorem length_initNodes (xs : List TNode) (inits : List InitResult) : (initNodes xs inits).1.length = xs.length := by
  induction xs generalizing inits with
  | nil => rfl
  | cons x xs ih =>
    cases inits with
    | nil => rfl
    | cons r rs =>
      rw [initNodes]
      split_ifs
      · exact congrArg (· + 1) (ih rs)
      · rfl

/-- The calls are the first ones to come. -/
theorem getElem?_initCalls (h : (initCalls xs inits)[j]? = some r) : inits[j]? = some r := by
  induction xs generalizing inits j with
  | nil => cases h
  | cons x xs ih =>
    cases inits with
    | nil => cases h
    | cons r₀ rs =>
      rw [initCalls] at h
      cases j with
      | zero =>
        split_ifs at h
        · exact h
        · exact h
      | succ j =>
        split_ifs at h
        · rw [List.getElem?_cons_succ] at h ⊢
          exact ih h
        · cases h

/-- A slot has what its call stored. -/
theorem getElem?_initNodes (xs : List TNode) (inits : List InitResult) (j : Nat) : (initNodes xs inits).1[j]? =
    match (initCalls xs inits)[j]? with
    | some r => xs[j]?.map fun x => x.initObj r
    | none => xs[j]? := by
  induction xs generalizing inits j with
  | nil => rfl
  | cons x xs ih =>
    cases inits with
    | nil => rfl
    | cons r rs =>
      rw [initNodes, initCalls]
      split_ifs with hok
      · cases j with
        | zero => rfl
        | succ j => exact ih rs j
      · cases j with
        | zero => rfl
        | succ j => rfl

/-- The slots once `InitObj` was called for those from `k` on. -/
theorem getElem?_initFrom (xs : List TNode) (k : Nat) (inits : List InitResult) (i : Nat) :
    (xs.take k ++ (initNodes (xs.drop k) inits).1)[i]? = if i < k then xs[i]?
      else match (initCalls (xs.drop k) inits)[i - k]? with
        | some r => xs[i]?.map fun x => x.initObj r
        | none => xs[i]? := by
  by_cases hi : i < k
  · rw [if_pos hi]
    by_cases hlen : i < xs.length
    · rw [List.getElem?_append_left (by rw [List.length_take]; omega), List.getElem?_take_of_lt hi]
    · have hnone : xs[i]? = none := List.getElem?_eq_none (Nat.le_of_not_lt hlen)
      rw [hnone]
      refine List.getElem?_eq_none ?_
      rw [List.length_append, length_initNodes, List.length_take, List.length_drop]
      omega
  · rw [if_neg hi]
    by_cases hlen : k ≤ xs.length
    · have hadd : k + (i - k) = i := by omega
      rw [List.getElem?_append_right (by rw [List.length_take]; omega), List.length_take, Nat.min_eq_left hlen,
        getElem?_initNodes, List.getElem?_drop, hadd]
    · have hnil : xs.drop k = [] := List.drop_eq_nil_of_le (by omega)
      have hnone : xs[i]? = none := List.getElem?_eq_none (by omega)
      rw [hnil, hnone]
      refine List.getElem?_eq_none ?_
      rw [List.length_append, List.length_take]
      change _ + 0 ≤ _
      omega

/-- All calls succeed, or `false` comes back. -/
theorem initNodes_true (h : (initNodes xs inits).2 = true) (hj : j < xs.length) :
    ∃ r, (initCalls xs inits)[j]? = some r ∧ r.ok = true := by
  induction xs generalizing inits j with
  | nil => exact absurd hj (Nat.not_lt_zero j)
  | cons x xs ih =>
    cases inits with
    | nil => cases h
    | cons r rs =>
      rw [initNodes] at h
      rw [initCalls]
      split_ifs at h ⊢ with hok
      cases j with
      | zero => exact ⟨r, rfl, hok⟩
      | succ j => exact ih h (Nat.lt_of_succ_lt_succ hj)

/-- All calls of `InitObj` succeed. -/
theorem initNodes_of_ok (h : ∀ i < xs.length, (inits[i]?).any InitResult.ok = true) :
    (initNodes xs inits).2 = true := by
  induction xs generalizing inits with
  | nil => rfl
  | cons x xs ih =>
    cases inits with
    | nil => exact absurd (h 0 (Nat.succ_pos _)) Bool.false_ne_true
    | cons r rs =>
      have hok : r.ok = true := h 0 (Nat.succ_pos _)
      rw [initNodes, if_pos hok]
      exact ih fun i hi => h (i + 1) (Nat.succ_lt_succ hi)

theorem initNodes_eq_true : (initNodes xs inits).2 = true ↔ ∀ i < xs.length, (inits[i]?).any InitResult.ok = true := by
  refine ⟨fun h i hi => ?_, initNodes_of_ok⟩
  obtain ⟨r, hcall, hr⟩ := initNodes_true h hi
  rw [getElem?_initCalls hcall]
  exact hr

theorem length_resize (xs : List TNode) (n : Nat) : (resize xs n).length = n := by
  rw [resize, List.length_append, List.length_take, List.length_replicate]
  omega

theorem getElem?_resize (xs : List TNode) (n j : Nat) :
    (resize xs n)[j]? = if j < n then some (xs[j]?.getD .new) else none := by
  rw [resize]
  by_cases hj : j < xs.length
  · by_cases hn : j < n
    · rw [if_pos hn, List.getElem?_append_left (by rw [List.length_take]; omega), List.getElem?_take_of_lt hn,
        List.getElem?_eq_getElem hj]
      rfl
    · rw [if_neg hn]
      refine List.getElem?_eq_none ?_
      rw [List.length_append, List.length_take, List.length_replicate]
      omega
  · rw [List.getElem?_append_right (by rw [List.length_take]; omega), List.getElem?_replicate, List.length_take,
      List.getElem?_eq_none (Nat.le_of_not_lt hj)]
    split_ifs <;> first | omega | rfl

/-! ## Flags -/

theorem setFlags_one (p : ObjPool) (i flag : Nat) : p.setFlags i 1 flag = p.setFlag i flag := by
  rw [setFlags, List.range_one, List.foldlM_cons, Nat.add_zero]
  exact bind_pure _

theorem getElem?_setFlag (xs : List TNode) (i flag j : Nat) : (xs.modify i (·.setFlag flag))[j]? =
    xs[j]?.map fun x => if i = j then x.setFlag flag else x := by
  rw [List.getElem?_modify]
  by_cases hij : i = j
  · simp only [if_pos hij]
    rfl
  · simp only [if_neg hij]
    rfl

theorem setFlags_spec (p : ObjPool) {nIndex : Nat} (flag : Nat) (hin : nIndex + n ≤ p.m_vecPMem.length) :
    ∃ nodes, p.setFlags nIndex n flag = .ok { p with m_vecPMem := nodes } ∧
      ∀ k, nodes[k]? = p.m_vecPMem[k]?.map fun x => if nIndex ≤ k ∧ k < nIndex + n then x.setFlag flag else x := by
  induction n with
  | zero =>
    refine ⟨p.m_vecPMem, rfl, fun k => ?_⟩
    have hno : ¬(nIndex ≤ k ∧ k < nIndex + 0) := by omega
    simp only [if_neg hno, Option.map_id']
  | succ n ih =>
    obtain ⟨nodes, hrun, hget⟩ := ih (by omega)
    have hlen : nIndex + n < nodes.length := by
      have hsome : nodes[nIndex + n]?.isSome = true := by
        rw [hget, Option.isSome_map, List.getElem?_eq_getElem (by omega)]
        rfl
      exact List.getElem?_eq_some_iff.1 (Option.some_get hsome).symm |>.1
    refine ⟨nodes.modify (nIndex + n) (·.setFlag flag), ?_, fun k => ?_⟩
    · rw [setFlags, List.range_succ]
      refine foldlM_append_ok.2 ⟨_, hrun, foldlM_cons_ok.2 ⟨_, ?_, rfl⟩⟩
      rw [setFlag, if_pos hlen]
    · rw [getElem?_setFlag, hget, Option.map_map]
      refine congrArg (Option.map · _) (funext fun x => ?_)
      simp only [Function.comp_apply]
      by_cases hk : nIndex + n = k
      · rw [if_pos hk, if_neg (by omega), if_pos (by omega)]
      · rw [if_neg hk]
        by_cases hin : nIndex ≤ k ∧ k < nIndex + n
        · rw [if_pos hin, if_pos (by omega)]
        · rw [if_neg hin, if_neg (by omega)]

end ObjPool
