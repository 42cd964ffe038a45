/-
`MemMgr` (Mem/MemMgr.h, Mem/MemMgr.cpp): runs of cells of one size out of pages.

    [EleNode 32][flags x][NUL]  ...  [cells x * nUnit]

The flags are a string, '1' for a cell in use, in which a run of '0' is looked
for. The bytes of the memory are here but those of the `EleNode`s, which are
kept as a list in the order of `pNext`; nothing but `Expend` writes to where
they are (`Inv.header`). Integers are LP64.
-/
import XFramework.Lib.CString
import XFramework.Lib.Span
import XFramework.Lib.Fallible

open Bytes Fallible

namespace MemMgr

def SYSMEMPAGE : Nat := 4096

def sizeofEleNode : Nat := 32

structure EleNode where
  nCount : Nat
  nIndex : Nat
  pFlag : Int
  pStart : Int
  deriving DecidableEq

/-- Where the node is. -/
def EleNode.page (e : EleNode) : Int := e.pFlag - sizeofEleNode

/-- `throw "the MemMgr lib error"`, a string without an end, a `memset` at `NULL`, and a call that is not made. -/
inductive MgrFault
  | thrown
  | unterminated
  | null
  | notCalled
  deriving DecidableEq

end MemMgr

structure MemMgr where
  nUnit : Nat
  pEleHead : List MemMgr.EleNode
  mem : Mem

namespace MemMgr

/-- '0', a cell that is free. -/
def zero : UInt8 := 48

/-- '1', a cell in use. -/
def one : UInt8 := 49

/-! ## `Expend` -/

/-- `x` of `Expend`. -/
def cells (nUnit len : Nat) : Nat := (len - sizeofEleNode - 1) / (nUnit + 1)

/-- The node that `Expend` leaves at `p`, `nIndex` from the `memset`. -/
def eleNode (nUnit : Nat) (p : Int) (len : Nat) : EleNode where
  nCount := cells nUnit len
  nIndex := 0
  pFlag := p + sizeofEleNode
  pStart := p + (len - cells nUnit len * nUnit : Nat)

def Expend (t : MemMgr) (p : Int) (len : Nat) : MemMgr :=
  let e := eleNode t.nUnit p len
  { t with
    mem := memset (memset t.mem p 0 len) e.pFlag zero e.nCount
    pEleHead := t.pEleHead ++ [e] }

/-- `Init` of a new `MemMgr`, where `page` is the answer of `AllocImpl`. -/
def Init (mem : Mem) (blockSize : Nat) (page : Option Int) : Except MgrFault MemMgr :=
  match page with
  | none => .error .null
  | some p => .ok (Expend ⟨blockSize, [], mem⟩ p SYSMEMPAGE)

/-! ## `FindAvailable` -/

/-- The `while` of `FindAvailable`. -/
def findLoop (limit : Nat) (m : Mem) (p : Int) (n : Nat) :
    Nat → Int → Int → Int → Nat → Bool → Except MgrFault (Option Nat)
  | 0, _, _, _, _, _ => .error .unterminated
  | fuel + 1, pStart, pBegin, pTmp, count, bFlag => do
    match ← strchr MgrFault.unterminated m zero limit (pStart + 1) with
    | none => .ok none
    | some pTag =>
      if pTag - 1 = pTmp then
        let pBegin := if bFlag then pBegin else pStart
        if n = count + 1 then .ok (some (pBegin - p).toNat)
        else findLoop limit m p n fuel (pStart + 1) pBegin pTag (count + 1) true
      else findLoop limit m p n fuel pTag pBegin pTag 1 false

/-- `FindAvailable` in a string of less than `limit` flags. `none` is -1. -/
def FindAvailableIn (limit : Nat) (m : Mem) (p : Int) (n : Nat) : Except MgrFault (Option Nat) := do
  match ← strchr MgrFault.unterminated m zero limit p with
  | none => .ok none
  | some pStart =>
    if n = 1 then .ok (some (pStart - p).toNat)
    else findLoop limit m p n limit pStart pStart pStart 1 false

/-- The flags of a node are in its page. -/
def FindAvailable : Mem → Int → Nat → Except MgrFault (Option Nat) := FindAvailableIn SYSMEMPAGE

/-! ## `Alloc` -/

/-- The loop over the nodes: the first one that has a run, its place in the list, and the run. -/
def findNode (m : Mem) (n : Nat) : List (EleNode × Nat) → Except MgrFault (Option (EleNode × Nat × Nat))
  | [] => .ok none
  | (pBegin, k) :: rest => do
    match ← FindAvailable m pBegin.pFlag n with
    | some nIndex => .ok (some (pBegin, k, nIndex))
    | none => findNode m n rest

/-- The `while (n--)` of `Alloc`. -/
def setFlags (nIndex : Nat) : Nat → Nat → Mem → EleNode → Mem × EleNode
  | _, 0, m, pBegin => (m, pBegin)
  | i, n + 1, m, pBegin =>
    setFlags nIndex (i + 1) n (write m (pBegin.pFlag + (nIndex + i : Nat)) [one])
      (if nIndex + n < pBegin.nIndex then { pBegin with nIndex := nIndex + n } else pBegin)

/-- The last part of `Alloc`, with the run found in the `k`-th node. -/
def take (t : MemMgr) (pBegin : EleNode) (k nIndex n : Nat) : MemMgr × Option Int :=
  let (m, pBegin) := setFlags nIndex 0 n t.mem pBegin
  ({ t with mem := m, pEleHead := t.pEleHead.set k pBegin }, some (pBegin.pStart + (nIndex * t.nUnit : Nat)))

/-- `page` is the answer of `AllocImpl`, when it is called; the address is `none` for `NULL`. -/
def Alloc (t : MemMgr) (n : Nat) (page : Option Int) : Except MgrFault (MemMgr × Option Int) := do
  match ← findNode t.mem n t.pEleHead.zipIdx with
  | some (pBegin, k, nIndex) => .ok (t.take pBegin k nIndex n)
  | none =>
    match page with
    | none => .ok (t, none)
    | some pNew =>
      let pNodeNew := eleNode t.nUnit pNew SYSMEMPAGE
      let k := t.pEleHead.length
      let t := t.Expend pNew SYSMEMPAGE
      match ← FindAvailable t.mem pNodeNew.pFlag n with
      | none => .ok (t, none)
      | some nIndex => .ok (t.take pNodeNew k nIndex n)

/-! ## `Free` -/

/-- The `while (n--)` of `Free`. -/
def clear (nUnit : Nat) (pBegin : EleNode) (nIndex : Nat) : Nat → Nat → Mem → Mem
  | _, 0, m => m
  | i, n + 1, m =>
    clear nUnit pBegin nIndex (i + 1) n (memset (write m (pBegin.pFlag + (nIndex + i : Nat)) [zero])
      (pBegin.pStart + ((nIndex + i) * nUnit : Nat)) 0 nUnit)

def Free (t : MemMgr) (p : Int) (n : Nat) : Except MgrFault MemMgr :=
  match t.pEleHead.zipIdx.find? fun (e, _) => e.pStart ≤ p ∧ p ≤ e.pStart + (e.nCount * t.nUnit : Nat) with
  | none => .error .thrown
  | some (pBegin, k) =>
    let nIndex := ((p - pBegin.pStart) / t.nUnit).toNat
    .ok { t with
      mem := clear t.nUnit pBegin nIndex 0 n t.mem
      pEleHead := t.pEleHead.set k
        (if nIndex < pBegin.nIndex then { pBegin with nIndex := nIndex } else pBegin) }

/-! ## Runs -/

/-- A `MemMgr` with its runs in use: an address, and of how many cells. -/
structure Use where
  mgr : MemMgr
  live : List (Int × Nat)

/-- The addresses of a run. -/
def span (nUnit : Nat) (r : Int × Nat) : Span := (r.1, (r.2 * nUnit : Nat))

/-- Calls, and the user's own writes. -/
inductive Action
  | alloc (n : Nat) (page : Option Int)
  | free (p : Int) (n : Nat)
  | write (a : Int) (b : UInt8)

/-- `AllocImpl` gives a page apart from the others. -/
def Fresh (t : MemMgr) (page : Option Int) : Prop :=
  ∀ p, page = some p → ∀ e ∈ t.pEleHead, Span.Apart (p, (SYSMEMPAGE : Nat)) (e.page, (SYSMEMPAGE : Nat))

instance (t : MemMgr) (page : Option Int) : Decidable (t.Fresh page) :=
  decForallSome (P := fun p => ∀ e ∈ t.pEleHead, Span.Apart (p, (SYSMEMPAGE : Nat)) (e.page, (SYSMEMPAGE : Nat))) page

def step (t : Use) : Action → Except MgrFault Use
  | .alloc n page =>
    if 0 < n ∧ t.mgr.Fresh page then do
      let (mgr, p) ← t.mgr.Alloc n page
      .ok ⟨mgr, (p.map (·, n)).toList ++ t.live⟩
    else .error .notCalled
  | .free p n =>
    if (p, n) ∈ t.live then do
      let mgr ← t.mgr.Free p n
      .ok ⟨mgr, t.live.erase (p, n)⟩
    else .error .notCalled
  | .write a b =>
    if ∃ r ∈ t.live, (span t.mgr.nUnit r).Has a then .ok { t with mgr.mem := Bytes.write t.mgr.mem a [b] }
    else .error .notCalled

end MemMgr
