/-
The pool allocator (Mem/MemPool.h, Mem/MemPool.cpp).

Memory from the system is cut into nodes. A node longer than a request is
split into two chips, which are nodes again; the parts that are free wait in
`m_poolset` by their length, the blocks handed out are found in `m_record` by
their address. `run` merges the chips of a node back when none is in use.

A `MemNode*` is an identity in a heap of nodes. `malloc` is not in the
source: each call is given the address it would return.
-/
import XFramework.Lib.Bytes
import XFramework.Lib.Heap
import XFramework.Lib.StdMap

open Bytes

abbrev DEFAULTBLOCK : Nat := 64

abbrev HALFPAGESIZE : Nat := DEFAULTBLOCK / 2

abbrev DEFAULTCOUNT : Nat := 3

inductive UseFor
  | UF_NONE
  | UF_USE
  | UF_ALLOC
  deriving DecidableEq

/-- A piece of memory; `mChips` are the identities of its pieces by their length. -/
structure MemNode where
  nLen : Nat
  eStatus : UseFor
  pStart : Int
  mChips : StdMap Nat Nat
  deriving DecidableEq

structure OriginalNode where
  len : Nat
  pOriStart : Int
  deriving DecidableEq

structure MemPool where
  mem : Mem
  nodes : Heap MemNode
  m_lock : Bool
  m_poolset : StdMap Nat (List Nat)
  m_pools : StdMap Nat (List Nat)
  m_record : StdMap Int Nat
  m_OriginalBuffer : List OriginalNode

/-- How a call can fail to return: what it throws, what C++ leaves undefined, a lock that is
never given back, and a loop that does not end. -/
inductive Fault
  | thrown (what : String)
  | undefined
  | blocked
  | outOfFuel
  deriving DecidableEq

namespace MemPool

/-- `blockType`. -/
def blockType : List Nat := [4, 8, 16, 32]

/-- `GetCorrectLessChipLen`: more than a block is rounded up to whole blocks. -/
def getCorrectLessChipLen (len : Nat) : Nat :=
  if len > DEFAULTBLOCK then
    if len - len / DEFAULTBLOCK * DEFAULTBLOCK ≠ 0 then (len / DEFAULTBLOCK + 1) * DEFAULTBLOCK else len
  else len

/-- `*pNode`. -/
def deref (s : MemPool) (pNode : Nat) : Except Fault MemNode :=
  match s.nodes.read pNode with
  | some n => .ok n
  | none => .error .undefined

def setNode (s : MemPool) (pNode : Nat) (n : MemNode) : MemPool := { s with nodes := s.nodes.write pNode n }

/-- `find(k)->second.push_back(v)`, or an `insert` of a vector that holds `v`. -/
def pushBack (m : StdMap Nat (List Nat)) (k v : Nat) : StdMap Nat (List Nat) :=
  match m.find? k with
  | some l => m.set k (l ++ [v])
  | none => m.insert k [v]

/-- The entries an iterator runs over that starts at the first key of at least `theLen`, or at
key 0 when there is none. -/
def entriesFrom (m : StdMap Nat (List Nat)) (theLen : Nat) : List (Nat × List Nat) :=
  let split := ((m.entries.find? fun e => theLen ≤ e.1).map (·.1)).getD 0
  m.entries.dropWhile fun e => e.1 ≠ split

/-- More than the depth of any tree of the nodes there are. -/
def depth (s : MemPool) : Nat := s.nodes.length + 1

/-! ## The trees -/

/-- `GetRemain`. -/
def getRemain (s : MemPool) : Nat → Nat → Except Fault Nat
  | 0, _ => .error .outOfFuel
  | fuel + 1, pNode => do
    let n ← s.deref pNode
    match n.eStatus with
    | .UF_USE => .ok 0
    | .UF_NONE => .ok n.nLen
    | .UF_ALLOC => n.mChips.entries.foldlM (fun remain e => do
        let r ← getRemain s fuel e.2
        .ok (remain + r)) 0

/-- `mChips.insert(make_pair(len, chip))`, then `mChips.find(len)`: the new chip, or the one
that has the key. -/
def insertChip (s : MemPool) (pNode : Nat) (n : MemNode) (len : Nat) (chip : MemNode) : MemPool × MemNode × Nat :=
  match n.mChips.find? len with
  | some id => (s, n, id)
  | none =>
    let n := { n with mChips := n.mChips.insert len s.nodes.length }
    (setNode { s with nodes := s.nodes.new chip } pNode n, n, s.nodes.length)

/-- `GetAddress`: takes the front of a node, or all of it. -/
def getAddress (s : MemPool) (pNode len : Nat) : Except Fault (MemPool × Option Int) := do
  let n ← s.deref pNode
  if n.nLen > len then
    let n := { n with eStatus := .UF_ALLOC }
    let (s, n, front) := insertChip (setNode s pNode n) pNode n len ⟨len, .UF_USE, n.pStart, .empty⟩
    let s := { s with m_record := s.m_record.insert n.pStart front }
    let nextLen := n.nLen - len
    let (s, n, next) := insertChip s pNode n nextLen ⟨nextLen, .UF_NONE, n.pStart + len, .empty⟩
    .ok ({ s with m_poolset := pushBack s.m_poolset nextLen next }, some n.pStart)
  else if n.nLen = len then
    let s := setNode s pNode { n with eStatus := .UF_USE }
    .ok ({ s with m_record := s.m_record.insert n.pStart pNode }, some n.pStart)
  else .ok (s, none)

/-- `GetAvailableAddress`: the loop over the chips returns in its first turn. -/
def getAvailableAddress : Nat → MemPool → Nat → Nat → Except Fault (MemPool × Option Int)
  | 0, _, _, _ => .error .outOfFuel
  | fuel + 1, s, pNode, len => do
    let n ← s.deref pNode
    match n.eStatus with
    | .UF_USE => .ok (s, none)
    | .UF_NONE => getAddress s pNode len
    | .UF_ALLOC =>
      match n.mChips.entries with
      | [] => .ok (s, none)
      | (_, chip) :: _ => getAvailableAddress fuel s chip len

/-- The chip leaves the free list: `destItr->second.erase(find(..., &itr->second))`. -/
def unlist (s : MemPool) (chip : Nat) : Except Fault MemPool := do
  let n ← s.deref chip
  match s.m_poolset.find? n.nLen with
  | none => .error .undefined
  | some l => if chip ∈ l then .ok { s with m_poolset := s.m_poolset.set n.nLen (l.erase chip) } else .error .undefined

/-- `MergeFree`. -/
def mergeFree : Nat → MemPool → Nat → Except Fault (MemPool × Bool)
  | 0, _, _ => .error .outOfFuel
  | fuel + 1, s, pNode => do
    let n ← s.deref pNode
    match n.eStatus with
    | .UF_USE => .ok (s, false)
    | .UF_NONE => .ok (s, true)
    | .UF_ALLOC =>
      let (s, nCount) ← n.mChips.entries.foldlM (fun (s, nCount) e => do
        let (s, free) ← mergeFree fuel s e.2
        .ok (s, if free then nCount + 1 else nCount)) (s, 0)
      if nCount = n.mChips.size then
        let s ← n.mChips.entries.foldlM (fun s e => unlist s e.2) (setNode s pNode { n with eStatus := .UF_NONE })
        let s := { s with nodes := n.mChips.entries.foldl (fun h e => h.free e.2) s.nodes }
        .ok (setNode s pNode { n with eStatus := .UF_NONE, mChips := .empty }, true)
      else .ok (s, false)

/-! ## Memory from the system -/

/-- A node is appended to the vector of its length in `m_pools`. -/
def pushNode (s : MemPool) (n : MemNode) : MemPool :=
  { s with nodes := s.nodes.new n, m_pools := pushBack s.m_pools n.nLen s.nodes.length }

/-- `GetCapacityByType`. -/
def getCapacityByType (s : MemPool) (t : Nat) : Except Fault Nat :=
  ((s.m_pools.find? t).getD []).foldlM (fun nCount id => do
    let n ← s.deref id
    .ok (nCount + n.nLen)) 0

/-- `GetRemainByType`. -/
def getRemainByType (s : MemPool) (t : Nat) : Except Fault Nat :=
  ((s.m_pools.find? t).getD []).foldlM (fun nCount id => do
    let r ← s.getRemain s.depth id
    .ok (nCount + r)) 0

/-- How much of a buffer goes to the `i`-th type at a time. -/
def useSize (i : Nat) : Nat := if i ≤ 1 then HALFPAGESIZE else DEFAULTBLOCK

/-- What `UpdatePools` counts in one pass over the types. `nOffset` is an `unsigned`. -/
structure Pass where
  pool : MemPool
  nFull : Nat
  nOffset : Nat

/-- One type in a pass. -/
def layType (pStart : Int) (len : Nat) (bInit : Bool) (p : Pass) (i : Nat) : Except Fault Pass := do
  let t := blockType.getD i 0
  let nTotal ← p.pool.getCapacityByType t
  let nRemain ← p.pool.getRemainByType t
  if bInit = false ∧ nRemain > nTotal / 10 * 3 then .ok { p with nFull := p.nFull + 1 }
  else if p.nOffset ≤ len then
    let nodes := (List.range (useSize i / t)).map fun j : Nat =>
      (⟨t, .UF_NONE, pStart + p.nOffset + (j * t : Nat), .empty⟩ : MemNode)
    .ok { p with pool := nodes.foldl pushNode p.pool, nOffset := (p.nOffset + useSize i) % 2 ^ 32 }
  else .ok p

/-- The passes of `UpdatePools`. The number of types is compared with the size of a `size_t`. -/
def layPasses (pStart : Int) (len : Nat) : Nat → Bool → MemPool → Nat → Except Fault (MemPool × Nat)
  | 0, _, _, _ => .error .outOfFuel
  | fuel + 1, bInit, s, nOffset => do
    let p ← (List.range blockType.length).foldlM (layType pStart len bInit) ⟨s, 0, nOffset⟩
    if p.nOffset ≤ len then layPasses pStart len fuel (bInit || p.nFull == 8) p.pool p.nOffset
    else .ok (p.pool, p.nOffset)

/-- The end of `UpdatePools`: a node for what the last unit has passed. The last `useSize` is that of the last type. -/
def layRest (s : MemPool) (pStart : Int) (len nOffset : Nat) : MemPool :=
  if nOffset > len ∧ DEFAULTBLOCK ≤ nOffset ∧ nOffset - DEFAULTBLOCK < len then
    let nOffset := nOffset - DEFAULTBLOCK
    pushNode s ⟨len - nOffset, .UF_NONE, pStart + nOffset, .empty⟩
  else s

/-- `UpdatePools`. A pass that lays nothing is repeated for ever, and every other one takes at
least `HALFPAGESIZE` bytes: while `nOffset` does not wrap the fuel is enough when the loop ends. -/
def updatePools (s : MemPool) (pStart : Int) (len : Nat) (bInit : Bool) : Except Fault MemPool := do
  let (s, nOffset) ← layPasses pStart len (len + 2) bInit s 0
  .ok (layRest s pStart len nOffset)

/-- A buffer of `len` bytes, cleared; `malloc` has returned `sys`. -/
def addBuffer (s : MemPool) (len : Nat) (sys : Int) : MemPool :=
  { s with mem := write s.mem sys (List.replicate len 0), m_OriginalBuffer := s.m_OriginalBuffer ++ [⟨len, sys⟩] }

/-- `Init` of a new pool. -/
def init (m : Mem) (sys : Int) : Except Fault MemPool :=
  updatePools (addBuffer ⟨m, [], false, .empty, .empty, .empty, []⟩ (DEFAULTBLOCK * DEFAULTCOUNT) sys) sys
    (DEFAULTBLOCK * DEFAULTCOUNT) true

/-- `expand`. -/
def expand (s : MemPool) (sys : Int) : Except Fault MemPool :=
  updatePools (s.addBuffer (DEFAULTBLOCK * DEFAULTCOUNT) sys) sys (DEFAULTBLOCK * DEFAULTCOUNT) false

/-! ## Alloc, Free, Realloc and the sweep -/

def lock (s : MemPool) : Except Fault MemPool := if s.m_lock then .error .blocked else .ok { s with m_lock := true }

def unlock (s : MemPool) : MemPool := { s with m_lock := false }

/-- Tries the nodes of a vector in their order; with an address, the index of the node. -/
def tryNodes (theLen : Nat) : MemPool → List Nat → Nat → Except Fault (MemPool × Option (Int × Nat))
  | s, [], _ => .ok (s, none)
  | s, id :: ids, i => do
    match ← getAvailableAddress s.depth s id theLen with
    | (s, some p) => .ok (s, some (p, i))
    | (s, none) => tryNodes theLen s ids (i + 1)

/-- The search of the free list. The node that is taken leaves it. -/
def trySet (theLen : Nat) : MemPool → List (Nat × List Nat) → Except Fault (MemPool × Option Int)
  | s, [] => .ok (s, none)
  | s, (key, ids) :: rest => do
    match ← tryNodes theLen s ids 0 with
    | (s, some (p, i)) =>
      .ok ({ s with m_poolset := s.m_poolset.set key (((s.m_poolset.find? key).getD []).eraseIdx i) }, some p)
    | (s, none) => trySet theLen s rest

/-- The search of the nodes of the buffers. -/
def tryPools (theLen : Nat) : MemPool → List (Nat × List Nat) → Except Fault (MemPool × Option Int)
  | s, [] => .ok (s, none)
  | s, (_, ids) :: rest => do
    match ← tryNodes theLen s ids 0 with
    | (s, some (p, _)) => .ok (s, some p)
    | (s, none) => tryPools theLen s rest

/-- A long request of a length that no node of a buffer has gets a buffer of its own. -/
def addLong (s : MemPool) (theLen : Nat) (sys : Int) : MemPool :=
  if theLen > 32 ∧ s.m_pools.find? theLen = none then
    pushNode (s.addBuffer theLen sys) ⟨theLen, .UF_NONE, sys, .empty⟩
  else s

/-- The end of `AllocImpl`, when nothing was found. -/
def expandAndTake (s : MemPool) (theLen : Nat) (sys : Int) : Except Fault (MemPool × Option Int) := do
  let s ← s.expand sys
  match s.m_pools.find? theLen with
  | none => .error .undefined
  | some ids =>
    let found ← ids.foldlM (fun (found : Option Nat) id => do
      match found with
      | some id => .ok (some id)
      | none => do
        let r ← s.getRemain s.depth id
        .ok (if r < theLen then none else some id)) none
    match found with
    | none => .ok (s, none)
    | some id => getAddress s id theLen

/-- `m_poolset.find(theLen)->second.back()` is handed out. -/
def takeBack (s : MemPool) (theLen : Nat) (ids : List Nat) : Except Fault (MemPool × Option Int) :=
  match ids.getLast? with
  | none => .error .undefined
  | some id => do
    let n ← s.deref id
    let s := setNode s id { n with eStatus := .UF_USE }
    .ok ({ s with m_record := s.m_record.insert n.pStart id, m_poolset := s.m_poolset.set theLen ids.dropLast },
      some n.pStart)

/-- `AllocImpl` under the lock. A rounded length is an `int`. -/
def take (s : MemPool) (len : Nat) (sys : Int) : Except Fault (MemPool × Option Int) := do
  let theLen := getCorrectLessChipLen len
  if theLen ≥ 2 ^ 31 then .error .undefined
  else match s.m_poolset.find? theLen with
  | some ids => takeBack s theLen ids
  | none => do
    let (s, pDest) ← trySet theLen s (entriesFrom s.m_poolset theLen)
    let s := addLong s theLen sys
    match pDest with
    | some p => .ok (s, some p)
    | none => do
      let (s, pDest) ← tryPools theLen s (entriesFrom s.m_pools theLen)
      match pDest with
      | some p => .ok (s, some p)
      | none => expandAndTake s theLen sys

/-- `Alloc`. -/
def alloc (s : MemPool) (len : Nat) (sys : Int) : Except Fault (MemPool × Option Int) := do
  let s ← s.lock
  let (s, pDest) ← s.take len sys
  .ok (s.unlock, pDest)

/-- `FreeImpl` under the lock. -/
def give (s : MemPool) (p : Int) : Except Fault MemPool :=
  match s.m_record.find? p with
  | none => .error (.thrown "system error")
  | some id => do
    let n ← s.deref id
    let s := setNode s id { n with eStatus := .UF_NONE }
    .ok { s with m_poolset := pushBack s.m_poolset n.nLen id, m_record := s.m_record.erase p }

/-- `Free`. -/
def free (s : MemPool) (p : Int) : Except Fault MemPool := do
  let s ← s.lock
  let s ← s.give p
  .ok s.unlock

/-- `Realloc`. -/
def realloc (s : MemPool) (pMemSrc : Int) (newLen : Nat) (sys : Int) : Except Fault (MemPool × Option Int) := do
  let s ← s.lock
  match s.m_record.find? pMemSrc with
  | none => .error .undefined
  | some id => do
    let n ← s.deref id
    if n.nLen = newLen then .ok (s.unlock, some pMemSrc)
    else do
      let oriLen := n.nLen
      let (s, pDest) ← s.take newLen sys
      match pDest with
      | none => .ok (s.unlock, none)
      | some p => do
        let s := { s with mem := write s.mem p (read s.mem pMemSrc oriLen) }
        let n ← s.deref id
        let s ← (setNode s id { n with eStatus := .UF_NONE }).give pMemSrc
        .ok (s.unlock, some p)

/-- One turn of the loop of `run`. -/
def sweep (s : MemPool) : Except Fault MemPool := do
  let s ← s.lock
  let s ← (s.m_pools.entries.flatMap (·.2)).foldlM (fun s id => do
    let (s, _) ← mergeFree s.depth s id
    .ok s) s
  .ok s.unlock

end MemPool
