/-
The pool of database connections (DB/DBConnPool.cpp, Mem/ObjPool.h).

A slot keeps its connection when it is given back: `ReleaseConn` and a
`GetNewConnect` that fails run the destructor of the object and free the slot,
and only `InitObj` makes a new one. The next `Alloc` of the slot hands out an
object that is gone, and `ClearPool` and the destructor of the pool delete it
once more. In runs that keep away from such slots all objects that are handed
out are alive, and none is destroyed twice (`alive_run`).
-/
import XFramework.Mem.ObjPool

open Fallible

/-- What `getInstance` comes to: the engine is not known, there is no object, or a new one. -/
inductive Instance
  | noEngine
  | null
  | made (q : Nat)
  deriving DecidableEq

/-- The new object. -/
def Instance.pointer : Instance → Option Nat
  | .noEngine | .null => none
  | .made q => some q

/-- The pool, with the connections that are constructed. `stale` are the slots whose connection was destroyed and not
made anew since, `handed` the connections that were handed out and not destroyed since, and `gone` says that the pool
is destroyed. -/
structure DBConnPool where
  pool : ObjPool
  alive : List Nat
  stale : List Nat
  handed : List Nat
  gone : Bool

namespace DBConnPool

def begin : DBConnPool := ⟨⟨0, []⟩, [], [], [], false⟩

/-- `InitObj`. -/
def initObj : Instance → InitResult
  | .noEngine => ⟨none, false⟩
  | .null => ⟨some none, false⟩
  | .made q => ⟨some (some q), true⟩

/-- The objects that the calls have made. -/
def madeBy (calls : List InitResult) : List Nat := calls.filterMap fun r => r.stored.join

/-- What is known of the objects once `InitObj` was called for the slots from `k` on. -/
def built (s : DBConnPool) (pool : ObjPool) (k : Nat) (calls : List InitResult) : DBConnPool :=
  { s with
    pool := pool
    alive := madeBy calls ++ s.alive
    stale := s.stale.filter fun i => ¬(k ≤ i ∧ ((calls[i - k]?).bind InitResult.stored).isSome) }

/-- After `m_vecPMem.resize`. -/
def resized (s : DBConnPool) (n : Nat) : DBConnPool :=
  { s with pool := ⟨n, ObjPool.resize s.pool.m_vecPMem n⟩, stale := s.stale.filter (· < n) }

/-- `~DBConnect`. -/
def destroy (s : DBConnPool) (q : Nat) : Except PoolFault DBConnPool :=
  if q ∈ s.alive then .ok { s with
    alive := s.alive.filter (· ≠ q)
    handed := s.handed.filter (· ≠ q)
    stale := s.stale ++ (List.range s.pool.m_vecPMem.length).filter fun i =>
      (s.pool.m_vecPMem[i]?).bind TNode.pData = some q }
  else .error .destroyed

/-- `Destroy` for each slot: `delete`, which does nothing for `NULL`. -/
def destroyAll (s : DBConnPool) (nodes : List TNode) : Except PoolFault DBConnPool :=
  nodes.foldlM (fun s x => match x.pData with
    | none => .ok s
    | some q => s.destroy q) s

/-- `Init`, up to the start of the library of the engine. -/
def init (s : DBConnPool) (size : Int) (instances : List Instance) : DBConnPool :=
  let r := s.pool.init size (instances.map initObj)
  let s := s.resized r.1.m_nMax
  s.built r.1 0 (ObjPool.initCalls s.pool.m_vecPMem (instances.map initObj))

/-- The section of `Alloc`, with the slots that it has made. -/
def search (s : DBConnPool) (instances : List Instance) : Except PoolFault (DBConnPool × Nat × Option Nat) := do
  let r ← s.pool.search 1 (instances.map initObj)
  match ObjPool.findAvailable s.pool.m_vecPMem 0 1 with
  | some _ => .ok ({ s with pool := r.1 }, r.2)
  | none =>
    let s := s.resized r.1.m_nMax
    let k := r.1.m_nMax / 2
    .ok (s.built r.1 k (ObjPool.initCalls (s.pool.m_vecPMem.drop k) (instances.map initObj)), r.2)

/-- `Alloc()`. -/
def alloc (s : DBConnPool) (instances : List Instance) : Except PoolFault (DBConnPool × Option Nat) := do
  let r ← s.search instances
  match r.2.2 with
  | none => .ok (r.1, none)
  | some q =>
    let pool ← r.1.pool.setFlags r.2.1 1 1
    .ok ({ r.1 with pool := pool }, some q)

def free (s : DBConnPool) (q : Nat) : Except PoolFault DBConnPool := do
  let pool ← s.pool.free (some q) 1
  .ok { s with pool := pool }

/-- `GetNewConnect`: the three steps of the connection come out as given. -/
def getNewConnect (s : DBConnPool) (instances : List Instance) (init initConnecion connectDB : Bool) :
    Except PoolFault DBConnPool := do
  let r ← s.alloc instances
  match r.2 with
  | none => .ok r.1
  | some q =>
    -- `SetDBInfo` and the steps are calls of the object
    if q ∈ r.1.alive then
      if init && initConnecion && connectDB then .ok { r.1 with handed := q :: r.1.handed }
      else do
        let s ← r.1.destroy q
        s.free q
    else .error .destroyed

/-- `ReleaseConn`. -/
def releaseConn (s : DBConnPool) (pConn : Option Nat) : Except PoolFault DBConnPool :=
  match pConn with
  | none => .ok s
  | some q => do
    let s ← s.destroy q
    s.free q

/-- `ClearPool`. -/
def clearPool (s : DBConnPool) : Except PoolFault DBConnPool := do
  let t ← s.destroyAll s.pool.m_vecPMem
  .ok { t with pool := { t.pool with m_vecPMem := t.pool.m_vecPMem.map (·.setFlag 0) } }

/-- `RetryInitObj`. -/
def retryInitObj (s : DBConnPool) (instances : List Instance) : DBConnPool :=
  let r := s.pool.retryInitObj (instances.map initObj)
  s.built r.1 0 (ObjPool.initCalls s.pool.m_vecPMem (instances.map initObj))

/-- `~ObjPool`. -/
def destructor (s : DBConnPool) : Except PoolFault DBConnPool := do
  let t ← s.destroyAll s.pool.m_vecPMem
  .ok { t with pool := ⟨t.pool.m_nMax, []⟩, stale := [], gone := true }

inductive Action
  | init (size : Int) (instances : List Instance)
  | getNewConnect (instances : List Instance) (init initConnecion connectDB : Bool)
  | releaseConn (pConn : Option Nat)
  | clearPool
  | retryInitObj (instances : List Instance)
  | destructor

def step (s : DBConnPool) : Action → Except PoolFault DBConnPool
  | .init size instances => .ok (s.init size instances)
  | .getNewConnect instances init initConnecion connectDB => s.getNewConnect instances init initConnecion connectDB
  | .releaseConn pConn => s.releaseConn pConn
  | .clearPool => s.clearPool
  | .retryInitObj instances => .ok (s.retryInitObj instances)
  | .destructor => s.destructor

/-- New objects are none of those that there are. -/
def Fresh (s : DBConnPool) (instances : List Instance) : Prop :=
  ∀ i < instances.length, ∀ q, instances[i]? = some (.made q) →
    q ∉ s.alive ∧ ∀ j < instances.length, instances[j]? = some (.made q) → i = j

/-- The pool is still there, and `getInstance` makes new objects. -/
def Allowed (s : DBConnPool) (x : Action) : Prop :=
  s.gone = false ∧ match x with
    | .init _ instances | .getNewConnect instances _ _ _ | .retryInitObj instances => Fresh s instances
    | _ => True

/-- `m_nMax` after `expand`. -/
def grown (s : DBConnPool) : Nat := s.pool.m_nMax * 2 % 65536

/-- A free slot has a connection that is not destroyed. A pool that is full grows to a number of slots that it can
count, or `InitObj` fails for one of them. -/
def Usable (s : DBConnPool) (instances : List Instance) : Option Nat → Prop
  | some i => i ∉ s.stale
  | none => (0 < s.pool.m_nMax ∧ s.pool.m_nMax < 32768) ∨
    ∃ i < s.grown - s.grown / 2, (instances[i]?).bind Instance.pointer = none

/-- No slot is used whose connection was destroyed: it is not handed out, and not there when all are destroyed. A
connection is given back that was handed out and not destroyed since. -/
def Covered (s : DBConnPool) : Action → Prop
  | .getNewConnect instances _ _ _ => s.Usable instances (ObjPool.findAvailable s.pool.m_vecPMem 0 1)
  | .releaseConn pConn => ∀ q ∈ pConn, q ∈ s.handed
  | .clearPool => s.stale = []
  | .destructor => s.stale = []
  | _ => True

/-- The pointer of a slot. -/
def slot (s : DBConnPool) (i : Nat) : Option Nat := (s.pool.m_vecPMem[i]?).bind TNode.pData

/-- What holds of the pool as long as the steps are covered. -/
structure Inv (s : DBConnPool) : Prop where
  length : s.pool.m_vecPMem.length = s.pool.m_nMax
  alive : ∀ i q, i ∉ s.stale → s.slot i = some q → q ∈ s.alive
  distinct : ∀ i j q, i ∉ s.stale → j ∉ s.stale → s.slot i = some q → s.slot j = some q → i = j
  used : ∀ i x q, i ∉ s.stale → s.pool.m_vecPMem[i]? = some x → x.pData = some q → q ∈ s.handed → x.nFlag ≠ 0
  handed : ∀ q ∈ s.handed, q ∈ s.alive
  once : s.handed.Nodup

variable {s t : DBConnPool} {instances : List Instance} {i k q : Nat}

/-! ## New objects -/

theorem made_of_call {xs : List TNode} {r : InitResult} {j : Nat}
    (hcall : (ObjPool.initCalls xs (instances.map initObj))[j]? = some r) (hr : r.stored = some (some q)) :
    instances[j]? = some (.made q) := by
  have h := ObjPool.getElem?_initCalls hcall
  rw [List.getElem?_map, Option.map_eq_some_iff] at h
  obtain ⟨a, ha, rfl⟩ := h
  cases a with
  | noEngine => cases hr
  | null => cases hr
  | made q' =>
    cases hr
    exact ha

/-- The pool after `InitObj` for the slots from `k` on. -/
def initFrom (s : DBConnPool) (k : Nat) (instances : List Instance) : DBConnPool :=
  s.built ⟨s.pool.m_nMax, s.pool.m_vecPMem.take k ++
      (ObjPool.initNodes (s.pool.m_vecPMem.drop k) (instances.map initObj)).1⟩ k
    (ObjPool.initCalls (s.pool.m_vecPMem.drop k) (instances.map initObj))

theorem getElem?_initFrom (s : DBConnPool) (k : Nat) (instances : List Instance) (i : Nat) :
    (s.initFrom k instances).pool.m_vecPMem[i]? = if i < k then s.pool.m_vecPMem[i]?
      else match (ObjPool.initCalls (s.pool.m_vecPMem.drop k) (instances.map initObj))[i - k]? with
        | some r => (s.pool.m_vecPMem[i]?).map fun x => x.initObj r
        | none => s.pool.m_vecPMem[i]? :=
  ObjPool.getElem?_initFrom ..

/-- A slot is as it was, or has what `InitObj` stored. -/
theorem initFrom_cases (s : DBConnPool) (k : Nat) (instances : List Instance) (i : Nat) :
    ((s.initFrom k instances).pool.m_vecPMem[i]? = s.pool.m_vecPMem[i]? ∧
        (i ∉ (s.initFrom k instances).stale → i ∉ s.stale)) ∨
      ∃ q?, (s.initFrom k instances).pool.m_vecPMem[i]? = (s.pool.m_vecPMem[i]?).map (fun x => { x with pData := q? }) ∧
        k ≤ i ∧ ∀ q, q? = some q → instances[i - k]? = some (.made q) ∧ q ∈ (s.initFrom k instances).alive := by
  rw [getElem?_initFrom]
  have hstale : ∀ h : ¬(k ≤ i ∧ (((ObjPool.initCalls (s.pool.m_vecPMem.drop k) (instances.map initObj))[i - k]?).bind
      InitResult.stored).isSome), i ∉ (s.initFrom k instances).stale → i ∉ s.stale :=
    fun h hi hold => hi (List.mem_filter.2 ⟨hold, decide_eq_true h⟩)
  by_cases hi : i < k
  · rw [if_pos hi]
    exact .inl ⟨rfl, hstale fun h => absurd hi (Nat.not_lt.2 h.1)⟩
  · rw [if_neg hi]
    cases hcall : (ObjPool.initCalls (s.pool.m_vecPMem.drop k) (instances.map initObj))[i - k]? with
    | none =>
      refine .inl ⟨rfl, hstale fun h => ?_⟩
      rw [hcall] at h
      cases h.2
    | some r =>
      cases hr : r.stored with
      | none =>
        refine .inl ⟨?_, hstale fun h => ?_⟩
        · simp [TNode.initObj, hr]
        · rw [hcall, Option.bind_some, hr] at h
          cases h.2
      | some q? =>
        refine .inr ⟨q?, ?_, Nat.le_of_not_lt hi, fun q hq => ⟨made_of_call hcall (hr.trans (congrArg some hq)), ?_⟩⟩
        · simp [TNode.initObj, hr]
        · exact List.mem_append_left _ (List.mem_filterMap.2 ⟨r, List.mem_of_getElem? hcall, by rw [hr, hq]; rfl⟩)

theorem Fresh.spec (hfresh : Fresh s instances) {j : Nat} (hj : instances[j]? = some (.made q)) :
    q ∉ s.alive ∧ ∀ j', instances[j']? = some (.made q) → j = j' := by
  obtain ⟨hq, hinj⟩ := hfresh j (List.getElem?_eq_some_iff.1 hj).1 q hj
  exact ⟨hq, fun j' hj' => hinj j' (List.getElem?_eq_some_iff.1 hj').1 hj'⟩

theorem slot_of_getElem {x : TNode} (h : s.pool.m_vecPMem[i]? = some x) : s.slot i = x.pData := by
  rw [slot, h]
  rfl

theorem getElem_of_slot (h : s.slot i = some q) : ∃ x, s.pool.m_vecPMem[i]? = some x ∧ x.pData = some q :=
  Option.bind_eq_some_iff.1 h

/-- A slot that is not stale has its old object, or a new one. -/
theorem slot_initFrom (hi : i ∉ (s.initFrom k instances).stale) (hq : (s.initFrom k instances).slot i = some q) :
    (i ∉ s.stale ∧ s.slot i = some q ∧ (s.initFrom k instances).pool.m_vecPMem[i]? = s.pool.m_vecPMem[i]?) ∨
      (k ≤ i ∧ instances[i - k]? = some (.made q) ∧ q ∈ (s.initFrom k instances).alive) := by
  obtain ⟨x, hx, hxq⟩ := getElem_of_slot hq
  rcases initFrom_cases s k instances i with ⟨hsame, hold⟩ | ⟨q?, hnew, hk, hmade⟩
  · exact .inl ⟨hold hi, by rw [slot_of_getElem (hsame ▸ hx), hxq], hsame⟩
  · rw [hnew, Option.map_eq_some_iff] at hx
    obtain ⟨y, -, rfl⟩ := hx
    exact .inr ⟨hk, hmade q hxq⟩

theorem Inv.initFrom (hs : Inv s) (hfresh : Fresh s instances) : Inv (s.initFrom k instances) where
  length := by
    have hlen := hs.length
    change (s.pool.m_vecPMem.take k ++ _).length = s.pool.m_nMax
    rw [List.length_append, ObjPool.length_initNodes, List.length_take, List.length_drop]
    omega
  alive i q hi hq := by
    rcases slot_initFrom hi hq with ⟨hi', hq', -⟩ | ⟨-, -, hmade⟩
    · exact List.mem_append_right _ (hs.alive i q hi' hq')
    · exact hmade
  distinct i j q hi hj hqi hqj := by
    rcases slot_initFrom hi hqi with ⟨hi', hqi', -⟩ | ⟨hki, hmi, -⟩
    · rcases slot_initFrom hj hqj with ⟨hj', hqj', -⟩ | ⟨hkj, hmj, -⟩
      · exact hs.distinct i j q hi' hj' hqi' hqj'
      · exact absurd (hs.alive i q hi' hqi') (hfresh.spec hmj).1
    · rcases slot_initFrom hj hqj with ⟨hj', hqj', -⟩ | ⟨hkj, hmj, -⟩
      · exact absurd (hs.alive j q hj' hqj') (hfresh.spec hmi).1
      · have := (hfresh.spec hmi).2 _ hmj
        omega
  used i x q hi hx hq hh := by
    have hslot := (slot_of_getElem hx).trans hq
    rcases slot_initFrom hi hslot with ⟨hi', -, hsame⟩ | ⟨-, hmade, -⟩
    · exact hs.used i x q hi' (hsame ▸ hx) hq hh
    · exact absurd (hs.handed q hh) (hfresh.spec hmade).1
  handed q hq := List.mem_append_right _ (hs.handed q hq)
  once := hs.once

/-- After a resize the slots are the old ones and empty ones. -/
theorem getElem_resized {n : Nat} {x : TNode} (hi : i ∉ (s.resized n).stale) (hx : (s.resized n).pool.m_vecPMem[i]? = some x)
    (hq : x.pData = some q) : i ∉ s.stale ∧ s.pool.m_vecPMem[i]? = some x := by
  change (ObjPool.resize s.pool.m_vecPMem n)[i]? = some x at hx
  rw [ObjPool.getElem?_resize] at hx
  split_ifs at hx with hn
  · cases hold : s.pool.m_vecPMem[i]? with
    | none =>
      rw [hold] at hx
      cases hx
      cases hq
    | some y =>
      rw [hold] at hx
      cases hx
      exact ⟨fun h => hi (List.mem_filter.2 ⟨h, decide_eq_true hn⟩), rfl⟩

theorem Inv.resized (hs : Inv s) (n : Nat) : Inv (s.resized n) where
  length := ObjPool.length_resize _ _
  alive i q hi hq := by
    obtain ⟨x, hx, hxq⟩ := getElem_of_slot hq
    obtain ⟨hi', hx'⟩ := getElem_resized hi hx hxq
    exact hs.alive i q hi' ((slot_of_getElem hx').trans hxq)
  distinct i j q hi hj hqi hqj := by
    obtain ⟨x, hx, hxq⟩ := getElem_of_slot hqi
    obtain ⟨y, hy, hyq⟩ := getElem_of_slot hqj
    obtain ⟨hi', hx'⟩ := getElem_resized hi hx hxq
    obtain ⟨hj', hy'⟩ := getElem_resized hj hy hyq
    exact hs.distinct i j q hi' hj' ((slot_of_getElem hx').trans hxq) ((slot_of_getElem hy').trans hyq)
  used i x q hi hx hq hh := by
    obtain ⟨hi', hx'⟩ := getElem_resized hi hx hq
    exact hs.used i x q hi' hx' hq hh
  handed := hs.handed
  once := hs.once

/-! ## Objects that go -/

theorem not_stale_destroy (h : s.destroy q = .ok t) (hi : i ∉ t.stale) : i ∉ s.stale ∧ s.slot i ≠ some q := by
  rw [destroy] at h
  split_ifs at h
  cases h
  refine ⟨fun hold => hi (List.mem_append_left _ hold), fun hq => hi (List.mem_append_right _ ?_)⟩
  obtain ⟨x, hx, -⟩ := getElem_of_slot hq
  exact List.mem_filter.2 ⟨List.mem_range.2 (List.getElem?_eq_some_iff.1 hx).1, decide_eq_true hq⟩

theorem pool_destroy (h : s.destroy q = .ok t) : t.pool = s.pool := by
  rw [destroy] at h
  split_ifs at h
  cases h
  rfl

theorem mem_alive_destroy (h : s.destroy q = .ok t) {q' : Nat} : q' ∈ t.alive ↔ q' ∈ s.alive ∧ q' ≠ q := by
  rw [destroy] at h
  split_ifs at h
  cases h
  simp

theorem destroy_ok (hq : q ∈ s.alive) : ∃ t, s.destroy q = .ok t := ⟨_, if_pos hq⟩

theorem Inv.destroy (hs : Inv s) (h : s.destroy q = .ok t) : Inv t := by
  have hpool := pool_destroy h
  have hslot : ∀ i, t.slot i = s.slot i := fun i => by rw [slot, slot, hpool]
  have hhanded : t.handed = s.handed.filter (· ≠ q) := by
    rw [DBConnPool.destroy] at h
    split_ifs at h
    cases h
    rfl
  constructor
  case length => rw [hpool, hs.length]
  case alive =>
    intro i p hi hp
    rw [hslot] at hp
    obtain ⟨hi', hne⟩ := not_stale_destroy h hi
    exact (mem_alive_destroy h).2 ⟨hs.alive i p hi' hp, fun heq => hne (heq ▸ hp)⟩
  case distinct =>
    intro i j p hi hj hpi hpj
    rw [hslot] at hpi hpj
    exact hs.distinct i j p (not_stale_destroy h hi).1 (not_stale_destroy h hj).1 hpi hpj
  case used =>
    intro i x p hi hx hp hh
    rw [hhanded] at hh
    rw [hpool] at hx
    exact hs.used i x p (not_stale_destroy h hi).1 hx hp (List.mem_of_mem_filter hh)
  case handed =>
    intro p hp
    rw [hhanded, List.mem_filter, decide_eq_true_eq] at hp
    exact (mem_alive_destroy h).2 ⟨hs.handed p hp.1, hp.2⟩
  case once =>
    rw [hhanded]
    exact hs.once.filter _

/-- A flag is set, of a slot that is not in use without one. -/
theorem Inv.setFlag {flag : Nat} (hs : Inv s) (h : flag ≠ 0 ∨ i ∈ s.stale) : Inv { s with
    pool := { s.pool with m_vecPMem := s.pool.m_vecPMem.modify i (·.setFlag flag) } } := by
  have hget := ObjPool.getElem?_setFlag s.pool.m_vecPMem i flag
  have hslot : ∀ j q, ((s.pool.m_vecPMem.modify i (·.setFlag flag))[j]?).bind TNode.pData = some q →
      s.slot j = some q := by
    intro j q hq
    rw [hget, Option.bind_map] at hq
    obtain ⟨x, hx, hxq⟩ := Option.bind_eq_some_iff.1 hq
    rw [slot_of_getElem hx, ← hxq]
    simp only [Function.comp_apply]
    split_ifs <;> rfl
  constructor
  case length => exact (List.length_modify _ _ _).trans hs.length
  case alive => exact fun j q hj hq => hs.alive j q hj (hslot j q hq)
  case distinct => exact fun j k q hj hk hqj hqk => hs.distinct j k q hj hk (hslot j q hqj) (hslot k q hqk)
  case used =>
    intro j x q hj hx hq hh
    dsimp only at hj hx hh
    rw [hget, Option.map_eq_some_iff] at hx
    obtain ⟨y, hy, rfl⟩ := hx
    by_cases hij : i = j
    · subst hij
      rw [if_pos rfl] at hq ⊢
      exact h.resolve_right hj
    · rw [if_neg hij] at hq ⊢
      exact hs.used j y q hj hy hq hh
  case handed => exact hs.handed
  case once => exact hs.once

/-- `Free` of a connection that is gone: no slot has it but stale ones. -/
theorem Inv.free (hs : Inv s) (hgone : ∀ i, i ∉ s.stale → s.slot i ≠ some q) :
    ∃ t, s.free q = .ok t ∧ Inv t := by
  rw [DBConnPool.free, ObjPool.free]
  cases hfind : s.pool.m_vecPMem.findIdx? fun x => x.pData = some q with
  | none => exact ⟨s, rfl, hs⟩
  | some i =>
    obtain ⟨hi, hq, -⟩ := List.findIdx?_eq_some_iff_getElem.1 hfind
    have hstale : i ∈ s.stale := by
      by_contra hi'
      exact hgone i hi' ((slot_of_getElem (List.getElem?_eq_getElem hi)).trans (of_decide_eq_true hq))
    dsimp only
    rw [ObjPool.setFlags_one, ObjPool.setFlag, if_pos hi]
    exact ⟨_, rfl, hs.setFlag (.inr hstale)⟩

/-- `Destroy` for slots whose objects are there. -/
theorem Inv.destroyAll {nodes : List TNode} (hs : Inv s) (hin : ∀ x ∈ nodes, ∀ q, x.pData = some q → q ∈ s.alive)
    (honce : (nodes.filterMap TNode.pData).Nodup) :
    ∃ t, s.destroyAll nodes = .ok t ∧ Inv t ∧ t.pool = s.pool ∧
      ∀ i, i ∉ t.stale → i ∉ s.stale ∧ ∀ x ∈ nodes, ∀ q, x.pData = some q → s.slot i ≠ some q := by
  induction nodes generalizing s with
  | nil => exact ⟨s, rfl, hs, rfl, fun i hi => ⟨hi, fun x hx => absurd hx List.not_mem_nil⟩⟩
  | cons x xs ih =>
    have hxs := fun y hy => hin y (List.mem_cons_of_mem _ hy)
    cases hq : x.pData with
    | none =>
      rw [List.filterMap_cons_none hq] at honce
      obtain ⟨t, hrun, ht, hpool, hstale⟩ := ih hs hxs honce
      refine ⟨t, foldlM_cons_ok.2 ⟨s, by rw [hq], hrun⟩, ht, hpool, fun i hi => ⟨(hstale i hi).1, ?_⟩⟩
      refine List.forall_mem_cons.2 ⟨fun q hxq => ?_, (hstale i hi).2⟩
      rw [hq] at hxq
      cases hxq
    | some q =>
      rw [List.filterMap_cons_some hq, List.nodup_cons] at honce
      obtain ⟨s₁, h₁⟩ := destroy_ok (hin x List.mem_cons_self q hq)
      have hin₁ : ∀ y ∈ xs, ∀ p, y.pData = some p → p ∈ s₁.alive := by
        intro y hy p hp
        refine (mem_alive_destroy h₁).2 ⟨hxs y hy p hp, ?_⟩
        rintro rfl
        exact honce.1 (List.mem_filterMap.2 ⟨y, hy, hp⟩)
      obtain ⟨t, hrun, ht, hpool, hstale⟩ := ih (hs.destroy h₁) hin₁ honce.2
      have hslot : ∀ i, s₁.slot i = s.slot i := fun i => by rw [slot, slot, pool_destroy h₁]
      refine ⟨t, foldlM_cons_ok.2 ⟨s₁, by rw [hq]; exact h₁, hrun⟩, ht, hpool.trans (pool_destroy h₁), fun i hi => ?_⟩
      obtain ⟨hi₁, hrest⟩ := hstale i hi
      obtain ⟨hi', hne⟩ := not_stale_destroy h₁ hi₁
      refine ⟨hi', List.forall_mem_cons.2 ⟨fun p hp => ?_, fun y hy p hp => hslot i ▸ hrest y hy p hp⟩⟩
      cases hq.symm.trans hp
      exact hne

theorem nodup_filterMap {α β : Type} {f : α → Option β} {xs : List α}
    (h : ∀ (i j : Nat) (q : β), (xs[i]?).bind f = some q → (xs[j]?).bind f = some q → i = j) : (xs.filterMap f).Nodup := by
  induction xs with
  | nil => exact List.nodup_nil
  | cons x xs ih =>
    have hxs := ih fun i j q hi hj => Nat.succ.inj (h (i + 1) (j + 1) q hi hj)
    cases hq : f x with
    | none => rwa [List.filterMap_cons_none hq]
    | some q =>
      rw [List.filterMap_cons_some hq, List.nodup_cons]
      refine ⟨fun hmem => ?_, hxs⟩
      obtain ⟨y, hy, hyq⟩ := List.mem_filterMap.1 hmem
      obtain ⟨j, hj⟩ := List.mem_iff_getElem?.1 hy
      have := h 0 (j + 1) q hq (by rw [List.getElem?_cons_succ, hj]; exact hyq)
      omega

/-- All objects of the pool are destroyed, when none of its slots is stale. -/
theorem Inv.destroyPool (hs : Inv s) (hstale : s.stale = []) :
    ∃ t, s.destroyAll s.pool.m_vecPMem = .ok t ∧ Inv t ∧ t.pool = s.pool ∧ ∀ i, i ∉ t.stale → s.slot i = none := by
  have hmem : ∀ i, i ∉ s.stale := fun i => hstale ▸ List.not_mem_nil
  have hin : ∀ x ∈ s.pool.m_vecPMem, ∀ q, x.pData = some q → q ∈ s.alive := by
    intro x hx q hq
    obtain ⟨i, hi⟩ := List.mem_iff_getElem?.1 hx
    exact hs.alive i q (hmem i) ((slot_of_getElem hi).trans hq)
  have honce : (s.pool.m_vecPMem.filterMap TNode.pData).Nodup :=
    nodup_filterMap fun i j q hi hj => hs.distinct i j q (hmem i) (hmem j) hi hj
  obtain ⟨t, hrun, ht, hpool, hleft⟩ := hs.destroyAll hin honce
  refine ⟨t, hrun, ht, hpool, fun i hi => ?_⟩
  cases hq : s.slot i with
  | none => rfl
  | some q =>
    obtain ⟨x, hx, hxq⟩ := getElem_of_slot hq
    exact absurd hq ((hleft i hi).2 x (List.mem_of_getElem? hx) q hxq)

/-! ## The steps -/

theorem Inv.clearPool (hs : Inv s) (hstale : s.stale = []) : ∃ t, s.clearPool = .ok t ∧ Inv t := by
  obtain ⟨t, hrun, ht, hpool, hleft⟩ := hs.destroyPool hstale
  refine ⟨_, bind_eq_ok.2 ⟨t, hrun, rfl⟩, ?_⟩
  have hnone : ∀ (i : Nat) x q, i ∉ t.stale → (t.pool.m_vecPMem.map (·.setFlag 0))[i]? = some x → x.pData ≠ some q := by
    intro i x q hi hx hq
    rw [List.getElem?_map, Option.map_eq_some_iff] at hx
    obtain ⟨y, hy, rfl⟩ := hx
    have hslot := (slot_of_getElem hy).trans hq
    rw [slot, hpool, ← slot, hleft i hi] at hslot
    cases hslot
  constructor
  case length => exact (List.length_map _).trans ht.length
  case alive =>
    intro i q hi hq
    obtain ⟨x, hx, hxq⟩ := getElem_of_slot hq
    exact absurd hxq (hnone i x q hi hx)
  case distinct =>
    intro i j q hi _ hq
    obtain ⟨x, hx, hxq⟩ := getElem_of_slot hq
    exact absurd hxq (hnone i x q hi hx)
  case used => exact fun i x q hi hx hq => absurd hq (hnone i x q hi hx)
  case handed => exact ht.handed
  case once => exact ht.once

theorem Inv.init (hs : Inv s) (hfresh : Fresh s instances) (size : Int) : Inv (s.init size instances) :=
  (hs.resized (size % 65536).toNat).initFrom (k := 0) hfresh

theorem Inv.retryInitObj (hs : Inv s) (hfresh : Fresh s instances) : Inv (s.retryInitObj instances) :=
  hs.initFrom (k := 0) hfresh

/-- What the section of `Alloc` finds, if anything, is a free slot that is not stale. -/
structure Found (t : DBConnPool) (i q : Nat) : Prop where
  fresh : i ∉ t.stale
  free : ∃ x, t.pool.m_vecPMem[i]? = some x ∧ x.pData = some q ∧ x.nFlag = 0

theorem found_of_available {j : Nat} (hfind : ObjPool.findAvailable s.pool.m_vecPMem 0 1 = some j) (hj : j ∉ s.stale) :
    ∃ r, s.pool.readAt (some j) = .ok (j, r) ∧ ∀ q, r = some q → Found s j q := by
  obtain ⟨hlen, hflag⟩ := ObjPool.findAvailable_spec Nat.zero_lt_one hfind
  obtain ⟨x, hx, hzero⟩ := hflag j (Nat.le_refl j) (Nat.lt_succ_self j)
  refine ⟨x.pData, ?_, fun q hq => ⟨hj, x, hx, hq, hzero⟩⟩
  rw [ObjPool.readAt, hx]

/-- A call that succeeds has made an object. -/
theorem stored_of_ok {xs : List TNode} {r : InitResult} {j : Nat}
    (hcall : (ObjPool.initCalls xs (instances.map initObj))[j]? = some r) (hok : r.ok = true) : r.stored.isSome := by
  have h := ObjPool.getElem?_initCalls hcall
  rw [List.getElem?_map, Option.map_eq_some_iff] at h
  obtain ⟨a, -, rfl⟩ := h
  cases a with
  | noEngine => cases hok
  | null => cases hok
  | made q => rfl

/-- The pool after `expand`. -/
def expanded (s : DBConnPool) (instances : List Instance) : DBConnPool :=
  (s.resized s.grown).initFrom (s.grown / 2) instances

/-- Whether all new slots have got their objects. -/
def expandedOk (s : DBConnPool) (instances : List Instance) : Bool :=
  (ObjPool.initNodes ((ObjPool.resize s.pool.m_vecPMem s.grown).drop (s.grown / 2)) (instances.map initObj)).2

theorem expand_eq (s : DBConnPool) (instances : List Instance) :
    s.pool.expand (instances.map initObj) = ((s.expanded instances).pool, s.expandedOk instances) := rfl

/-- A new slot has got its object when all have. -/
theorem call_of_expandedOk (hok : s.expandedOk instances = true) (hk : s.grown / 2 ≤ i) (hi : i < s.grown) :
    ∃ r, (ObjPool.initCalls ((ObjPool.resize s.pool.m_vecPMem s.grown).drop (s.grown / 2))
      (instances.map initObj))[i - s.grown / 2]? = some r ∧ r.ok = true := by
  refine ObjPool.initNodes_true hok ?_
  rw [List.length_drop, ObjPool.length_resize]
  omega

theorem not_stale_expanded (hok : s.expandedOk instances = true) (hk : s.grown / 2 ≤ i) (hi : i < s.grown) :
    i ∉ (s.expanded instances).stale := by
  obtain ⟨r, hcall, hrok⟩ := call_of_expandedOk hok hk hi
  intro hmem
  have hnot := of_decide_eq_true (List.mem_filter.1 hmem).2
  refine hnot ⟨hk, ?_⟩
  change ((ObjPool.initCalls ((ObjPool.resize s.pool.m_vecPMem s.grown).drop (s.grown / 2))
    (instances.map initObj))[i - s.grown / 2]?.bind InitResult.stored).isSome
  rw [hcall]
  exact stored_of_ok hcall hrok

theorem expandedOk_of_failing (hi : i < s.grown - s.grown / 2) (hfail : (instances[i]?).bind Instance.pointer = none) :
    s.expandedOk instances = false := by
  rw [← Bool.not_eq_true]
  intro hok
  obtain ⟨r, hcall, hrok⟩ := call_of_expandedOk hok (i := s.grown / 2 + i) (by omega) (by omega)
  have h := ObjPool.getElem?_initCalls hcall
  rw [Nat.add_sub_cancel_left, List.getElem?_map, Option.map_eq_some_iff] at h
  obtain ⟨a, ha, rfl⟩ := h
  rw [ha] at hfail
  cases a with
  | noEngine => cases hrok
  | null => cases hrok
  | made q => cases hfail

/-- Of a full pool only the new slots are free. -/
theorem le_of_free {x : TNode} (hs : Inv s) (hmax : s.pool.m_nMax < 32768) (hfull : ∀ x ∈ s.pool.m_vecPMem, x.nFlag ≠ 0)
    (hx : (s.expanded instances).pool.m_vecPMem[i]? = some x) (hfree : x.nFlag = 0) : s.grown / 2 ≤ i := by
  by_contra hlt
  have hgrown : s.grown = s.pool.m_nMax * 2 := Nat.mod_eq_of_lt (by omega)
  have hi : i < s.pool.m_vecPMem.length := by
    rw [hs.length]
    omega
  rw [expanded, getElem?_initFrom, if_pos (Nat.lt_of_not_le hlt)] at hx
  change (ObjPool.resize s.pool.m_vecPMem s.grown)[i]? = some x at hx
  rw [ObjPool.getElem?_resize, if_pos (by omega), List.getElem?_eq_getElem hi] at hx
  cases hx
  exact hfull _ (List.getElem_mem hi) hfree

/-- A pool that has grown has a free slot. -/
theorem available_expanded (instances : List Instance) (hs : Inv s) (hpos : 0 < s.pool.m_nMax) (hmax : s.pool.m_nMax < 32768) :
    ∃ j, ObjPool.findAvailable (s.expanded instances).pool.m_vecPMem 0 1 = some j := by
  have hgrown : s.grown = s.pool.m_nMax * 2 := Nat.mod_eq_of_lt (by omega)
  rw [← Option.ne_none_iff_exists']
  intro hnone
  have hnew : (ObjPool.resize s.pool.m_vecPMem s.grown)[s.pool.m_nMax]? = some .new := by
    rw [ObjPool.getElem?_resize, if_pos (by omega), List.getElem?_eq_none (Nat.le_of_eq hs.length)]
    rfl
  have hx : ∃ x, (s.expanded instances).pool.m_vecPMem[s.pool.m_nMax]? = some x ∧ x.nFlag = 0 := by
    rcases initFrom_cases (s.resized s.grown) (s.grown / 2) instances s.pool.m_nMax with ⟨hsame, -⟩ | ⟨q?, hmap, -⟩
    · exact ⟨_, hsame.trans hnew, rfl⟩
    · exact ⟨_, hmap.trans (congrArg _ hnew), rfl⟩
  obtain ⟨x, hx, hfree⟩ := hx
  exact ObjPool.findAvailable_one hnone x (List.mem_of_getElem? hx) hfree

theorem Inv.expanded (hs : Inv s) (hfresh : Fresh s instances) : Inv (s.expanded instances) :=
  (hs.resized s.grown).initFrom hfresh

/-- A pool that is full has a free slot that is not stale once it has grown. -/
theorem found_expanded (hs : Inv s) (hfresh : Fresh s instances) (hpos : 0 < s.pool.m_nMax) (hmax : s.pool.m_nMax < 32768)
    (hfull : ObjPool.findAvailable s.pool.m_vecPMem 0 1 = none) (hok : s.expandedOk instances = true) :
    ∃ j r, (s.expanded instances).pool.readAt (ObjPool.findAvailable (s.expanded instances).pool.m_vecPMem 0 1) = .ok (j, r) ∧
      ∀ q, r = some q → Found (s.expanded instances) j q := by
  obtain ⟨j, hj⟩ := available_expanded instances hs hpos hmax
  obtain ⟨hlen, hflag⟩ := ObjPool.findAvailable_spec Nat.zero_lt_one hj
  obtain ⟨x, hx, hfree⟩ := hflag j (Nat.le_refl j) (Nat.lt_succ_self j)
  have hk := le_of_free hs hmax (ObjPool.findAvailable_one hfull) hx hfree
  have hlt : j < s.grown := by
    have hgrown := (hs.expanded hfresh).length
    change _ = s.grown at hgrown
    omega
  obtain ⟨r, hr, hfound⟩ := found_of_available hj (not_stale_expanded hok hk hlt)
  exact ⟨j, r, by rw [hj, hr], hfound⟩

theorem Inv.search {a b c : Bool} (hs : Inv s) (hfresh : Fresh s instances)
    (hcov : Covered s (.getNewConnect instances a b c)) :
    ∃ t i r, s.search instances = .ok (t, i, r) ∧ Inv t ∧ ∀ q, r = some q → Found t i q := by
  rw [DBConnPool.search, ObjPool.search]
  rw [Covered] at hcov
  cases hfind : ObjPool.findAvailable s.pool.m_vecPMem 0 1 with
  | some j =>
    rw [hfind] at hcov
    obtain ⟨r, hr, hfound⟩ := found_of_available hfind hcov
    refine ⟨s, j, r, ?_, hs, hfound⟩
    dsimp only
    rw [hr]
    rfl
  | none =>
    rw [hfind] at hcov
    dsimp only
    rw [expand_eq]
    cases hok : s.expandedOk instances with
    | false => exact ⟨s.expanded instances, 0, none, rfl, hs.expanded hfresh, fun q hq => by cases hq⟩
    | true =>
      obtain ⟨hpos, hmax⟩ := hcov.resolve_right fun ⟨i, hi, hfail⟩ => by
        rw [expandedOk_of_failing hi hfail] at hok
        cases hok
      obtain ⟨j, r, hr, hfound⟩ := found_expanded hs hfresh hpos hmax hfind hok
      refine ⟨s.expanded instances, j, r, ?_, hs.expanded hfresh, hfound⟩
      dsimp only
      rw [if_pos rfl, hr]
      rfl

/-- A connection that no one has: it is there, and its slot, the only one that has it, is in use. -/
structure Held (s : DBConnPool) (q : Nat) : Prop where
  alive : q ∈ s.alive
  unhanded : q ∉ s.handed
  used : ∀ i x, i ∉ s.stale → s.pool.m_vecPMem[i]? = some x → x.pData = some q → x.nFlag ≠ 0

theorem Inv.alloc {a b c : Bool} (hs : Inv s) (hfresh : Fresh s instances)
    (hcov : Covered s (.getNewConnect instances a b c)) :
    ∃ t r, s.alloc instances = .ok (t, r) ∧ Inv t ∧ ∀ q, r = some q → Held t q := by
  obtain ⟨t, i, r, hsearch, ht, hfound⟩ := hs.search hfresh hcov
  rw [DBConnPool.alloc, hsearch]
  cases r with
  | none => exact ⟨t, none, rfl, ht, fun q hq => by cases hq⟩
  | some q =>
    obtain ⟨hi, x, hx, hxq, hfree⟩ := hfound q rfl
    have hslot : t.slot i = some q := (slot_of_getElem hx).trans hxq
    have hmark := ht.setFlag (i := i) (.inl Nat.one_ne_zero)
    refine ⟨_, some q, bind_eq_ok.2 ⟨_, rfl, ?_⟩, hmark, ?_⟩
    · dsimp only
      rw [ObjPool.setFlags_one, ObjPool.setFlag, if_pos (List.getElem?_eq_some_iff.1 hx).1]
      rfl
    · intro p hp
      cases hp
      refine ⟨ht.alive i q hi hslot, fun hh => ht.used i x q hi hx hxq hh hfree, ?_⟩
      intro j y hj hy hyq
      dsimp only at hj hy
      rw [ObjPool.getElem?_setFlag, Option.map_eq_some_iff] at hy
      obtain ⟨z, hz, rfl⟩ := hy
      have hij : i = j := by
        refine ht.distinct i j q hi hj hslot ((slot_of_getElem hz).trans ?_)
        rw [← hyq]
        split_ifs <;> rfl
      rw [if_pos hij]
      exact Nat.one_ne_zero

/-- A connection is handed out. -/
theorem Inv.hand (hs : Inv s) (hq : Held s q) : Inv { s with handed := q :: s.handed } where
  length := hs.length
  alive := hs.alive
  distinct := hs.distinct
  used i x p hi hx hp hh := by
    rcases List.mem_cons.1 hh with rfl | hh
    · exact hq.used i x hi hx hp
    · exact hs.used i x p hi hx hp hh
  handed := List.forall_mem_cons.2 ⟨hq.alive, hs.handed⟩
  once := List.nodup_cons.2 ⟨hq.unhanded, hs.once⟩

/-- A connection is destroyed, and its slot is freed. -/
theorem Inv.release (hs : Inv s) (hq : q ∈ s.alive) :
    ∃ t u, s.destroy q = .ok t ∧ t.free q = .ok u ∧ Inv u := by
  obtain ⟨t, ht⟩ := destroy_ok hq
  obtain ⟨u, hu, hinv⟩ := (hs.destroy ht).free (q := q) fun i hi => by
    rw [slot, pool_destroy ht]
    exact (not_stale_destroy ht hi).2
  exact ⟨t, u, ht, hu, hinv⟩

theorem Inv.getNewConnect {a b c : Bool} (hs : Inv s) (hfresh : Fresh s instances)
    (hcov : Covered s (.getNewConnect instances a b c)) :
    ∃ t, s.getNewConnect instances a b c = .ok t ∧ Inv t := by
  obtain ⟨t, r, halloc, ht, hheld⟩ := hs.alloc hfresh hcov
  rw [DBConnPool.getNewConnect, halloc]
  cases r with
  | none => exact ⟨t, rfl, ht⟩
  | some q =>
    have hq := hheld q rfl
    change ∃ u, (if q ∈ t.alive then _ else _) = Except.ok u ∧ Inv u
    rw [if_pos hq.alive]
    by_cases hok : (a && b && c) = true
    · rw [if_pos hok]
      exact ⟨_, rfl, ht.hand hq⟩
    · rw [if_neg hok]
      obtain ⟨u, v, hu, hv, hinv⟩ := ht.release hq.alive
      exact ⟨v, bind_eq_ok.2 ⟨u, hu, hv⟩, hinv⟩

theorem Inv.releaseConn {pConn : Option Nat} (hs : Inv s) (hcov : Covered s (.releaseConn pConn)) :
    ∃ t, s.releaseConn pConn = .ok t ∧ Inv t := by
  cases pConn with
  | none => exact ⟨s, rfl, hs⟩
  | some q =>
    obtain ⟨t, u, ht, hu, hinv⟩ := hs.release (hs.handed q (hcov q rfl))
    exact ⟨u, bind_eq_ok.2 ⟨t, ht, hu⟩, hinv⟩

/-- The connections that are handed out are there, and the pool is as it should be until it is destroyed. -/
structure Kept (s : DBConnPool) : Prop where
  handed : ∀ q ∈ s.handed, q ∈ s.alive
  inv : s.gone = false → Inv s

theorem Inv.kept (hs : Inv s) : Kept s := ⟨hs.handed, fun _ => hs⟩

theorem Inv.destructor (hs : Inv s) (hstale : s.stale = []) : ∃ t, s.destructor = .ok t ∧ Kept t := by
  obtain ⟨t, hrun, ht, -, -⟩ := hs.destroyPool hstale
  exact ⟨_, bind_eq_ok.2 ⟨t, hrun, rfl⟩, ht.handed, fun hgone => by cases hgone⟩

/-- A step that is covered is defined, and keeps the invariant. -/
theorem Kept.step {x : Action} (hs : Kept s) (hallowed : Allowed s x) (hcov : Covered s x) :
    ∃ t, s.step x = .ok t ∧ Kept t := by
  obtain ⟨hgone, hfresh⟩ := hallowed
  have hinv := hs.inv hgone
  have hkept : ∀ {e : Except PoolFault DBConnPool}, (∃ t, e = .ok t ∧ Inv t) → ∃ t, e = .ok t ∧ Kept t :=
    fun ⟨t, ht, hinv⟩ => ⟨t, ht, hinv.kept⟩
  cases x with
  | init size instances => exact hkept ⟨_, rfl, hinv.init hfresh size⟩
  | getNewConnect instances a b c => exact hkept (hinv.getNewConnect hfresh hcov)
  | releaseConn pConn => exact hkept (hinv.releaseConn hcov)
  | clearPool => exact hkept (hinv.clearPool hcov)
  | retryInitObj instances => exact hkept ⟨_, rfl, hinv.retryInitObj hfresh⟩
  | destructor => exact hinv.destructor hcov

theorem inv_begin : Inv begin where
  length := rfl
  alive i q _ hq := by cases hq
  distinct i j q _ _ hq := by cases hq
  used i x q _ hx := by cases hx
  handed q hq := absurd hq List.not_mem_nil
  once := List.nodup_nil

/-- In a run whose steps are all covered no object is destroyed twice, or used that is gone, and all connections that are
handed out are there. -/
theorem alive_run {actions : List Action} (h : Along step (fun s x => Allowed s x ∧ Covered s x) begin actions) :
    ∃ s, actions.foldlM step begin = .ok s ∧ ∀ q ∈ s.handed, q ∈ s.alive := by
  obtain ⟨s, hrun, hs⟩ := h.run Kept inv_begin.kept fun s x hs hx => hs.step hx.1 hx.2
  exact ⟨s, hrun, hs.handed⟩

instance : Decidable (Fresh s instances) :=
  decidable_of_iff (∀ i < instances.length, ∀ q ∈ (instances[i]?).bind Instance.pointer,
    q ∉ s.alive ∧ ∀ j < instances.length, instances[j]? = some (.made q) → i = j) <| by
    refine forall₂_congr fun i _ => forall_congr' fun q => imp_congr_left ?_
    rw [Option.mem_def, Option.bind_eq_some_iff]
    constructor
    case mp =>
      rintro ⟨a, ha, haq⟩
      cases a with
      | noEngine => cases haq
      | null => cases haq
      | made p =>
        cases haq
        exact ha
    case mpr => exact fun h => ⟨_, h, rfl⟩

instance {x : Action} : Decidable (Allowed s x) :=
  match x with
  | .init _ _ | .getNewConnect _ _ _ _ | .retryInitObj _ => inferInstanceAs (Decidable (_ ∧ Fresh _ _))
  | .releaseConn _ | .clearPool | .destructor => inferInstanceAs (Decidable (_ ∧ True))

instance : ∀ {found : Option Nat}, Decidable (Usable s instances found)
  | some i => inferInstanceAs (Decidable (i ∉ s.stale))
  | none => inferInstanceAs (Decidable (_ ∨ ∃ i < _, _))

instance {x : Action} : Decidable (Covered s x) :=
  match x with
  | .getNewConnect _ _ _ _ => inferInstanceAs (Decidable (Usable _ _ _))
  | .releaseConn pConn => inferInstanceAs (Decidable (∀ q ∈ pConn, q ∈ s.handed))
  | .clearPool | .destructor => inferInstanceAs (Decidable (s.stale = []))
  | .init _ _ | .retryInitObj _ => inferInstanceAs (Decidable True)

/-- The pool grows, and its connections are made anew before they are handed out or destroyed again. -/
theorem alive_run_grown : ∃ s, [Action.init 1 [.made 1], .getNewConnect [] true true true,
      .getNewConnect [.made 2] true true true, .releaseConn (some 1), .retryInitObj [.made 3, .made 4],
      .getNewConnect [] true true false, .retryInitObj [.made 5, .made 6], .clearPool].foldlM step begin = .ok s ∧
        ∀ q ∈ s.handed, q ∈ s.alive :=
  alive_run (by decide +kernel)

/-- A connection is given back, and the next `GetNewConnect` works on it. -/
theorem not_alive_released : ¬∀ actions : List Action, Along step Allowed begin actions →
    ∃ s, actions.foldlM step begin = .ok s ∧ ∀ q ∈ s.handed, q ∈ s.alive := by
  intro h
  have hrun := h [.init 1 [.made 1], .getNewConnect [] true true true, .releaseConn (some 1), .getNewConnect [] true true true]
    (by decide +kernel)
  obtain ⟨s, hs, -⟩ := hrun
  cases hs

end DBConnPool
