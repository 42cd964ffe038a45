/-
The nodes of requests that are posted (Net/PostNodeMgr_Linux.cpp).

`ApplyPostNode` takes a node from the pool and resets it, and then returns
what a second `Alloc` gives: of two slots that it marks only the second can
ever be released. Over a run each call leaves one slot more in use than there
are nodes to release (`leaks_run`), so the pool is in balance only as long as
no node was applied for (`balanced_iff`).
-/
import XFramework.Mem.ObjPoolGrowth

open Fallible ObjPool

/-- The pool of nodes. `new` gives each object a number of its own, from `made` on; `cleared` are the nodes that were
reset, `gone` those that were destroyed, and `outstanding` those that were returned and not released. -/
structure PostNodeMgr where
  pool : ObjPool
  made : Nat
  cleared : List Nat
  gone : List Nat
  outstanding : List Nat

namespace PostNodeMgr

/-- The calls of `InitObj` of the pool itself: `new CPostReq()`. -/
def initObjs (first n : Nat) : List InitResult := (List.range n).map fun i => ⟨some (some (first + i)), true⟩

/-- The constructor: `Init()`, for `ALLOCCOUNT` nodes. -/
def begin : PostNodeMgr := ⟨((⟨0, []⟩ : ObjPool).init 100 (initObjs 0 100)).1, 100, [], [], []⟩

/-- `Alloc()`. Numbers that no object has got are left out. -/
def alloc (s : PostNodeMgr) : Except PoolFault (PostNodeMgr × Option Nat) := do
  let n := s.pool.m_nMax * 2 % 65536
  let r ← s.pool.alloc 1 (initObjs s.made n)
  .ok ({ s with pool := r.1, made := s.made + n }, r.2)

/-- `Reset`, a call of the object. -/
def reset (s : PostNodeMgr) (q : Nat) : Except PoolFault PostNodeMgr :=
  if q ∈ s.gone then .error .destroyed else .ok { s with cleared := q :: s.cleared }

/-- `~CPostReq`. -/
def destroy (s : PostNodeMgr) (q : Nat) : Except PoolFault PostNodeMgr :=
  if q ∈ s.gone then .error .destroyed else .ok { s with gone := q :: s.gone }

def applyPostNode (s : PostNodeMgr) : Except PoolFault PostNodeMgr := do
  let r ← s.alloc
  let s ← match r.2 with
    | none => .ok r.1
    | some pData => r.1.reset pData
  let r ← s.alloc
  match r.2 with
  | none => .ok r.1
  | some pNode => .ok { r.1 with outstanding := pNode :: r.1.outstanding }

def releaseNode (s : PostNodeMgr) (pNode : Nat) : Except PoolFault PostNodeMgr := do
  let s ← s.destroy pNode
  let pool ← s.pool.free (some pNode) 1
  .ok { s with pool := pool, outstanding := s.outstanding.erase pNode }

inductive Call
  | applyPostNode
  | releaseNode (pNode : Nat)
  deriving DecidableEq

def step (s : PostNodeMgr) : Call → Except PoolFault PostNodeMgr
  | .applyPostNode => s.applyPostNode
  | .releaseNode pNode => s.releaseNode pNode

/-- Only nodes that are outstanding are released. -/
def Allowed (s : PostNodeMgr) : Call → Prop
  | .applyPostNode => True
  | .releaseNode pNode => pNode ∈ s.outstanding

/-- As many slots are used as nodes are outstanding, and these were reset and not destroyed. -/
def Balanced (s : PostNodeMgr) : Prop :=
  s.pool.getUsed = s.outstanding.length ∧ ∀ q ∈ s.outstanding, q ∈ s.cleared ∧ q ∉ s.gone

/-- The objects `live` have the slots that are used, and every slot has an object. -/
structure Holds (s : PostNodeMgr) (live : List Nat) : Prop where
  owner : PoolOwner.Inv ⟨s.pool, live⟩
  pos : 0 < s.pool.m_nMax
  filled : ∀ (i : Nat) x, s.pool.m_vecPMem[i]? = some x → ∃ q < s.made, x.pData = some q

variable {s t : PostNodeMgr} {live live' : List Nat} {r : Option Nat} {q first n : Nat}

theorem getElem?_initObjs {i : Nat} (hi : i < n) : (initObjs first n)[i]? = some ⟨some (some (first + i)), true⟩ := by
  simp [initObjs, hi]

theorem stored_initObjs {i : Nat} (h : ((initObjs first n)[i]?).bind InitResult.stored = some (some q)) : q = first + i := by
  obtain ⟨r, hr, hstored⟩ := Option.bind_eq_some_iff.1 h
  have hi : i < n := by simpa [initObjs] using (List.getElem?_eq_some_iff.1 hr).1
  cases (getElem?_initObjs hi).symm.trans hr
  cases hstored
  rfl

theorem fresh_initObjs {p : ObjPool} (h : ∀ (i : Nat) x, p.m_vecPMem[i]? = some x → ∃ q < first, x.pData = some q) :
    Fresh p (initObjs first n) := by
  intro i hi q hq
  have hmade := stored_initObjs (Option.join_eq_some_iff.1 hq)
  refine ⟨fun x hx hxq => ?_, fun j hj hstored => ?_⟩
  · obtain ⟨j, hj⟩ := List.mem_iff_getElem?.1 hx
    obtain ⟨q', hq', hxq'⟩ := h j x hj
    cases hxq'.symm.trans hxq
    omega
  · have := stored_initObjs hstored
    omega

theorem Holds.perm (hs : Holds s live) (h : live.Perm live') : Holds s live' where
  owner := by
    obtain ⟨hlength, hcounts, hobjects, hdistinct, hused, hstands⟩ := hs.owner
    exact ⟨hlength, hcounts, hobjects, h.nodup_iff.1 hdistinct, h.length_eq ▸ hused, fun p hp => hstands p (h.mem_iff.2 hp)⟩
  pos := hs.pos
  filled := hs.filled

/-- New slots have the objects that were made for them. -/
theorem Holds.grown (hs : Holds s live) (hmax : s.pool.m_nMax < 32768) : ∀ (i : Nat) x,
    (s.pool.grown (initObjs s.made (s.pool.m_nMax * 2))).m_vecPMem[i]? = some x →
      ∃ q < s.made + s.pool.m_nMax * 2, x.pData = some q := by
  intro i x hx
  have hlen := hs.owner.length
  rw [grown_eq hlen] at hx
  by_cases hi : i < s.pool.m_vecPMem.length
  · rw [List.getElem?_append_left hi] at hx
    obtain ⟨q, hq, hxq⟩ := hs.filled i x hx
    exact ⟨q, by omega, hxq⟩
  · rw [List.getElem?_append_right (Nat.le_of_not_lt hi), getElem?_initNodes] at hx
    generalize i - s.pool.m_vecPMem.length = j at hx
    have hj : j < s.pool.m_nMax := by
      by_contra hge
      rw [List.getElem?_replicate, if_neg hge] at hx
      split at hx <;> cases hx
    have hok : (initNodes (List.replicate s.pool.m_nMax .new) (initObjs s.made (s.pool.m_nMax * 2))).2 = true := by
      refine initNodes_eq_true.2 fun k hk => ?_
      rw [List.length_replicate] at hk
      rw [getElem?_initObjs (by omega)]
      rfl
    obtain ⟨r, hcall, -⟩ := initNodes_true hok (by rwa [List.length_replicate])
    rw [hcall, List.getElem?_replicate, if_pos hj] at hx
    cases (getElem?_initObjs (by omega)).symm.trans (getElem?_initCalls hcall)
    cases hx
    exact ⟨_, by omega, rfl⟩

/-- An `Alloc` that is defined returns an object, and its slot is used from then on. -/
theorem Holds.alloc (hs : Holds s live) (h : s.alloc = .ok (t, r)) :
    ∃ q, r = some q ∧ t.outstanding = s.outstanding ∧ t.cleared = s.cleared ∧ Holds t (q :: live) := by
  rw [PostNodeMgr.alloc] at h
  generalize hinits : initObjs s.made (s.pool.m_nMax * 2 % 65536) = inits at h
  have hok : (s.pool.expand inits).2 = true := by
    refine expand_ok fun i hi => ?_
    rw [← hinits, getElem?_initObjs hi]
    rfl
  obtain ⟨⟨p', r'⟩, halloc, h⟩ := bind_eq_ok.1 h
  cases h
  have hcov : PoolOwner.Covered ⟨s.pool, live⟩ (.alloc inits) := by
    by_contra hcov
    rw [PoolOwner.Covered, not_or, not_and, freeRun_iff Nat.zero_lt_one, not_not] at hcov
    obtain ⟨hfind, hmax⟩ := hcov
    obtain ⟨-, hfree⟩ := expand_wraps 1 inits hs.owner.length hs.owner.counts
      (Nat.le_of_not_lt (hmax hs.pos))
    have hnone : findAvailable (s.pool.expand inits).1.m_vecPMem 0 1 = none := by
      by_contra hne
      exact (freeRun_iff Nat.zero_lt_one).1 (hfree ((freeRun_iff Nat.zero_lt_one).2 hne)) hfind
    rw [alloc_error hfind hok hnone] at halloc
    cases halloc
  obtain ⟨p₁, hp₁, hcases⟩ := hs.owner.allocated (hinits ▸ fresh_initObjs hs.filled) hcov
  have hfilled : ∀ (i : Nat) x, p₁.m_vecPMem[i]? = some x → ∃ q < s.made + s.pool.m_nMax * 2 % 65536, x.pData = some q := by
    intro i x hx
    rcases hp₁ with rfl | ⟨hmax, rfl⟩
    · obtain ⟨q, hq, hxq⟩ := hs.filled i x hx
      exact ⟨q, by omega, hxq⟩
    · have hmod : s.pool.m_nMax * 2 % 65536 = s.pool.m_nMax * 2 := Nat.mod_eq_of_lt (by dsimp only at hmax; omega)
      rw [hmod] at hinits ⊢
      subst hinits
      exact hs.grown hmax i x hx
  have hpos : 0 < p₁.m_nMax := by
    have hold := hs.pos
    rcases hp₁ with rfl | ⟨-, rfl⟩
    · exact hold
    · exact Nat.mul_pos hold Nat.zero_lt_two
  rcases hcases with ⟨-, -, hfail⟩ | ⟨i, q, hrun, hinv⟩
  · rcases hfail with hfail | ⟨i, hi⟩
    · rw [hok] at hfail
      cases hfail
    · obtain ⟨q, -, hq⟩ := hfilled i _ hi
      cases hq
  · cases halloc.symm.trans hrun
    refine ⟨q, rfl, rfl, rfl, hinv, hpos, fun j x hx => ?_⟩
    obtain ⟨y, hy, hxy⟩ := pData_modify hx
    obtain ⟨p, hp, hyp⟩ := hfilled j y hy
    exact ⟨p, hp, hxy.trans hyp⟩

theorem Holds.release (hs : Holds s live) (hq : q ∈ live) (h : s.releaseNode q = .ok t) :
    t.outstanding = s.outstanding.erase q ∧ t.cleared = s.cleared ∧ Holds t (live.erase q) := by
  obtain ⟨s₁, hdestroy, h⟩ := bind_eq_ok.1 h
  obtain ⟨pool, hfree, h⟩ := bind_eq_ok.1 h
  cases h
  rw [destroy] at hdestroy
  split_ifs at hdestroy
  cases hdestroy
  obtain ⟨i, hrun, hinv⟩ := hs.owner.freed hq
  cases hfree.symm.trans hrun
  refine ⟨rfl, rfl, hinv, hs.pos, fun j x hx => ?_⟩
  obtain ⟨y, hy, hxy⟩ := pData_modify hx
  obtain ⟨p, hp, hyp⟩ := hs.filled j y hy
  exact ⟨p, hp, hxy.trans hyp⟩

/-- A call of `ApplyPostNode` that is defined takes two slots, resets the node of one and returns that of the other. -/
theorem Holds.apply (hs : Holds s live) (h : s.applyPostNode = .ok t) :
    ∃ p q, t.outstanding = q :: s.outstanding ∧ t.cleared = p :: s.cleared ∧ Holds t (q :: p :: live) := by
  obtain ⟨⟨s₁, r⟩, h₁, h⟩ := bind_eq_ok.1 h
  obtain ⟨p, rfl, hout₁, hcleared₁, hs₁⟩ := hs.alloc h₁
  obtain ⟨s₂, h₂, h⟩ := bind_eq_ok.1 h
  dsimp only at h₂
  rw [reset] at h₂
  split_ifs at h₂
  cases h₂
  have hs₂ : Holds { s₁ with cleared := p :: s₁.cleared } (p :: live) := ⟨hs₁.owner, hs₁.pos, hs₁.filled⟩
  obtain ⟨⟨s₃, r⟩, h₃, h⟩ := bind_eq_ok.1 h
  obtain ⟨q, rfl, hout₃, hcleared₃, hs₃⟩ := hs₂.alloc h₃
  cases h
  refine ⟨p, q, ?_, ?_, hs₃.owner, hs₃.pos, hs₃.filled⟩
  · dsimp only
    rw [hout₃, hout₁]
  · dsimp only
    rw [hcleared₃, hcleared₁]

/-- The used slots have the nodes that are outstanding and `n` others, and only those others were reset. -/
def Leaks (n : Nat) (s : PostNodeMgr) : Prop :=
  ∃ leaked : List Nat, leaked.length = n ∧ (∀ q ∈ s.cleared, q ∈ leaked) ∧ Holds s (leaked ++ s.outstanding)

theorem Leaks.step {c : Call} (hs : Leaks n s) (hallowed : Allowed s c) (h : s.step c = .ok t) :
    Leaks (n + [c].count .applyPostNode) t := by
  obtain ⟨leaked, hlen, hcleared, hs⟩ := hs
  cases c with
  | applyPostNode =>
    obtain ⟨p, q, hout, hclear, ht⟩ := hs.apply h
    refine ⟨p :: leaked, by simp [hlen], ?_, ht.perm ?_⟩
    · rw [hclear]
      exact List.forall_mem_cons.2 ⟨List.mem_cons_self, fun x hx => List.mem_cons_of_mem _ (hcleared x hx)⟩
    · rw [hout, List.cons_append]
      exact (List.Perm.swap ..).trans (List.perm_middle.symm.cons p)
  | releaseNode q =>
    obtain ⟨hout, hclear, ht⟩ := hs.release (List.mem_append_right _ hallowed) h
    refine ⟨leaked, by simpa using hlen, hclear ▸ hcleared, ?_⟩
    have hnot : q ∉ leaked := fun hq => (List.nodup_append.1 hs.owner.distinct).2.2 q hq q hallowed rfl
    rwa [List.erase_append_right _ hnot, ← hout] at ht

theorem Leaks.used (hs : Leaks n s) :
    s.pool.getUsed = s.outstanding.length + n ∧ ∀ q ∈ s.outstanding, q ∉ s.cleared := by
  obtain ⟨leaked, hlen, hcleared, hs⟩ := hs
  refine ⟨?_, fun q hq hc => (List.nodup_append.1 hs.owner.distinct).2.2 q (hcleared q hc) q hq rfl⟩
  have hused := hs.owner.used
  rw [List.length_append, hlen, Nat.add_comm] at hused
  exact hused.symm

theorem leaks_run {calls : List Call} (hs : Leaks n s) (hallowed : Along step Allowed s calls)
    (h : calls.foldlM step s = .ok t) : Leaks (n + calls.count .applyPostNode) t := by
  induction calls generalizing s n with
  | nil =>
    cases foldlM_nil_ok.1 h
    exact hs
  | cons c calls ih =>
    obtain ⟨u, hu, h⟩ := foldlM_cons_ok.1 h
    obtain ⟨hc, hrest⟩ := hallowed
    rw [hu] at hrest
    have ht := ih (hs.step hc hu) hrest h
    rwa [Nat.add_assoc, ← List.count_append] at ht

theorem leaks_begin : Leaks 0 begin := by
  refine ⟨[], rfl, fun q hq => hq, PoolOwner.inv_begin 100 (fresh_initObjs fun i x hx => by cases hx), by decide, fun i x hx => ?_⟩
  have hall : begin.pool.m_vecPMem.all (fun x => x.pData.any (· < 100)) = true := by decide +kernel
  have hsome := List.all_eq_true.1 hall x (List.mem_of_getElem? hx)
  obtain ⟨q, hq, hlt⟩ := (Option.any_eq_true ..).1 hsome
  exact ⟨q, of_decide_eq_true hlt, hq⟩

/-- In a run that releases nodes that are outstanding each call of `ApplyPostNode` leaves one slot in use for good, and the
node that it returns is not the one that was reset: the pool is in balance exactly as long as there was no such call. -/
theorem balanced_iff {calls : List Call} (hallowed : Along step Allowed begin calls) :
    (∀ s, calls.foldlM step begin = .ok s →
        s.pool.getUsed = s.outstanding.length + calls.count .applyPostNode ∧ ∀ q ∈ s.outstanding, q ∉ s.cleared) ∧
      ((∃ s, calls.foldlM step begin = .ok s ∧ Balanced s) ↔ ∀ c ∈ calls, c ≠ .applyPostNode) := by
  have hused : ∀ s, calls.foldlM step begin = .ok s →
      s.pool.getUsed = s.outstanding.length + calls.count .applyPostNode ∧ ∀ q ∈ s.outstanding, q ∉ s.cleared := by
    intro s hrun
    have h := (leaks_run leaks_begin hallowed hrun).used
    rwa [Nat.zero_add] at h
  refine ⟨hused, ?_⟩
  constructor
  case mp =>
    rintro ⟨s, hrun, hbalanced, -⟩
    have h := (hused s hrun).1
    rintro c hc rfl
    have := List.count_pos_iff.2 hc
    omega
  case mpr =>
    intro hnone
    cases calls with
    | nil => exact ⟨begin, rfl, by decide +kernel, fun q hq => absurd hq List.not_mem_nil⟩
    | cons c calls =>
      -- there is no node to release yet
      cases c with
      | applyPostNode => exact absurd rfl (hnone _ List.mem_cons_self)
      | releaseNode q => exact absurd hallowed.1 List.not_mem_nil

instance {c : Call} : Decidable (Allowed s c) :=
  match c with
  | .applyPostNode => inferInstanceAs (Decidable True)
  | .releaseNode _ => inferInstanceAs (Decidable (_ ∈ _))

instance : DecidablePred Balanced := fun _ => inferInstanceAs (Decidable (_ ∧ ∀ q ∈ _, _))

/-- The node that is returned is the second that was taken, and no one can release the first. -/
theorem balanced_iff_released : ∃ s, [Call.applyPostNode, .releaseNode 1].foldlM step begin = .ok s ∧
    s.pool.getUsed = s.outstanding.length + 1 ∧ ∀ q ∈ s.outstanding, q ∉ s.cleared := by
  have hended : ∃ s, [Call.applyPostNode, .releaseNode 1].foldlM step begin = .ok s ∧ s.outstanding = [] := by decide +kernel
  obtain ⟨s, hrun, -⟩ := hended
  exact ⟨s, hrun, (balanced_iff (by decide +kernel)).1 s hrun⟩

theorem not_balanced_applied : ¬∀ calls : List Call, Along step Allowed begin calls →
    ∃ s, calls.foldlM step begin = .ok s ∧ Balanced s := by
  intro h
  exact absurd (h [.applyPostNode] (by decide +kernel)) (by decide +kernel)

end PostNodeMgr
