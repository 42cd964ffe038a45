/-
An object pool that grows while its slots are in use (Mem/ObjPool.h).

The caller of `Alloc()` and `Free` has the objects that were handed out.
`expand` is sound as long as twice the number of slots fits in an
`unsigned short`; in runs whose growth does, and only in these, every live
pointer has a used slot of its own, where `Free` finds it (`grows_iff`).
-/
import XFramework.Mem.ObjPoolAlloc
import XFramework.Lib.Threads

open Fallible

namespace ObjPool

variable {p p' : ObjPool} {inits : List InitResult} {i q : Nat}

/-- `GetUsed`, in objects. -/
def getUsed (p : ObjPool) : Nat := p.m_vecPMem.countP fun x => x.nFlag ≠ 0

/-- What `Alloc()` finds is a free slot, of the pool as it was or as it is when it has grown. It returns `NULL` when
`InitObj` has failed, or for a slot without an object. -/
theorem alloc_cases (hfound : findAvailable p.m_vecPMem 0 1 ≠ none ∨ p.m_nMax < 32768 ∧
    ((p.expand inits).2 = false ∨ findAvailable (p.grown inits).m_vecPMem 0 1 ≠ none)) :
    ∃ p₁, (p₁ = p ∨ findAvailable p.m_vecPMem 0 1 = none ∧ p.m_nMax < 32768 ∧ p₁ = p.grown inits) ∧
      (p.alloc 1 inits = .ok (p₁, none) ∧ ((p.expand inits).2 = false ∨ ∃ i : Nat, p₁.m_vecPMem[i]? = some ⟨0, none⟩) ∨
        ∃ i q, p₁.m_vecPMem[i]? = some ⟨0, some q⟩ ∧
          p.alloc 1 inits = .ok ({ p₁ with m_vecPMem := p₁.m_vecPMem.modify i (·.setFlag 1) }, some q)) := by
  -- the slot that is found in `p₁`
  have htake : ∀ p₁ : ObjPool, findAvailable p₁.m_vecPMem 0 1 ≠ none →
      (p.search 1 inits = p₁.readAt (findAvailable p₁.m_vecPMem 0 1) >>= fun r => .ok (p₁, r)) →
      p.alloc 1 inits = .ok (p₁, none) ∧ ((p.expand inits).2 = false ∨ ∃ i : Nat, p₁.m_vecPMem[i]? = some ⟨0, none⟩) ∨
        ∃ i q, p₁.m_vecPMem[i]? = some ⟨0, some q⟩ ∧
          p.alloc 1 inits = .ok ({ p₁ with m_vecPMem := p₁.m_vecPMem.modify i (·.setFlag 1) }, some q) := by
    intro p₁ hne hsearch
    obtain ⟨i, hfind⟩ := Option.ne_none_iff_exists'.1 hne
    obtain ⟨hin, hfree⟩ := findAvailable_spec Nat.zero_lt_one hfind
    obtain ⟨⟨flag, pData⟩, hx, hzero⟩ := hfree i (Nat.le_refl i) (Nat.lt_succ_self i)
    cases hzero
    rw [hfind, readAt, hx] at hsearch
    rw [alloc, hsearch]
    cases pData with
    | none => exact .inl ⟨rfl, .inr ⟨i, hx⟩⟩
    | some q =>
      refine .inr ⟨i, q, hx, bind_eq_ok.2 ⟨_, rfl, ?_⟩⟩
      dsimp only
      rw [setFlags_one, setFlag, if_pos (List.getElem?_eq_some_iff.1 hx).1]
      rfl
  by_cases hne : findAvailable p.m_vecPMem 0 1 = none
  · obtain ⟨hmax, hgrown⟩ := hfound.resolve_left (not_not_intro hne)
    obtain ⟨b, hexpand, -⟩ := expand_eq inits hmax
    refine ⟨p.grown inits, .inr ⟨hne, hmax, rfl⟩, ?_⟩
    cases b with
    | false =>
      refine .inl ⟨?_, .inl (by rw [hexpand])⟩
      rw [alloc, search, hne]
      dsimp only
      rw [hexpand]
      rfl
    | true =>
      rw [hexpand] at hgrown
      refine htake _ (hgrown.resolve_left Bool.noConfusion) ?_
      rw [search, hne]
      dsimp only
      rw [hexpand, if_pos rfl]
  · refine ⟨p, .inl rfl, htake p hne ?_⟩
    obtain ⟨i, hfind⟩ := Option.ne_none_iff_exists'.1 hne
    rw [search, hfind]

/-- A pool of slots that is doubled has a free one. -/
theorem available_grown (hlen : p.m_vecPMem.length = p.m_nMax) (hpos : 0 < p.m_nMax) (inits : List InitResult) :
    findAvailable (p.grown inits).m_vecPMem 0 1 ≠ none := by
  rw [findAvailable_grown, resize_double hlen, ← freeRun_iff Nat.zero_lt_one]
  refine ⟨p.m_nMax, fun j hj hlt => ⟨.new, ?_, rfl⟩⟩
  rw [List.getElem?_append_right (by omega), List.getElem?_replicate, if_pos (by omega)]

/-- The old slots are there as they were, and the calls of `InitObj` are for the new ones. -/
theorem grown_eq (hlen : p.m_vecPMem.length = p.m_nMax) (inits : List InitResult) : p.grown inits =
    ⟨p.m_nMax * 2, p.m_vecPMem ++ (initNodes (List.replicate p.m_nMax .new) inits).1⟩ := by
  rw [grown, resized, initFrom, resize_double hlen]
  dsimp only
  rw [← hlen, List.take_left, List.drop_left]

theorem getUsed_grown (hlen : p.m_vecPMem.length = p.m_nMax) (inits : List InitResult) :
    (p.grown inits).getUsed = p.getUsed := by
  have hflags : (p.grown inits).m_vecPMem.map TNode.nFlag = (resize p.m_vecPMem (p.m_nMax * 2)).map TNode.nFlag := by
    refine List.ext_getElem? fun i => ?_
    rw [List.getElem?_map, List.getElem?_map]
    exact getElem_initFrom ..
  have hcount : ∀ xs : List TNode, xs.countP (fun x => x.nFlag ≠ 0) = (xs.map TNode.nFlag).countP (· ≠ 0) := by
    intro xs
    rw [List.countP_map]
    rfl
  rw [getUsed, getUsed, hcount, hflags, ← hcount, resize_double hlen, List.countP_append, List.countP_replicate]
  rfl

/-- The slots that are used, when a flag changes. -/
theorem getUsed_modify {x : TNode} (flag : Nat) (hx : p.m_vecPMem[i]? = some x) :
    getUsed { p with m_vecPMem := p.m_vecPMem.modify i (·.setFlag flag) } + (decide (x.nFlag ≠ 0)).toNat =
      p.getUsed + (decide (flag ≠ 0)).toNat := by
  have hset : p.m_vecPMem.modify i (·.setFlag flag) = p.m_vecPMem.set i (x.setFlag flag) := by
    refine List.ext_getElem? fun j => ?_
    rw [getElem?_setFlag, List.getElem?_set]
    by_cases hij : i = j
    · subst hij
      rw [hx, if_pos rfl, if_pos (List.getElem?_eq_some_iff.1 hx).1, Option.map_some, if_pos rfl]
    · simp [hij]
  rw [getUsed, getUsed, hset]
  exact Threads.countP_set hx

theorem pointer_modify (p : ObjPool) (i flag k : Nat) :
    pointer { p with m_vecPMem := p.m_vecPMem.modify i (·.setFlag flag) } k = p.pointer k := by
  rw [pointer, pointer]
  dsimp only
  rw [getElem?_setFlag, Option.bind_map]
  refine congrArg _ (funext fun x => ?_)
  simp only [Function.comp_apply]
  split_ifs <;> rfl

theorem pData_modify {xs : List TNode} {x : TNode} {flag k : Nat} (h : (xs.modify i (·.setFlag flag))[k]? = some x) :
    ∃ y, xs[k]? = some y ∧ x.pData = y.pData := by
  rw [getElem?_setFlag, Option.map_eq_some_iff] at h
  obtain ⟨y, hy, rfl⟩ := h
  refine ⟨y, hy, ?_⟩
  split_ifs <;> rfl

theorem marked_modify {flag k : Nat} (hne : i ≠ k) :
    Marked { p with m_vecPMem := p.m_vecPMem.modify i (·.setFlag flag) } k ↔ p.Marked k := by
  rw [Marked, Marked]
  dsimp only
  rw [getElem?_setFlag]
  simp [hne]

end ObjPool

/-- The pool, and the pointers that `Alloc()` has returned and that were not given to `Free` since. -/
structure PoolOwner where
  pool : ObjPool
  live : List Nat

namespace PoolOwner

open ObjPool

inductive Call
  | alloc (inits : List InitResult)
  | free (p : Nat)

/-- The pool after `Init`. -/
def begin (size : Int) (inits : List InitResult) : PoolOwner := ⟨((⟨0, []⟩ : ObjPool).init size inits).1, []⟩

def step (s : PoolOwner) : Call → Except PoolFault PoolOwner
  | .alloc inits => do
    let r ← s.pool.alloc 1 inits
    match r.2 with
    | none => .ok ⟨r.1, s.live⟩
    | some p => .ok ⟨r.1, p :: s.live⟩
  | .free p => do
    let pool ← s.pool.free (some p) 1
    .ok ⟨pool, s.live.erase p⟩

/-- `InitObj` makes new objects, and only live pointers are freed. -/
def Allowed (s : PoolOwner) : Call → Prop
  | .alloc inits => Fresh s.pool inits
  | .free p => p ∈ s.live

/-- A pool without a free slot has slots, and not too many to count twice as many. -/
def Covered (s : PoolOwner) : Call → Prop
  | .alloc _ => FreeRun s.pool.m_vecPMem 1 ∨ 0 < s.pool.m_nMax ∧ s.pool.m_nMax < 32768
  | .free _ => True

/-- `expand` adds slots, keeps those that there are, and calls `InitObj` for the new ones. -/
def Expands (p p' : ObjPool) (inits : List InitResult) : Prop :=
  ∃ m, 0 < m ∧ p'.m_nMax = p.m_nMax + m ∧
    p'.m_vecPMem = p.m_vecPMem ++ (initNodes (List.replicate m .new) inits).1

/-- As many pointers are live as slots are used, and each is found by `Free` in a slot that is used. -/
structure Balanced (s : PoolOwner) : Prop where
  distinct : s.live.Nodup
  used : s.live.length = s.pool.getUsed
  found : ∀ p ∈ s.live, ∃ i, s.pool.m_vecPMem.findIdx? (fun x => x.pData = some p) = some i ∧ s.pool.Marked i

/-- If the call makes the pool grow it does so as it should. -/
def Grows (s : PoolOwner) : Call → Prop
  | .alloc inits => ¬FreeRun s.pool.m_vecPMem 1 → Expands s.pool (s.pool.expand inits).1 inits
  | .free _ => True

structure Inv (s : PoolOwner) : Prop where
  length : s.pool.m_vecPMem.length = s.pool.m_nMax
  counts : s.pool.m_nMax < 65536
  objects : Distinct s.pool
  distinct : s.live.Nodup
  used : s.live.length = s.pool.getUsed
  stands : ∀ p ∈ s.live, ∃ i, s.pool.pointer i = some p ∧ s.pool.Marked i

variable {s t : PoolOwner} {inits : List InitResult} {p : Nat}

theorem Inv.balanced (hs : Inv s) : Balanced s where
  distinct := hs.distinct
  used := hs.used
  found p hp := (hs.stands p hp).imp fun _ h => ⟨hs.objects.findIdx? h.1, h.2⟩

/-- The pool grows. -/
theorem Inv.grown (hs : Inv s) (hfresh : Fresh s.pool inits) (hmax : s.pool.m_nMax < 32768) :
    Inv { s with pool := s.pool.grown inits } where
  length := length_grown ..
  counts := by
    change s.pool.m_nMax * 2 < 65536
    omega
  objects := (hs.objects.resized _).initFrom (hfresh.resized _)
  distinct := hs.distinct
  used := hs.used.trans (getUsed_grown hs.length inits).symm
  stands p hp := by
    obtain ⟨i, hptr, hmarked⟩ := hs.stands p hp
    have hlen := hs.length
    have hlt : i < s.pool.m_nMax := by
      obtain ⟨x, hx, -⟩ := hmarked
      have := (List.getElem?_eq_some_iff.1 hx).1
      omega
    exact ⟨i, (pointer_grown hlen hlt).trans hptr, marked_grown hlen hmarked⟩

/-- A free slot is handed out. -/
theorem Inv.take {i : Nat} (hs : Inv s) (hx : s.pool.m_vecPMem[i]? = some ⟨0, some p⟩) :
    Inv ⟨{ s.pool with m_vecPMem := s.pool.m_vecPMem.modify i (·.setFlag 1) }, p :: s.live⟩ := by
  have hptr : s.pool.pointer i = some p := by
    rw [pointer, hx]
    rfl
  constructor
  case length => exact (List.length_modify _ _ _).trans hs.length
  case counts => exact hs.counts
  case objects =>
    intro j k q hj hk
    rw [pointer_modify] at hj hk
    exact hs.objects j k q hj hk
  case distinct =>
    refine List.nodup_cons.2 ⟨fun hp => ?_, hs.distinct⟩
    -- the slot of a live pointer is used, and this one is free
    obtain ⟨j, hj, y, hy, hflag⟩ := hs.stands p hp
    rw [hs.objects j i p hj hptr, hx] at hy
    cases hy
    exact hflag rfl
  case used =>
    have hcount := getUsed_modify 1 hx
    have hused := hs.used
    simp at hcount
    rw [List.length_cons, hused]
    exact hcount.symm
  case stands =>
    intro q hq
    rcases List.mem_cons.1 hq with rfl | hq
    · refine ⟨i, (pointer_modify ..).trans hptr, ⟨1, some q⟩, ?_, Nat.one_ne_zero⟩
      rw [getElem?_setFlag, hx]
      simp [TNode.setFlag]
    · obtain ⟨j, hj, hmarked⟩ := hs.stands q hq
      refine ⟨j, (pointer_modify ..).trans hj, ?_⟩
      by_cases hij : i = j
      · subst hij
        obtain ⟨y, hy, hflag⟩ := hmarked
        rw [hx] at hy
        cases hy
        exact absurd rfl hflag
      · exact (marked_modify hij).2 hmarked

/-- `Free` finds the slot of a live pointer. -/
theorem Inv.freed (hs : Inv s) (hp : p ∈ s.live) : ∃ i,
    s.pool.free (some p) 1 = .ok { s.pool with m_vecPMem := s.pool.m_vecPMem.modify i (·.setFlag 0) } ∧
      Inv ⟨{ s.pool with m_vecPMem := s.pool.m_vecPMem.modify i (·.setFlag 0) }, s.live.erase p⟩ := by
  obtain ⟨i, hptr, x, hx, hflag⟩ := hs.stands p hp
  refine ⟨i, ?_, ?_⟩
  · rw [ObjPool.free, hs.objects.findIdx? hptr]
    dsimp only
    rw [setFlags_one, setFlag, if_pos (List.getElem?_eq_some_iff.1 hx).1]
  · constructor
    case length => exact (List.length_modify _ _ _).trans hs.length
    case counts => exact hs.counts
    case objects =>
      intro j k q hj hk
      rw [pointer_modify] at hj hk
      exact hs.objects j k q hj hk
    case distinct => exact hs.distinct.erase p
    case used =>
      have hcount := getUsed_modify 0 hx
      simp [hflag] at hcount
      rw [List.length_erase_of_mem hp, hs.used, ← hcount]
      rfl
    case stands =>
      intro q hq
      obtain ⟨hne, hq⟩ := hs.distinct.mem_erase_iff.1 hq
      obtain ⟨j, hj, hmarked⟩ := hs.stands q hq
      refine ⟨j, (pointer_modify ..).trans hj, (marked_modify ?_).2 hmarked⟩
      rintro rfl
      exact hne (Option.some.inj (hj.symm.trans hptr))

theorem Inv.free (hs : Inv s) (hp : p ∈ s.live) : ∃ t, s.step (.free p) = .ok t ∧ Inv t := by
  obtain ⟨i, hfree, hinv⟩ := hs.freed hp
  exact ⟨_, bind_eq_ok.2 ⟨_, hfree, rfl⟩, hinv⟩

/-- What `Alloc()` makes of the pool, and of the live pointers when it returns one. -/
theorem Inv.allocated (hs : Inv s) (hfresh : Fresh s.pool inits) (hcov : Covered s (.alloc inits)) :
    ∃ p₁, (p₁ = s.pool ∨ s.pool.m_nMax < 32768 ∧ p₁ = s.pool.grown inits) ∧
      (s.pool.alloc 1 inits = .ok (p₁, none) ∧ Inv { s with pool := p₁ } ∧
          ((s.pool.expand inits).2 = false ∨ ∃ i : Nat, p₁.m_vecPMem[i]? = some ⟨0, none⟩) ∨
        ∃ i q, s.pool.alloc 1 inits = .ok ({ p₁ with m_vecPMem := p₁.m_vecPMem.modify i (·.setFlag 1) }, some q) ∧
          Inv ⟨{ p₁ with m_vecPMem := p₁.m_vecPMem.modify i (·.setFlag 1) }, q :: s.live⟩) := by
  have hfound : findAvailable s.pool.m_vecPMem 0 1 ≠ none ∨ s.pool.m_nMax < 32768 ∧
      ((s.pool.expand inits).2 = false ∨ findAvailable (s.pool.grown inits).m_vecPMem 0 1 ≠ none) :=
    hcov.imp (freeRun_iff Nat.zero_lt_one).1 fun ⟨hpos, hmax⟩ => ⟨hmax, .inr (available_grown hs.length hpos inits)⟩
  obtain ⟨p₁, hp₁, hcases⟩ := alloc_cases hfound
  have hinv : Inv { s with pool := p₁ } := by
    rcases hp₁ with rfl | ⟨-, hmax, rfl⟩
    · exact hs
    · exact hs.grown hfresh hmax
  refine ⟨p₁, hp₁.imp_right fun h => h.2, hcases.imp (fun h => ⟨h.1, hinv, h.2⟩) ?_⟩
  rintro ⟨i, q, hx, halloc⟩
  exact ⟨i, q, halloc, hinv.take hx⟩

theorem Inv.alloc (hs : Inv s) (hfresh : Fresh s.pool inits) (hcov : Covered s (.alloc inits)) :
    ∃ t, s.step (.alloc inits) = .ok t ∧ Inv t := by
  obtain ⟨p₁, -, hcases⟩ := hs.allocated hfresh hcov
  rw [step]
  rcases hcases with ⟨halloc, hinv, -⟩ | ⟨i, q, halloc, hinv⟩
  · exact ⟨_, by rw [halloc]; rfl, hinv⟩
  · exact ⟨_, by rw [halloc]; rfl, hinv⟩

theorem Inv.step {x : Call} (hs : Inv s) (hallowed : Allowed s x) (hcov : Covered s x) :
    ∃ t, s.step x = .ok t ∧ Inv t := by
  cases x with
  | alloc inits => exact hs.alloc hallowed hcov
  | free p => exact hs.free hallowed

/-- A call that makes the pool grow does so as it should exactly when the doubled number of slots can be counted. -/
theorem Inv.grows_iff_covered {x : Call} (hs : Inv s) : Grows s x ↔ Covered s x := by
  cases x with
  | free p => exact Iff.rfl
  | alloc inits =>
    rw [Grows, Covered, or_iff_not_imp_left]
    refine imp_congr_right fun _ => ⟨fun ⟨m, hpos, hmax, hslots⟩ => ?_, fun ⟨hpos, hmax⟩ => ?_⟩
    · have hcounts := hs.counts
      have heq : (s.pool.expand inits).1.m_nMax = s.pool.m_nMax * 2 % 65536 := rfl
      rw [heq] at hmax
      omega
    · obtain ⟨b, hexpand, -⟩ := expand_eq inits hmax
      refine ⟨s.pool.m_nMax, hpos, ?_, ?_⟩
      · rw [hexpand, grown_eq hs.length]
        dsimp only
        omega
      · rw [hexpand, grown_eq hs.length]

theorem inv_begin (size : Int) (hfresh : Fresh ⟨0, []⟩ inits) : Inv (begin size inits) where
  length := (length_initFrom ..).trans (length_resize ..)
  counts := by
    change (size % 65536).toNat < 65536
    omega
  objects := Distinct.initFrom (k := 0) (Distinct.resized (fun i j q h => by cases h) (size % 65536).toNat) (hfresh.resized _)
  distinct := List.nodup_nil
  used := by
    refine (List.countP_eq_zero.2 fun x hx => ?_).symm
    obtain ⟨i, hi⟩ := List.mem_iff_getElem?.1 hx
    have h : ((begin size inits).pool.m_vecPMem[i]?).map TNode.nFlag = _ :=
      getElem_initFrom ((⟨0, []⟩ : ObjPool).resized (size % 65536).toNat) 0 inits i
    rw [hi, resized, getElem?_resize] at h
    split_ifs at h
    · cases x
      cases h
      exact Bool.false_ne_true
    · cases h
  stands p hp := absurd hp List.not_mem_nil

/-- Every state of the run is balanced and every growth is as it should be, exactly when the pool grows only from a number
of slots that can be doubled. -/
theorem grows_iff {size : Int} {calls : List Call} (hfresh : Fresh ⟨0, []⟩ inits)
    (hallowed : Along step Allowed (begin size inits) calls) :
    (Along step (fun s x => Balanced s ∧ Grows s x) (begin size inits) calls ∧
        ∃ s, calls.foldlM step (begin size inits) = .ok s ∧ Balanced s) ↔
      Along step Covered (begin size inits) calls := by
  have hbegin := inv_begin size hfresh
  have hstep : ∀ s x t, Inv s → Allowed s x ∧ Covered s x → s.step x = .ok t → Inv t := by
    intro s x t hs hx ht
    obtain ⟨t', ht', hinv⟩ := hs.step hx.1 hx.2
    cases ht.symm.trans ht'
    exact hinv
  have hcongr : Along step (fun s x => Allowed s x ∧ Covered s x) (begin size inits) calls ↔
      Along step (fun s x => Allowed s x ∧ Grows s x) (begin size inits) calls :=
    along_congr Inv hbegin (fun s x hs => and_congr_right fun _ => hs.grows_iff_covered.symm) hstep
  constructor
  case mp =>
    rintro ⟨hgrows, -⟩
    have hboth := hallowed.and (hgrows.imp fun _ _ h => h.2)
    exact (hcongr.2 hboth).imp fun _ _ h => h.2
  case mpr =>
    intro hcov
    have hboth := hallowed.and hcov
    refine ⟨?_, ?_⟩
    · have hinv := (along_congr Inv hbegin (fun s x hs => (and_iff_right hs).symm) hstep).1 hboth
      exact hinv.imp fun s x h => ⟨h.1.balanced, h.1.grows_iff_covered.2 h.2.2⟩
    · obtain ⟨s, hrun, hs⟩ := hboth.run Inv hbegin fun s x hs hx => hs.step hx.1 hx.2
      exact ⟨s, hrun, hs.balanced⟩

instance {x : Call} {s : PoolOwner} : Decidable (Allowed s x) :=
  match x with
  | .alloc _ => inferInstanceAs (Decidable (Fresh _ _))
  | .free _ => inferInstanceAs (Decidable (_ ∈ _))

instance {x : Call} {s : PoolOwner} : Decidable (Covered s x) :=
  match x with
  | .alloc _ => inferInstanceAs (Decidable (FreeRun _ 1 ∨ _ ∧ _))
  | .free _ => inferInstanceAs (Decidable True)

/-- A pool of one slot grows twice; an object is given back on the way. -/
theorem grows_iff_three : (Along step (fun s x => Balanced s ∧ Grows s x) (begin 1 [⟨some (some 11), true⟩])
      [.alloc [], .alloc [⟨some (some 12), true⟩], .free 11, .alloc [],
        .alloc [⟨some (some 13), true⟩, ⟨some (some 14), true⟩], .free 13] ∧
    ∃ s, [Call.alloc [], .alloc [⟨some (some 12), true⟩], .free 11, .alloc [],
        .alloc [⟨some (some 13), true⟩, ⟨some (some 14), true⟩], .free 13].foldlM step
          (begin 1 [⟨some (some 11), true⟩]) = .ok s ∧ Balanced s) :=
  (grows_iff (by decide +kernel) (by decide +kernel)).2 (by decide +kernel)

/-- A size that is a multiple of 65536 gives no slots, and doubling them gives none. -/
theorem not_grows_wrapped : ¬∀ (size : Int) (inits : List InitResult) (calls : List Call), 1 ≤ size → Fresh ⟨0, []⟩ inits →
    Along step Allowed (begin size inits) calls →
      Along step (fun s x => Balanced s ∧ Grows s x) (begin size inits) calls ∧
        ∃ s, calls.foldlM step (begin size inits) = .ok s ∧ Balanced s := by
  intro h
  obtain ⟨-, s, hs, -⟩ := h 65536 [] [.alloc []] (by decide) (by decide +kernel) (by decide +kernel)
  cases hs

end PoolOwner
