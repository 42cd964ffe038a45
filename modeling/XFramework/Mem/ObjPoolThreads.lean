/-
`Alloc` and `Free` of several threads (Mem/ObjPool.h).

`Alloc` looks for free slots under the lock, and marks them when it has given
the lock back: until then the slots are free for the next search. As long as
no search takes slots that an `Alloc` on the way has found and not marked, the
slots of allocations that have returned are apart (`disjoint_run`).
-/
import XFramework.Mem.ObjPoolAlloc
import XFramework.Lib.Threads

open Fallible

/-- A call of `Alloc`: it has marked `i` slots of the `n` from `nIndex` on, or has returned them; it is over when it
has returned `NULL` or its slots are freed. -/
inductive AllocCall
  | marking (nIndex n i : Nat) (pRet : Nat)
  | returned (nIndex n : Nat) (pRet : Nat)
  | ended
  deriving DecidableEq

structure PoolThreads where
  pool : ObjPool
  calls : List AllocCall

namespace PoolThreads

inductive Step
  | search (n : Nat) (inits : List InitResult)
  | mark (i : Nat)
  | free (i : Nat)

/-- The pool after `Init`. -/
def begin (size : Int) (inits : List InitResult) : PoolThreads := ⟨((⟨0, []⟩ : ObjPool).init size inits).1, []⟩

/-- The section of a new `Alloc`, then its loop slot by slot, then the `Free` of what it has returned. A thread without
such a step does nothing. -/
def step (s : PoolThreads) : Step → Except PoolFault PoolThreads
  | .search n inits => do
    let r ← s.pool.search n inits
    match r.2.2 with
    | none => .ok ⟨r.1, s.calls ++ [.ended]⟩
    | some q => .ok ⟨r.1, s.calls ++ [.marking r.2.1 n 0 q]⟩
  | .mark c =>
    match s.calls[c]? with
    | some (.marking nIndex n i q) =>
      if i < n then do
        let pool ← s.pool.setFlag (nIndex + i) 1
        .ok ⟨pool, s.calls.set c (.marking nIndex n (i + 1) q)⟩
      else .ok ⟨s.pool, s.calls.set c (.returned nIndex n q)⟩
    | _ => .ok s
  | .free c =>
    match s.calls[c]? with
    | some (.returned _ n q) => do
      let pool ← s.pool.free (some q) n
      .ok ⟨pool, s.calls.set c .ended⟩
    | _ => .ok s

end PoolThreads

namespace AllocCall

/-- The slots of a call that is not over. -/
def Has : AllocCall → Nat → Prop
  | .marking nIndex n _ _, k | .returned nIndex n _, k => nIndex ≤ k ∧ k < nIndex + n
  | .ended, _ => False

/-- The slots that the call has found and not marked. -/
def Unmarked : AllocCall → Nat → Prop
  | .marking nIndex n i _, k => nIndex + i ≤ k ∧ k < nIndex + n
  | _, _ => False

/-- The slots of an allocation that has returned and was not freed. -/
def Owns : AllocCall → Nat → Prop
  | .returned nIndex n _, k => nIndex ≤ k ∧ k < nIndex + n
  | _, _ => False

/-- The slot whose object the call returns. -/
def First : AllocCall → Nat → Nat → Prop
  | .marking nIndex _ _ pRet, k, q | .returned nIndex _ pRet, k, q => k = nIndex ∧ q = pRet
  | .ended, _, _ => False

instance : ∀ {c : AllocCall} {k : Nat}, Decidable (c.Unmarked k)
  | .marking _ _ _ _, _ => inferInstanceAs (Decidable (_ ∧ _))
  | .returned _ _ _, _ | .ended, _ => inferInstanceAs (Decidable False)

variable {c : AllocCall} {k : Nat}

theorem Owns.has (h : c.Owns k) : c.Has k := by
  cases c with
  | marking nIndex n i q => cases h
  | returned nIndex n q => exact h
  | ended => cases h

end AllocCall

namespace PoolThreads

open ObjPool

/-- A call that is not over has its slots, all marked but those to come, and the object of the first one. -/
structure Stands (p : ObjPool) (c : AllocCall) : Prop where
  inside : ∀ k, c.Has k → k < p.m_vecPMem.length
  marked : ∀ k, c.Has k → c.Unmarked k ∨ p.Marked k
  first : ∀ k q, c.First k q → p.pointer k = some q ∧ k < p.m_vecPMem.length

theorem stands_ended (p : ObjPool) : Stands p .ended :=
  ⟨fun _ h => h.elim, fun _ h => h.elim, fun _ _ h => h.elim⟩

structure Inv (s : PoolThreads) : Prop where
  length : s.pool.m_vecPMem.length = s.pool.m_nMax
  distinct : Distinct s.pool
  stands : ∀ (i : Nat) c, s.calls[i]? = some c → Stands s.pool c
  apart : ∀ (i j : Nat) c d k, s.calls[i]? = some c → s.calls[j]? = some d → c.Has k → d.Has k → i = j

variable {s t : PoolThreads} {c d : AllocCall} {pool : ObjPool} {n i nIndex q : Nat} {inits : List InitResult}

/-- A call is added whose slots no other one has. -/
theorem Inv.concat (hs : Inv s) (hd : Stands s.pool d) (hnew : ∀ c ∈ s.calls, ∀ k, d.Has k → ¬c.Has k) :
    Inv { s with calls := s.calls ++ [d] } where
  length := hs.length
  distinct := hs.distinct
  stands j c hc := by
    rcases Threads.getElem?_concat.1 hc with hc | ⟨-, rfl⟩
    · exact hs.stands j c hc
    · exact hd
  apart j j' c c' k hc hc' hk hk' := by
    rcases Threads.getElem?_concat.1 hc with hc | ⟨hj, rfl⟩
    · rcases Threads.getElem?_concat.1 hc' with hc' | ⟨-, rfl⟩
      · exact hs.apart j j' c c' k hc hc' hk hk'
      · exact absurd hk (hnew c (List.mem_of_getElem? hc) k hk')
    · rcases Threads.getElem?_concat.1 hc' with hc' | ⟨hj', -⟩
      · exact absurd hk' (hnew c' (List.mem_of_getElem? hc') k hk)
      · exact hj.trans hj'.symm

/-- What a step of a call leaves of the pool: the objects, and the flags of other calls' slots. -/
structure Leaves (p p' : ObjPool) (c : AllocCall) : Prop where
  size : p'.m_nMax = p.m_nMax
  length : p'.m_vecPMem.length = p.m_vecPMem.length
  pointer : ∀ k, p'.pointer k = p.pointer k
  marked : ∀ k, p.Marked k → p'.Marked k ∨ c.Has k

/-- A call makes a step, with no slots but those it has. -/
theorem Inv.set (hs : Inv s) (hc : s.calls[i]? = some c) (hleaves : Leaves s.pool pool c) (hd : Stands pool d)
    (hhas : ∀ k, d.Has k → c.Has k) : Inv ⟨pool, s.calls.set i d⟩ := by
  have hget : ∀ (j : Nat) c', (s.calls.set i d)[j]? = some c' →
      (j = i ∧ c' = d) ∨ (j ≠ i ∧ s.calls[j]? = some c') := by
    intro j c' h
    rw [List.getElem?_set] at h
    by_cases hij : i = j
    · rw [if_pos hij] at h
      split_ifs at h
      cases h
      exact .inl ⟨hij.symm, rfl⟩
    · rw [if_neg hij] at h
      exact .inr ⟨Ne.symm hij, h⟩
  constructor
  case length => rw [hleaves.length, hleaves.size, hs.length]
  case distinct =>
    intro j j' q hj hj'
    rw [hleaves.pointer] at hj hj'
    exact hs.distinct j j' q hj hj'
  case stands =>
    intro j c' hc'
    rcases hget j c' hc' with ⟨-, rfl⟩ | ⟨hne, hc'⟩
    · exact hd
    · obtain ⟨hinside, hmarked, hfirst⟩ := hs.stands j c' hc'
      refine ⟨fun k hk => ?_, fun k hk => ?_, fun k q hk => ?_⟩
      · rw [hleaves.length]
        exact hinside k hk
      · refine (hmarked k hk).imp_right fun h => (hleaves.marked k h).resolve_right fun hck => ?_
        exact hne (hs.apart j i c' c k hc' hc hk hck)
      · rw [hleaves.length, hleaves.pointer]
        exact hfirst k q hk
  case apart =>
    intro j j' c₁ c₂ k h₁ h₂ hk₁ hk₂
    rcases hget j c₁ h₁ with ⟨rfl, rfl⟩ | ⟨-, hold₁⟩
    · rcases hget j' c₂ h₂ with ⟨rfl, -⟩ | ⟨-, hold₂⟩
      · rfl
      · exact hs.apart j j' c c₂ k hc hold₂ (hhas k hk₁) hk₂
    · rcases hget j' c₂ h₂ with ⟨rfl, rfl⟩ | ⟨-, hold₂⟩
      · exact hs.apart j j' c₁ c k hold₁ hc hk₁ (hhas k hk₂)
      · exact hs.apart j j' c₁ c₂ k hold₁ hold₂ hk₁ hk₂

/-- The pool grows. -/
theorem Inv.grown (hs : Inv s) (hfresh : Fresh s.pool inits) : Inv { s with pool := s.pool.grown inits } where
  length := length_grown ..
  distinct := (hs.distinct.resized _).initFrom (hfresh.resized _)
  stands i c hc := by
    obtain ⟨hinside, hmarked, hfirst⟩ := hs.stands i c hc
    have hlen := hs.length
    refine ⟨fun k hk => ?_, fun k hk => ?_, fun k q hk => ?_⟩
    · have := hinside k hk
      rw [length_grown]
      omega
    · exact (hmarked k hk).imp_right (marked_grown hlen)
    · obtain ⟨hq, hlt⟩ := hfirst k q hk
      rw [length_grown, pointer_grown hlen (by omega)]
      exact ⟨hq, by omega⟩
  apart := hs.apart

/-- Objects are new. -/
def Allowed (s : PoolThreads) : Step → Prop
  | .search _ inits => Fresh s.pool inits
  | _ => True

/-- `n` slots, none of which another `Alloc` has found and not marked yet. -/
def Open (s : PoolThreads) (n : Nat) : Option Nat → Prop
  | none => False
  | some nIndex => 0 < n ∧ ∀ c ∈ s.calls, ∀ k < n, ¬c.Unmarked (nIndex + k)

/-- A pool without a run of free slots grows to a number of slots that it can count, and has such a run then, or
`InitObj` fails for one of the new slots. -/
def Grows (s : PoolThreads) (n : Nat) (inits : List InitResult) : Prop :=
  s.pool.m_nMax < 32768 ∧ ((∃ i < s.pool.m_nMax, (inits[i]?).any InitResult.ok = false) ∨
    s.Open n (findAvailable (resize s.pool.m_vecPMem (s.pool.m_nMax * 2)) 0 n))

/-- The search takes no slots that are on their way to another caller. -/
def Covered (s : PoolThreads) : Step → Prop
  | .search n inits =>
    if findAvailable s.pool.m_vecPMem 0 n = none then s.Grows n inits
    else s.Open n (findAvailable s.pool.m_vecPMem 0 n)
  | _ => True

/-- What `Alloc` finds under the lock. -/
inductive Found (s : PoolThreads) (n : Nat) : Except PoolFault (ObjPool × Nat × Option Nat) → Prop
  | null {p : ObjPool} {i : Nat} (inv : Inv { s with pool := p }) : Found s n (.ok (p, i, none))
  | slots {p : ObjPool} {i : Nat} {r : Option Nat} (inv : Inv { s with pool := p }) (opens : s.Open n (some i))
      (pointer : p.pointer i = r) (inside : i + n ≤ p.m_vecPMem.length) (flagged : Flagged p.m_vecPMem 0 i (i + n)) :
      Found s n (.ok (p, i, r))

theorem found_of_open {p : ObjPool} {found : Option Nat} (hinv : Inv { s with pool := p })
    (hfind : findAvailable p.m_vecPMem 0 n = found) (hopen : s.Open n found) :
    Found s n (p.readAt found >>= fun r => .ok (p, r)) := by
  cases found with
  | none => exact hopen.elim
  | some i =>
    obtain ⟨hlen, hflag⟩ := findAvailable_spec hopen.1 hfind
    obtain ⟨x, hx, -⟩ := hflag i (Nat.le_refl i) (Nat.lt_add_of_pos_right hopen.1)
    rw [readAt, hx]
    refine .slots hinv hopen ?_ hlen hflag
    rw [ObjPool.pointer, hx]
    rfl

theorem Inv.search (hs : Inv s) (hfresh : Fresh s.pool inits) (hcov : Covered s (.search n inits)) :
    Found s n (s.pool.search n inits) := by
  rw [Covered] at hcov
  rw [ObjPool.search]
  cases hfind : findAvailable s.pool.m_vecPMem 0 n with
  | some i =>
    rw [hfind] at hcov
    exact found_of_open hs hfind hcov
  | none =>
    rw [if_pos hfind] at hcov
    obtain ⟨hmax, hcov⟩ := hcov
    obtain ⟨b, hexpand, hok⟩ := expand_eq inits hmax
    dsimp only
    rw [hexpand]
    cases b with
    | false => exact .null (hs.grown hfresh)
    | true =>
      have hopen := hcov.resolve_left fun hfails => by
        obtain ⟨i, hi, hfail⟩ := hfails
        rw [hok.1 rfl i hi] at hfail
        cases hfail
      rw [← findAvailable_grown s.pool inits] at hopen
      exact found_of_open (hs.grown hfresh) rfl hopen

/-- The section of `Alloc`. -/
theorem Inv.searched (hs : Inv s) (hfresh : Fresh s.pool inits) (hcov : Covered s (.search n inits)) :
    ∃ t, s.step (.search n inits) = .ok t ∧ Inv t := by
  have hfound := hs.search hfresh hcov
  rw [step]
  generalize s.pool.search n inits = e at hfound ⊢
  have hended : ∀ {p : ObjPool}, Inv { s with pool := p } → Inv ⟨p, s.calls ++ [.ended]⟩ :=
    fun hinv => hinv.concat (stands_ended _) fun _ _ _ h => h.elim
  cases hfound with
  | null hinv => exact ⟨_, rfl, hended hinv⟩
  | @slots p i r hinv hopen hptr hin hflag =>
    cases r with
    | none => exact ⟨_, rfl, hended hinv⟩
    | some q =>
      refine ⟨_, rfl, hinv.concat ⟨fun k hk => Nat.lt_of_lt_of_le hk.2 hin, fun k hk => .inl hk, ?_⟩ ?_⟩
      · rintro k q ⟨rfl, rfl⟩
        exact ⟨hptr, Nat.lt_of_lt_of_le (Nat.lt_add_of_pos_right hopen.1) hin⟩
      · -- a slot of another call is marked, or to be marked
        intro c hc k hk hck
        obtain ⟨j, hj⟩ := List.mem_iff_getElem?.1 hc
        rcases (hinv.stands j c hj).marked k hck with hunmarked | ⟨x, hx, hxflag⟩
        · obtain ⟨m, rfl⟩ := Nat.exists_eq_add_of_le hk.1
          exact hopen.2 c hc m (Nat.add_lt_add_iff_left.1 hk.2) hunmarked
        · obtain ⟨y, hy, hyflag⟩ := hflag k hk.1 hk.2
          cases hx.symm.trans hy
          exact hxflag hyflag

/-- The slots of a range are marked when the flag says so, the others as before. -/
theorem marked_setFlags {p : ObjPool} {nodes : List TNode} {flag k : Nat}
    (hget : ∀ k, nodes[k]? = p.m_vecPMem[k]?.map fun x => if nIndex ≤ k ∧ k < nIndex + n then x.setFlag flag else x) :
    Marked { p with m_vecPMem := nodes } k ↔
      if nIndex ≤ k ∧ k < nIndex + n then k < p.m_vecPMem.length ∧ flag ≠ 0 else p.Marked k := by
  rw [Marked, Marked]
  dsimp only
  rw [hget]
  split_ifs with hk
  · constructor
    case mp =>
      rintro ⟨x, hx, hflag⟩
      obtain ⟨y, hy, rfl⟩ := Option.map_eq_some_iff.1 hx
      exact ⟨(List.getElem?_eq_some_iff.1 hy).1, hflag⟩
    case mpr =>
      rintro ⟨hlt, hflag⟩
      exact ⟨_, congrArg _ (List.getElem?_eq_getElem hlt), hflag⟩
  · rw [Option.map_id']

theorem leaves_setFlags {p : ObjPool} {nodes : List TNode} {flag : Nat}
    (hget : ∀ k, nodes[k]? = p.m_vecPMem[k]?.map fun x => if nIndex ≤ k ∧ k < nIndex + n then x.setFlag flag else x)
    (hin : ∀ k, nIndex ≤ k ∧ k < nIndex + n → c.Has k) : Leaves p { p with m_vecPMem := nodes } c where
  size := rfl
  length := by
    refine Nat.le_antisymm ?_ ?_
    · rw [← List.getElem?_eq_none_iff, hget, List.getElem?_eq_none (Nat.le_refl _)]
      rfl
    · rw [← List.getElem?_eq_none_iff, ← Option.map_eq_none_iff, ← hget, List.getElem?_eq_none (Nat.le_refl _)]
  pointer k := by
    rw [ObjPool.pointer, ObjPool.pointer, hget, Option.bind_map]
    refine congrArg _ (funext fun x => ?_)
    simp only [Function.comp_apply]
    split_ifs <;> rfl
  marked k hk := by
    rw [marked_setFlags hget]
    split_ifs with h
    · exact .inr (hin k h)
    · exact .inl hk

theorem Inv.mark (hs : Inv s) (c : Nat) : ∃ t, s.step (.mark c) = .ok t ∧ Inv t := by
  rw [step]
  cases hc : s.calls[c]? with
  | none => exact ⟨s, rfl, hs⟩
  | some call =>
    cases call with
    | returned nIndex n q => exact ⟨s, rfl, hs⟩
    | ended => exact ⟨s, rfl, hs⟩
    | marking nIndex n i q =>
      obtain ⟨hinside, hmarked, hfirst⟩ := hs.stands c _ hc
      dsimp only
      by_cases hi : i < n
      · have hlt := hinside (nIndex + i) ⟨by omega, by omega⟩
        obtain ⟨nodes, hrun, hget⟩ := s.pool.setFlags_spec (n := 1) 1 hlt
        have hleaves : Leaves s.pool { s.pool with m_vecPMem := nodes } (.marking nIndex n i q) :=
          leaves_setFlags hget fun k hk => ⟨by omega, by omega⟩
        rw [if_pos hi, ← setFlags_one, hrun]
        refine ⟨_, rfl, hs.set hc hleaves ⟨fun k hk => ?_, fun k hk => ?_, fun k p hk => ?_⟩ fun k hk => hk⟩
        · rw [hleaves.length]
          exact hinside k hk
        · -- the slot was just marked, or is as it was
          rw [marked_setFlags hget]
          by_cases hk' : nIndex + i ≤ k ∧ k < nIndex + i + 1
          · rw [if_pos hk']
            exact .inr ⟨hinside k hk, Nat.one_ne_zero⟩
          · rw [if_neg hk']
            refine (hmarked k hk).imp_left fun h => ⟨?_, hk.2⟩
            have := h.1
            omega
        · rw [hleaves.length, hleaves.pointer]
          exact hfirst k p hk
      · rw [if_neg hi]
        have hleaves : Leaves s.pool s.pool (.marking nIndex n i q) := ⟨rfl, rfl, fun _ => rfl, fun _ h => .inl h⟩
        refine ⟨_, rfl, hs.set hc hleaves ⟨hinside, fun k hk => ?_, hfirst⟩ fun k hk => hk⟩
        refine .inr ((hmarked k hk).resolve_left fun h => ?_)
        have := h.1
        have := h.2
        omega

theorem Inv.free (hs : Inv s) (c : Nat) : ∃ t, s.step (.free c) = .ok t ∧ Inv t := by
  rw [step]
  cases hc : s.calls[c]? with
  | none => exact ⟨s, rfl, hs⟩
  | some call =>
    cases call with
    | marking nIndex n i q => exact ⟨s, rfl, hs⟩
    | ended => exact ⟨s, rfl, hs⟩
    | returned nIndex n q =>
      obtain ⟨hinside, -, hfirst⟩ := hs.stands c _ hc
      obtain ⟨hq, hlt⟩ := hfirst nIndex q ⟨rfl, rfl⟩
      have hin : nIndex + n ≤ s.pool.m_vecPMem.length := by
        cases n with
        | zero => exact Nat.le_of_lt hlt
        | succ n => exact hinside (nIndex + n) ⟨by omega, by omega⟩
      obtain ⟨nodes, hrun, hget⟩ := s.pool.setFlags_spec 0 hin
      dsimp only
      rw [ObjPool.free, hs.distinct.findIdx? hq]
      dsimp only
      rw [hrun]
      exact ⟨_, rfl, hs.set hc (leaves_setFlags hget fun k hk => hk) (stands_ended _) fun k hk => hk.elim⟩

theorem Inv.step {x : Step} (hs : Inv s) (hallowed : Allowed s x) (hcov : Covered s x) :
    ∃ t, s.step x = .ok t ∧ Inv t := by
  cases x with
  | search n inits => exact hs.searched hallowed hcov
  | mark c => exact hs.mark c
  | free c => exact hs.free c

theorem inv_begin (size : Int) (hfresh : Fresh ⟨0, []⟩ inits) : Inv (begin size inits) where
  length := (length_initFrom ..).trans (length_resize ..)
  distinct := Distinct.initFrom (k := 0) (Distinct.resized (fun i j q h => by cases h) (size % 65536).toNat) (hfresh.resized _)
  stands i c hc := by cases hc
  apart i j c d k hc := by cases hc

/-- Allocations that have returned, and were not freed, have no slot in common. -/
def Disjoint (s : PoolThreads) : Prop :=
  ∀ (i j : Nat) c d k, s.calls[i]? = some c → s.calls[j]? = some d → c.Owns k → d.Owns k → i = j

theorem Inv.disjoint (hs : Inv s) : Disjoint s :=
  fun i j c d k hc hd hk hk' => hs.apart i j c d k hc hd hk.has hk'.has

/-- In a run whose searches are covered every step is defined, and the slots of allocations that have returned are apart. -/
theorem disjoint_run {size : Int} {steps : List Step} (hfresh : Fresh ⟨0, []⟩ inits)
    (h : Along step (fun s x => Allowed s x ∧ Covered s x) (begin size inits) steps) :
    ∃ s, steps.foldlM step (begin size inits) = .ok s ∧ Disjoint s := by
  obtain ⟨s, hrun, hs⟩ := h.run Inv (inv_begin size hfresh) fun s x hs hx => hs.step hx.1 hx.2
  exact ⟨s, hrun, hs.disjoint⟩

instance {x : Step} : Decidable (Allowed s x) :=
  match x with
  | .search _ _ => inferInstanceAs (Decidable (Fresh _ _))
  | .mark _ | .free _ => inferInstanceAs (Decidable True)

instance : ∀ {found : Option Nat}, Decidable (Open s n found)
  | none => inferInstanceAs (Decidable False)
  | some _ => inferInstanceAs (Decidable (_ ∧ ∀ c ∈ _, ∀ k < _, _))

instance : Decidable (Grows s n inits) := inferInstanceAs (Decidable (_ ∧ ((∃ i < _, _) ∨ _)))

instance {x : Step} : Decidable (Covered s x) :=
  match x with
  | .search n _ => inferInstanceAs (Decidable (if findAvailable _ 0 n = none then Grows _ _ _ else Open _ _ _))
  | .mark _ | .free _ => inferInstanceAs (Decidable True)

/-- A thread searches while another one has two slots to mark; the pool grows. -/
theorem disjoint_run_two : ∃ s, [Step.search 1 [], .mark 0, .mark 0, .search 2 [], .free 0, .search 1 [], .mark 1, .mark 2,
      .mark 1, .mark 2, .mark 1, .search 2 [⟨some (some 14), true⟩, ⟨some (some 15), true⟩, ⟨some (some 16), true⟩],
      .mark 3, .mark 3, .mark 3].foldlM step
        (begin 3 [⟨some (some 11), true⟩, ⟨some (some 12), true⟩, ⟨some (some 13), true⟩]) = .ok s ∧ Disjoint s :=
  disjoint_run (by decide +kernel) (by decide +kernel)

/-- Two threads search before either has marked its slot. -/
theorem not_disjoint_searches : ¬∀ steps : List Step, Along step Allowed (begin 1 [⟨some (some 11), true⟩]) steps →
    ∃ s, steps.foldlM step (begin 1 [⟨some (some 11), true⟩]) = .ok s ∧ Disjoint s := by
  intro h
  obtain ⟨s, hs, hdisjoint⟩ := h [.search 1 [], .search 1 [], .mark 0, .mark 0, .mark 1, .mark 1] (by decide +kernel)
  cases hs
  have hslot : (AllocCall.returned 0 1 11).Owns 0 := ⟨Nat.le_refl 0, Nat.zero_lt_one⟩
  exact absurd (hdisjoint 0 1 _ _ 0 rfl rfl hslot hslot) Nat.zero_ne_one

end PoolThreads
