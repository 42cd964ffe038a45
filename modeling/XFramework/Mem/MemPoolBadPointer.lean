/-
`Free` and `Realloc` of a pointer that no user holds (Mem/MemPool.cpp).

`free` and `realloc` of `MemPool` give the pool only when they return. Here an
exception leaves a pool behind as well: the one at the `throw`, where `m_lock`
is held. That such a pointer is not in `m_record` holds in every run, whatever
else has gone wrong in it.
-/
import XFramework.Mem.MemPoolCarve
import XFramework.Mem.MemPoolRun

open Fallible Bytes

namespace MemPool

/-- How a call ends. An exception leaves a pool behind. -/
inductive Outcome (α : Type)
  | returned (s : MemPool) (a : α)
  | thrown (what : String) (s : MemPool)
  | stuck (f : Fault)

namespace Outcome

variable {α β : Type}

def bind (o : Outcome α) (f : MemPool → α → Outcome β) : Outcome β :=
  match o with
  | .returned s a => f s a
  | .thrown what s => .thrown what s
  | .stuck fault => .stuck fault

/-- A call that throws nothing. -/
def of : Except Fault (MemPool × α) → Outcome α
  | .ok (s, a) => .returned s a
  | .error f => .stuck f

/-- The call without the pool that an exception leaves. -/
def result : Outcome α → Except Fault (MemPool × α)
  | .returned s a => .ok (s, a)
  | .thrown what _ => .error (.thrown what)
  | .stuck f => .error f

@[simp] theorem result_of (x : Except Fault (MemPool × α)) : (of x).result = x := by
  cases x <;> rfl

@[simp] theorem result_bind (o : Outcome α) (f : MemPool → α → Outcome β) :
    (o.bind f).result = o.result >>= fun r => (f r.1 r.2).result := by
  cases o <;> rfl

end Outcome

/-- `m_lock.Lock()`, when `bLock` asks for it. -/
def lockIf (s : MemPool) (bLock : Bool) : Outcome Unit :=
  if bLock then .of (s.lock.map (·, ())) else .returned s ()

/-- `FreeImpl`. -/
def freeImpl (s : MemPool) (p : Int) (bLock : Bool) : Outcome (Option Int) :=
  (s.lockIf bLock).bind fun s _ =>
    match s.m_record.find? p with
    | none => .thrown "system error" s
    | some _ => (Outcome.of ((s.give p).map (·, ()))).bind fun s _ => .returned (if bLock then s.unlock else s) none

/-- `Realloc`. -/
def reallocCall (s : MemPool) (pMemSrc : Int) (newLen : Nat) (sys : Int) : Outcome (Option Int) :=
  (s.lockIf true).bind fun s _ =>
    match s.m_record.find? pMemSrc with
    | none => .stuck .undefined
    | some id => (Outcome.of ((s.deref id).map (s, ·))).bind fun s n =>
      if n.nLen = newLen then .returned s.unlock (some pMemSrc)
      else (Outcome.of (s.take newLen sys)).bind fun t pDest =>
        match pDest with
        | none => .returned t.unlock none
        | some p =>
          let t := { t with mem := write t.mem p (read t.mem pMemSrc n.nLen) }
          (Outcome.of ((t.deref id).map (t, ·))).bind fun t m =>
            (freeImpl (setNode t id { m with eStatus := .UF_NONE }) pMemSrc false).bind fun t _ =>
              .returned t.unlock (some p)

variable {s s' t : MemPool} {p q : Int} {len newLen theLen x fuel : Nat} {sys : Int}

/-- But for the pool that an exception leaves, the calls are those of `MemPool`. -/
theorem result_freeImpl (s : MemPool) (p : Int) : (s.freeImpl p true).result = (s.free p).map (·, none) := by
  unfold freeImpl free lockIf
  simp only [Outcome.result_bind, if_true, Outcome.result_of]
  cases s.lock with
  | error f => rfl
  | ok t =>
    simp only [Except.map, bind, Except.bind]
    cases hfind : t.m_record.find? p with
    | none => simp [give, hfind, Outcome.result]
    | some id => cases t.give p <;> rfl

theorem result_freeImpl_locked (s : MemPool) (p : Int) : (s.freeImpl p false).result = (s.give p).map (·, none) := by
  unfold freeImpl lockIf
  simp only [Outcome.bind, Bool.false_eq_true, if_false]
  cases hfind : s.m_record.find? p with
  | none => simp [give, hfind, Outcome.result, Except.map]
  | some id => cases s.give p <;> rfl

theorem result_reallocCall (s : MemPool) (p : Int) (newLen : Nat) (sys : Int) :
    (s.reallocCall p newLen sys).result = s.realloc p newLen sys := by
  unfold reallocCall realloc lockIf
  simp only [Outcome.result_bind, if_true, Outcome.result_of]
  cases s.lock with
  | error f => rfl
  | ok t =>
    simp only [Except.map, bind, Except.bind]
    cases t.m_record.find? p with
    | none => rfl
    | some id =>
      simp only [Outcome.result_bind, Outcome.result_of]
      cases t.deref id with
      | error f => rfl
      | ok n =>
        simp only [bind, Except.bind]
        split
        · rfl
        simp only [Outcome.result_bind, Outcome.result_of]
        cases t.take newLen sys with
        | error f => rfl
        | ok r =>
          obtain ⟨u, q⟩ := r
          cases q with
          | none => rfl
          | some q =>
            simp only [bind, Except.bind, Outcome.result_bind, Outcome.result_of]
            cases deref { u with mem := write u.mem q (read u.mem p n.nLen) } id with
            | error f => rfl
            | ok m =>
              simp only [Except.map, result_freeImpl_locked]
              cases give (setNode { u with mem := write u.mem q (read u.mem p n.nLen) } id { m with eStatus := .UF_NONE }) p <;> rfl

/-! ## What is in `m_record` -/

def Recorded (s : MemPool) (q : Int) : Prop := ∃ id, (q, id) ∈ s.m_record

/-- A call records no address but the one that it returns. -/
def Notes (s : MemPool) (r : MemPool × Option Int) : Prop := ∀ q, Recorded r.1 q → Recorded s q ∨ r.2 = some q

theorem Notes.of_eq {r : MemPool × Option Int} (h : r.1.m_record = s.m_record) : Notes s r := by
  intro q hq
  unfold Recorded at hq ⊢
  exact .inl (h ▸ hq)

theorem Notes.of_insert {r : MemPool × Option Int} (h : ∃ x, r.1.m_record = s.m_record.insert p x) (hp : r.2 = some p) :
    Notes s r := by
  obtain ⟨x, h⟩ := h
  rintro q ⟨id, hid⟩
  rw [h, StdMap.mem_insert] at hid
  rcases hid with hid | ⟨hid, -⟩
  · exact .inl ⟨id, hid⟩
  · cases hid
    exact .inr hp

theorem Notes.after {r : MemPool × Option Int} (h : Notes s (t, none)) (h' : Notes t r) : Notes s r := by
  intro q hq
  rcases h' q hq with hq | hq
  · exact .inl ((h q hq).resolve_right nofun)
  · exact .inr hq

theorem insertChip_record (s : MemPool) (x : Nat) (n : MemNode) (len : Nat) (chip : MemNode) :
    (insertChip s x n len chip).1.m_record = s.m_record := by
  unfold insertChip
  split <;> rfl

theorem getAddress_notes {r : MemPool × Option Int} (h : getAddress s x len = .ok r) : Notes s r := by
  obtain ⟨n, -, h⟩ := bind_eq_ok.1 h
  dsimp only at h
  split_ifs at h
  · cases h
    refine .of_insert (p := n.pStart) ?_ ?_
    · simp only [insertChip_record, insertChip_pStart]
      exact ⟨_, rfl⟩
    · simp only [insertChip_pStart]
  · cases h
    exact .of_insert ⟨_, rfl⟩ rfl
  · cases h
    exact .of_eq rfl

theorem getAvailableAddress_notes {r : MemPool × Option Int} (h : getAvailableAddress fuel s x theLen = .ok r) :
    Notes s r := by
  induction fuel generalizing x with
  | zero => cases h
  | succ fuel ih =>
    obtain ⟨n, -, h⟩ := bind_eq_ok.1 h
    cases hst : n.eStatus with
    | UF_USE =>
      rw [hst] at h
      cases h
      exact .of_eq rfl
    | UF_NONE =>
      rw [hst] at h
      exact getAddress_notes h
    | UF_ALLOC =>
      rw [hst] at h
      cases he : n.mChips.entries with
      | nil =>
        rw [he] at h
        cases h
        exact .of_eq rfl
      | cons e rest =>
        rw [he] at h
        exact ih h

theorem tryNodes_notes {ids : List Nat} {i : Nat} {r : MemPool × Option (Int × Nat)}
    (h : tryNodes theLen s ids i = .ok r) : Notes s (r.1, r.2.map (·.1)) := by
  induction ids generalizing s i with
  | nil =>
    cases h
    exact .of_eq rfl
  | cons id ids ih =>
    obtain ⟨⟨t, q⟩, ht, h⟩ := bind_eq_ok.1 h
    have hnotes := getAvailableAddress_notes ht
    cases q with
    | some q =>
      cases h
      exact hnotes
    | none => exact hnotes.after (ih h)

/-- A search through a list notes what the turn notes that it stops in. -/
theorem notes_search {f : MemPool → List (Nat × List Nat) → Except Fault (MemPool × Option Int)}
    (hnil : ∀ s, f s [] = .ok (s, none))
    (hcons : ∀ s e es r, f s (e :: es) = .ok r → Notes s r ∨ ∃ t, Notes s (t, none) ∧ f t es = .ok r)
    {es : List (Nat × List Nat)} {r : MemPool × Option Int} (h : f s es = .ok r) : Notes s r := by
  induction es generalizing s with
  | nil =>
    cases (hnil s).symm.trans h
    exact .of_eq rfl
  | cons e es ih =>
    rcases hcons s e es r h with hnotes | ⟨t, hnotes, hrest⟩
    · exact hnotes
    · exact hnotes.after (ih hrest)

theorem trySet_notes {es : List (Nat × List Nat)} {r : MemPool × Option Int} (h : trySet theLen s es = .ok r) :
    Notes s r := by
  refine notes_search (fun _ => rfl) (fun s e es r h => ?_) h
  obtain ⟨⟨t, q⟩, ht, h⟩ := bind_eq_ok.1 h
  cases q with
  | some q =>
    cases h
    exact .inl (tryNodes_notes ht)
  | none => exact .inr ⟨t, tryNodes_notes ht, h⟩

theorem tryPools_notes {es : List (Nat × List Nat)} {r : MemPool × Option Int} (h : tryPools theLen s es = .ok r) :
    Notes s r := by
  refine notes_search (fun _ => rfl) (fun s e es r h => ?_) h
  obtain ⟨⟨t, q⟩, ht, h⟩ := bind_eq_ok.1 h
  cases q with
  | some q =>
    cases h
    exact .inl (tryNodes_notes ht)
  | none => exact .inr ⟨t, tryNodes_notes ht, h⟩

theorem pushAll_record (ns : List MemNode) (s : MemPool) : (ns.foldl pushNode s).m_record = s.m_record := by
  induction ns generalizing s with
  | nil => rfl
  | cons n ns ih => exact ih _

theorem layPasses_record {pStart : Int} {nOffset nOffset' : Nat} {bInit : Bool}
    (h : layPasses pStart len fuel bInit s nOffset = .ok (s', nOffset')) : s'.m_record = s.m_record := by
  induction fuel generalizing bInit s nOffset with
  | zero => cases h
  | succ fuel ih =>
    obtain ⟨p, hpass, h⟩ := bind_eq_ok.1 h
    have hp : p.pool.m_record = s.m_record :=
      foldlM_run (fun p : Pass => p.pool.m_record = s.m_record) hpass rfl fun p q i _ hp hq => by
        rcases layType_cases hq with ⟨hpool, -⟩ | ⟨-, hpool, -⟩
        · rw [hpool, hp]
        · rw [hpool, pushAll_record, hp]
    split_ifs at h
    · exact (ih h).trans hp
    · cases h
      exact hp

theorem updatePools_record {pStart : Int} {bInit : Bool} (h : updatePools s pStart len bInit = .ok s') :
    s'.m_record = s.m_record := by
  obtain ⟨⟨t, nOffset⟩, ht, h⟩ := bind_eq_ok.1 h
  cases h
  have hpasses := layPasses_record ht
  unfold layRest
  split <;> exact hpasses

theorem expandAndTake_notes {r : MemPool × Option Int} (h : expandAndTake s theLen sys = .ok r) : Notes s r := by
  obtain ⟨t, ht, h⟩ := bind_eq_ok.1 h
  have hrec : t.m_record = s.m_record := updatePools_record (s := s.addBuffer _ sys) ht
  refine Notes.after (t := t) (.of_eq hrec) ?_
  split at h
  · cases h
  · obtain ⟨found, -, h⟩ := bind_eq_ok.1 h
    cases found with
    | none =>
      cases h
      exact .of_eq rfl
    | some id => exact getAddress_notes h

theorem takeBack_notes {ids : List Nat} {r : MemPool × Option Int} (h : takeBack s theLen ids = .ok r) : Notes s r := by
  unfold takeBack at h
  split at h
  · cases h
  · obtain ⟨n, -, h⟩ := bind_eq_ok.1 h
    cases h
    exact .of_insert ⟨_, rfl⟩ rfl

theorem take_notes {r : MemPool × Option Int} (h : take s len sys = .ok r) : Notes s r := by
  unfold take at h
  dsimp only at h
  split_ifs at h
  split at h
  · exact takeBack_notes h
  · obtain ⟨⟨t, q⟩, ht, h⟩ := bind_eq_ok.1 h
    have hset := trySet_notes ht
    have hlong : (t.addLong (getCorrectLessChipLen len) sys).m_record = t.m_record := by
      unfold addLong
      split <;> rfl
    cases q with
    | some q =>
      cases h
      intro a ha
      unfold Recorded at ha
      rw [hlong] at ha
      exact hset a ha
    | none =>
      have hset := hset.after (.of_eq (r := (_, none)) hlong)
      obtain ⟨⟨u, q⟩, hu, h⟩ := bind_eq_ok.1 h
      have hpools := hset.after (tryPools_notes hu)
      cases q with
      | some q =>
        cases h
        exact hpools
      | none => exact hpools.after (expandAndTake_notes h)

/-! ## Merges -/

theorem unlist_record (h : unlist s x = .ok t) : t.m_record = s.m_record := by
  obtain ⟨n, -, h⟩ := bind_eq_ok.1 h
  split at h
  · cases h
  · split_ifs at h
    cases h
    rfl

theorem mergeFree_record {r : MemPool × Bool} (h : mergeFree fuel s x = .ok r) : r.1.m_record = s.m_record := by
  induction fuel generalizing s x r with
  | zero => cases h
  | succ fuel ih =>
    obtain ⟨n, -, h⟩ := bind_eq_ok.1 h
    split at h
    · cases h
      rfl
    · cases h
      rfl
    · obtain ⟨⟨t, nCount⟩, ht, h⟩ := bind_eq_ok.1 h
      have hcount : t.m_record = s.m_record :=
        foldlM_run (fun c : MemPool × Nat => c.1.m_record = s.m_record) ht rfl fun c d e _ hc hd => by
          obtain ⟨r, hr, rfl⟩ := countFree_ok hd
          exact (ih hr).trans hc
      dsimp only at h
      split_ifs at h
      · obtain ⟨u, hu, h⟩ := bind_eq_ok.1 h
        cases h
        have hmerged : u.m_record = s.m_record :=
          foldlM_run (fun t : MemPool => t.m_record = s.m_record) hu hcount fun _ _ _ _ hc hd => (unlist_record hd).trans hc
        exact hmerged
      · cases h
        exact hcount

/-! ## Runs -/

/-- What is recorded was handed out, and has not been given back. -/
def RecordLive (c : Client) : Prop := ∀ q, Recorded c.pool q → ∃ l, (q, l) ∈ c.live

theorem lock_ok (h : s.lock = .ok s') : s.m_lock = false ∧ s' = { s with m_lock := true } := by
  unfold lock at h
  cases hl : s.m_lock with
  | true => simp [hl] at h
  | false =>
    simp only [hl, Bool.false_eq_true, if_false] at h
    cases h
    exact ⟨rfl, rfl⟩

theorem give_recorded (h : give s p = .ok s') (hq : Recorded s' q) : Recorded s q ∧ q ≠ p := by
  unfold give at h
  split at h
  · cases h
  · obtain ⟨n, -, h⟩ := bind_eq_ok.1 h
    cases h
    obtain ⟨id, hid⟩ := hq
    obtain ⟨hid, hne⟩ := StdMap.mem_erase.1 hid
    exact ⟨⟨id, hid⟩, hne⟩

theorem mem_without {L : Blocks} {l : Nat} (h : (q, l) ∈ L) (hne : q ≠ p) : (q, l) ∈ without L p :=
  List.mem_filter.2 ⟨h, by simpa using hne⟩

/-- The blocks that a `Realloc` leaves, after what it records. -/
theorem realloc_recorded {r : MemPool × Option Int} (h : realloc s p newLen sys = .ok r) (hq : Recorded r.1 q) :
    r.2 = some q ∨ Recorded s q ∧ (q ≠ p ∨ r.2 = none) := by
  obtain ⟨s₀, hs₀, h⟩ := bind_eq_ok.1 h
  obtain ⟨-, rfl⟩ := lock_ok hs₀
  split at h
  · cases h
  obtain ⟨n, -, h⟩ := bind_eq_ok.1 h
  split_ifs at h
  · cases h
    by_cases hqp : q = p
    · exact .inl (congrArg some hqp.symm)
    · exact .inr ⟨hq, .inl hqp⟩
  obtain ⟨⟨t, pDest⟩, ht, h⟩ := bind_eq_ok.1 h
  have hnotes := take_notes ht q
  cases pDest with
  | none =>
    cases h
    exact .inr ⟨(hnotes hq).resolve_right nofun, .inr rfl⟩
  | some a =>
    obtain ⟨m, -, h⟩ := bind_eq_ok.1 h
    obtain ⟨u, hu, h⟩ := bind_eq_ok.1 h
    cases h
    obtain ⟨hgive, hne⟩ := give_recorded hu hq
    rcases hnotes hgive with hq | hq
    · exact .inr ⟨hq, .inl hne⟩
    · exact .inl hq

theorem realloc_unlocked {r : MemPool × Option Int} (h : realloc s p newLen sys = .ok r) : r.1.m_lock = false := by
  obtain ⟨s₀, -, h⟩ := bind_eq_ok.1 h
  split at h
  · cases h
  obtain ⟨n, -, h⟩ := bind_eq_ok.1 h
  split_ifs at h
  · cases h
    rfl
  obtain ⟨⟨t, pDest⟩, -, h⟩ := bind_eq_ok.1 h
  cases pDest with
  | none =>
    cases h
    rfl
  | some a =>
    obtain ⟨m, -, h⟩ := bind_eq_ok.1 h
    obtain ⟨u, -, h⟩ := bind_eq_ok.1 h
    cases h
    rfl

theorem step_recordLive {c c' : Client} {a : Action} (h : RecordLive c) (hstep : step c a = .ok c') :
    RecordLive c' ∧ c'.pool.m_lock = false := by
  cases a with
  | alloc len sys =>
    obtain ⟨⟨s, p⟩, hs, hstep⟩ := bind_eq_ok.1 hstep
    cases hstep
    obtain ⟨s₀, hs₀, hs⟩ := bind_eq_ok.1 hs
    obtain ⟨-, rfl⟩ := lock_ok hs₀
    obtain ⟨⟨t, p⟩, ht, hs⟩ := bind_eq_ok.1 hs
    cases hs
    refine ⟨fun q hq => ?_, rfl⟩
    rcases take_notes ht q hq with hq | rfl
    · obtain ⟨l, hl⟩ := h q hq
      cases p with
      | none => exact ⟨l, hl⟩
      | some p => exact ⟨l, List.mem_cons_of_mem _ hl⟩
    · exact ⟨len, List.mem_cons_self⟩
  | free p =>
    obtain ⟨s, hs, hstep⟩ := bind_eq_ok.1 hstep
    cases hstep
    obtain ⟨s₀, hs₀, hs⟩ := bind_eq_ok.1 hs
    obtain ⟨-, rfl⟩ := lock_ok hs₀
    obtain ⟨t, ht, hs⟩ := bind_eq_ok.1 hs
    cases hs
    refine ⟨fun q hq => ?_, rfl⟩
    obtain ⟨hq, hne⟩ := give_recorded ht hq
    obtain ⟨l, hl⟩ := h q hq
    exact ⟨l, mem_without hl hne⟩
  | realloc p newLen sys =>
    obtain ⟨⟨s, r⟩, hs, hstep⟩ := bind_eq_ok.1 hstep
    cases hstep
    refine ⟨fun q hq => ?_, ?_⟩
    · rcases realloc_recorded hs hq with rfl | ⟨hq, hne⟩
      · exact ⟨newLen, List.mem_cons_self⟩
      · obtain ⟨l, hl⟩ := h q hq
        cases r with
        | none => exact ⟨l, hl⟩
        | some r => exact ⟨l, List.mem_cons_of_mem _ (mem_without hl (hne.resolve_right nofun))⟩
    · exact realloc_unlocked hs
  | sweep =>
    obtain ⟨s, hs, hstep⟩ := bind_eq_ok.1 hstep
    cases hstep
    obtain ⟨s₀, hs₀, hs⟩ := bind_eq_ok.1 hs
    obtain ⟨-, rfl⟩ := lock_ok hs₀
    obtain ⟨t, ht, hs⟩ := bind_eq_ok.1 hs
    cases hs
    have hrec : t.m_record = c.pool.m_record :=
      foldlM_run (fun t : MemPool => t.m_record = c.pool.m_record) ht rfl fun u v id _ hu hv => by
        obtain ⟨r, hr, hv⟩ := bind_eq_ok.1 hv
        cases hv
        exact (mergeFree_record hr).trans hu
    refine ⟨fun q ⟨id, hid⟩ => h q ⟨id, ?_⟩, rfl⟩
    rw [← hrec]
    exact hid

theorem run_recordLive {m : Mem} {b : Int} {actions : List Action} {c : Client} (hs : init m b = .ok s)
    (hrun : actions.foldlM step ⟨s, []⟩ = .ok c) : RecordLive c ∧ c.pool.m_lock = false := by
  have hinit : RecordLive ⟨s, []⟩ := by
    rintro q ⟨id, hid⟩
    have hrec : s.m_record = .empty := updatePools_record hs
    simp [hrec] at hid
  obtain ⟨s', hs', -, -, hlock⟩ := init_laid m b
  cases hs.symm.trans hs'
  exact foldlM_run (fun c : Client => RecordLive c ∧ c.pool.m_lock = false) hrun ⟨hinit, hlock⟩
    fun c d a _ hc hd => step_recordLive hc.1 hd

/-! ## A pointer that is not live -/

/-- The pool that a call leaves which has failed: by an exception, or by giving back `NULL`. -/
def Outcome.failed : Outcome (Option Int) → Option MemPool
  | .returned s none => some s
  | .returned _ (some _) => none
  | .thrown _ s => some s
  | .stuck _ => none

/-- The pool `t` is as `s` was, not locked, and what comes later goes as it would have gone on `s`. -/
structure Untouched (s t : MemPool) : Prop where
  nodes : t.nodes = s.nodes
  poolset : t.m_poolset = s.m_poolset
  pools : t.m_pools = s.m_pools
  record : t.m_record = s.m_record
  unlocked : t.m_lock = false
  later : ∀ live a, step ⟨t, live⟩ a = step ⟨s, live⟩ a

def FailsClean (s : MemPool) (o : Outcome (Option Int)) : Prop := ∃ t, o.failed = some t ∧ Untouched s t

theorem find?_of_not_live {c : Client} (h : RecordLive c) (hp : ∀ l, (p, l) ∉ c.live) : c.pool.m_record.find? p = none := by
  rw [StdMap.find?_eq_none]
  rintro ⟨q, id⟩ hid rfl
  obtain ⟨l, hl⟩ := h q ⟨id, hid⟩
  exact hp l hl

/-- `Free` throws, and the pool it leaves is locked. -/
theorem freeImpl_thrown (hl : s.m_lock = false) (hp : s.m_record.find? p = none) :
    s.freeImpl p true = .thrown "system error" { s with m_lock := true } := by
  simp [freeImpl, lockIf, lock, hl, hp, Outcome.of, Outcome.bind, Except.map]

/-- `Realloc` reads the node at `m_record.end()`. -/
theorem reallocCall_undefined (hl : s.m_lock = false) (hp : s.m_record.find? p = none) :
    s.reallocCall p newLen sys = .stuck .undefined := by
  simp [reallocCall, lockIf, lock, hl, hp, Outcome.of, Outcome.bind, Except.map]

/-- Nothing gets past a lock that is not given back. -/
theorem step_blocked (live : Blocks) (a : Action) (hl : s.m_lock = true) : step ⟨s, live⟩ a = .error .blocked := by
  have hlock : s.lock = .error .blocked := by simp [lock, hl]
  cases a <;> simp [step, alloc, free, realloc, sweep, hlock, bind, Except.bind]

/-- Neither `Free` nor `Realloc` of a pointer that is not live fails without harm, in any run. -/
theorem not_failsClean {m : Mem} {b : Int} {actions : List Action} {c : Client} (hs : init m b = .ok s)
    (hrun : actions.foldlM step ⟨s, []⟩ = .ok c) (hp : ∀ l, (p, l) ∉ c.live) (newLen : Nat) (sys : Int) :
    ¬FailsClean c.pool (c.pool.freeImpl p true) ∧ ¬FailsClean c.pool (c.pool.reallocCall p newLen sys) := by
  obtain ⟨hlive, hl⟩ := run_recordLive hs hrun
  have hfind := find?_of_not_live hlive hp
  rw [freeImpl_thrown hl hfind, reallocCall_undefined hl hfind]
  refine ⟨?_, ?_⟩
  · rintro ⟨t, ht, hclean⟩
    cases ht
    exact absurd hclean.unlocked nofun
  · rintro ⟨t, ht, -⟩
    cases ht

/-- A block that was given back already. -/
theorem not_failsClean_twice : ∃ s c, init (fun _ => 0) 1000 = .ok s ∧
    [Action.alloc 8 5000, .free 1032].foldlM step ⟨s, []⟩ = .ok c ∧
    ¬FailsClean c.pool (c.pool.freeImpl 1032 true) ∧ ¬FailsClean c.pool (c.pool.reallocCall 1032 16 5000) := by
  have hrun : ∃ s, init (fun _ => 0) 1000 = .ok s ∧ ∃ c, [Action.alloc 8 5000, .free 1032].foldlM step ⟨s, []⟩ = .ok c ∧
      c.live = [] := by decide +kernel
  obtain ⟨s, hs, c, hc, hlive⟩ := hrun
  exact ⟨s, c, hs, hc, not_failsClean hs hc (fun l hl => by simp [hlive] at hl) 16 5000⟩

/-- After a `Free` of an address that was never handed out an `Alloc` waits for ever. -/
theorem not_failsClean_free : ∃ s, init (fun _ => 0) 1000 = .ok s ∧ ¬FailsClean s (s.freeImpl 1 true) ∧
    ∃ t, (s.freeImpl 1 true).failed = some t ∧ step ⟨t, []⟩ (.alloc 8 5000) = .error .blocked := by
  have hrun : ∃ s, init (fun _ => 0) 1000 = .ok s ∧ s.m_lock = false ∧ s.m_record.find? 1 = none := by decide +kernel
  obtain ⟨s, hs, hl, hfind⟩ := hrun
  have hthrown := freeImpl_thrown hl hfind
  refine ⟨s, hs, ?_, { s with m_lock := true }, ?_, step_blocked [] _ rfl⟩
  · rintro ⟨t, ht, hclean⟩
    rw [hthrown] at ht
    cases ht
    exact absurd hclean.unlocked nofun
  · rw [hthrown]
    rfl

end MemPool
