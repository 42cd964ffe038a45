/-
The counting semaphore with amounts on Windows (Thread/SemaphoreExImpl_Win32.cpp).

A semaphore of the kernel stands behind it. `SemWait` takes its amount one by
one, so what a thread holds that still waits is neither there for the others
nor consumed; and `SemSignal` releases `m_nPost`, whatever amount it was asked
for.

So the count is what it is on Linux as long as every signal asks for `m_nPost`
(`lead`), and waiters whose demands, each less one, add up to the tokens can
take them all and leave each other behind (`starve`, `not_starve`).
-/
import XFramework.Lib.KernelSemaphore
import XFramework.Lib.Threads
import XFramework.Thread.SemaphoreEx
import Mathlib.Algebra.Order.BigOperators.Group.List
import Mathlib.Algebra.Order.Ring.Nat

open Fallible KernelSemaphore

/-- `m_hSema` is the count of the kernel's semaphore, or `none` for NULL. -/
structure SemaphoreExWin32 where
  m_nCount : Nat
  m_nWait : Nat
  m_nPost : Nat
  m_hSema : Option Nat

namespace SemaphoreExWin32

def NSEMACOUNT : Nat := 10

/-- `CreateSemaphore` gives NULL for a count that is negative or beyond the maximum. -/
def createSemaphore (nCount : Int) : Option Nat := if 0 ≤ nCount ∧ nCount ≤ NSEMACOUNT then some nCount.toNat else none

def init (nCount nWait nPost : Int) : SemaphoreExWin32 := ⟨uchar nCount, uchar nWait, uchar nPost, createSemaphore nCount⟩

/-- What `SemSignal(n)` adds to `m_nCount`. -/
def postAmount (s : SemaphoreExWin32) (n : Int) : Int := if n > 0 ∧ n < s.m_nPost then n else s.m_nPost

/-- `nWait` of `SemWait(n)`. -/
def waitAmount (s : SemaphoreExWin32) (n : Int) : Int := if n > 0 ∧ n < s.m_nWait then n else s.m_nWait

def semSignal (s : SemaphoreExWin32) (n : Int) : SemaphoreExWin32 :=
  match s.m_hSema with
  | none => s
  | some count =>
    { s with
      m_nCount := uchar (s.m_nCount + s.postAmount n)
      m_hSema := some (release NSEMACOUNT count s.m_nPost) }

/-- The body of the loop of `SemWait`, when `WaitForSingleObject` comes back. -/
def waitOne (s : SemaphoreExWin32) : Except Blocked SemaphoreExWin32 :=
  match s.m_hSema with
  | some (count + 1) => .ok { s with m_nCount := uchar (s.m_nCount - 1), m_hSema := some count }
  | _ => .error .blocked

/-- So many times. -/
def waitLoop (s : SemaphoreExWin32) : Nat → Except Blocked SemaphoreExWin32
  | 0 => .ok s
  | k + 1 => do
    let s ← s.waitOne
    s.waitLoop k

/-- `SemWait(n)` of a thread that nobody else interrupts. -/
def semWait (s : SemaphoreExWin32) (n : Int) : Except Blocked SemaphoreExWin32 :=
  if s.m_hSema.isNone then .ok s else s.waitLoop (s.waitAmount n).toNat

end SemaphoreExWin32

/-! ## Completed calls -/

/-- A call that has come back. -/
inductive SemaphoreCall
  | semSignal (n : Int)
  | semWait (n : Int)
  deriving DecidableEq

namespace SemaphoreCall

def win32 (s : SemaphoreExWin32) : SemaphoreCall → Except Blocked SemaphoreExWin32
  | .semSignal n => .ok (s.semSignal n)
  | .semWait n => s.semWait n

/-- On Linux a call that would sleep does not come back. -/
def linux (s : SemaphoreExImpl) : SemaphoreCall → Except Blocked SemaphoreExImpl
  | .semSignal n => .ok (s.semSignal n 0)
  | .semWait n => if (s.tryWait (s.waitAmount n)).2 then .ok (s.tryWait (s.waitAmount n)).1 else .error .blocked

/-- The count does not reach its limit. -/
def Within (s : SemaphoreExWin32) : SemaphoreCall → Prop
  | .semSignal _ => ∀ count, s.m_hSema = some count → count + s.m_nPost ≤ SemaphoreExWin32.NSEMACOUNT
  | .semWait _ => True

instance (s : SemaphoreExWin32) : ∀ c, Decidable (Within s c)
  | .semSignal _ => decForallSome s.m_hSema
  | .semWait _ => isTrue trivial

/-- A signal asks for all that a signal can give. -/
def Full (nPost : Nat) : SemaphoreCall → Prop
  | .semSignal n => ¬(n > 0 ∧ n < nPost)
  | .semWait _ => True

instance (nPost : Nat) : ∀ c, Decidable (Full nPost c)
  | .semSignal n => inferInstanceAs (Decidable (¬(n > 0 ∧ n < nPost)))
  | .semWait _ => isTrue trivial

/-- What the kernel's semaphore gets more than was asked for. -/
def lead (nPost : Nat) : SemaphoreCall → Nat
  | .semSignal n => if n > 0 ∧ n < nPost then nPost - n.toNat else 0
  | .semWait _ => 0

variable {s s' : SemaphoreExImpl} {w w' : SemaphoreExWin32} {c : SemaphoreCall} {calls : List SemaphoreCall}
  {nPost count k : Nat} {n : Int}

theorem lead_eq_zero : c.lead nPost = 0 ↔ c.Full nPost := by
  cases c with
  | semWait n => exact iff_of_true rfl trivial
  | semSignal n =>
    rw [lead, Full]
    split_ifs with h
    · exact iff_of_false (by omega) (not_not_intro h)
    · exact iff_of_true rfl h

theorem waitLoop_ok (h : w.m_hSema = some count) (hloop : w.waitLoop k = .ok w') :
    k ≤ count ∧ w'.m_hSema = some (count - k) ∧ w'.m_nWait = w.m_nWait ∧ w'.m_nPost = w.m_nPost := by
  induction k generalizing w count with
  | zero =>
    cases hloop
    exact ⟨Nat.zero_le _, h, rfl, rfl⟩
  | succ k ih =>
    obtain ⟨w₁, hone, hrest⟩ := bind_eq_ok.1 hloop
    unfold SemaphoreExWin32.waitOne at hone
    rw [h] at hone
    cases count with
    | zero => cases hone
    | succ count =>
      cases hone
      obtain ⟨hle, hcount, hwait, hpost⟩ := ih rfl hrest
      exact ⟨Nat.succ_le_succ hle, by rw [hcount, Nat.succ_sub_succ], hwait, hpost⟩

/-- The two semaphores, of which that of the kernel has `k` tokens more. -/
structure Leads (s : SemaphoreExImpl) (w : SemaphoreExWin32) (k : Nat) : Prop where
  wait : w.m_nWait = s.m_nWait
  post : w.m_nPost = s.m_nPost
  count : w.m_hSema = some (s.m_nCount + k)
  le : s.m_nCount + k ≤ SemaphoreExWin32.NSEMACOUNT

theorem postAmount_lead (s : SemaphoreExImpl) (n : Int) : s.postAmount n + (semSignal n).lead s.m_nPost = s.m_nPost := by
  rw [SemaphoreExImpl.postAmount, lead]
  split_ifs <;> omega

theorem Leads.semSignal (h : Leads s w k) (hw : Within w (.semSignal n)) :
    Leads (s.semSignal n 0) (w.semSignal n) (k + (SemaphoreCall.semSignal n).lead s.m_nPost) := by
  have hroom := hw _ h.count
  have hlead := postAmount_lead s n
  have hle := h.le
  rw [h.post] at hroom
  rw [SemaphoreExWin32.NSEMACOUNT] at hroom hle
  have hamount : 0 ≤ s.postAmount n := by
    unfold SemaphoreExImpl.postAmount
    split_ifs <;> omega
  have hcount : (uchar (s.m_nCount + s.postAmount n) : Int) = s.m_nCount + s.postAmount n :=
    uchar_of_lt (by omega) (by omega)
  have hrelease : release SemaphoreExWin32.NSEMACOUNT (s.m_nCount + k) s.m_nPost = s.m_nCount + k + s.m_nPost := by
    by_cases hzero : s.m_nPost = 0
    · rw [hzero, release_zero]
      rfl
    · exact release_of_le (Nat.pos_of_ne_zero hzero) hroom
  constructor
  case wait =>
    unfold SemaphoreExWin32.semSignal
    rw [h.count]
    exact h.wait
  case post =>
    unfold SemaphoreExWin32.semSignal
    rw [h.count]
    exact h.post
  case count =>
    unfold SemaphoreExWin32.semSignal
    simp only [h.count, h.post, hrelease, SemaphoreExImpl.semSignal, Option.some.injEq]
    omega
  case le =>
    simp only [SemaphoreExImpl.semSignal, SemaphoreExWin32.NSEMACOUNT]
    omega

theorem Leads.semWait (h : Leads s w k) (hs : linux s (.semWait n) = .ok s') (hw : w.semWait n = .ok w') :
    Leads s' w' k ∧ s'.m_nPost = s.m_nPost := by
  have hle := h.le
  rw [SemaphoreExWin32.NSEMACOUNT] at hle
  have hamount : w.waitAmount n = s.waitAmount n := by
    unfold SemaphoreExWin32.waitAmount SemaphoreExImpl.waitAmount
    rw [h.wait]
  have hzero : 0 ≤ s.waitAmount n := by
    unfold SemaphoreExImpl.waitAmount
    split_ifs <;> omega
  unfold SemaphoreExWin32.semWait at hw
  simp only [h.count, Option.isNone_some, Bool.false_eq_true, if_false, hamount] at hw
  obtain ⟨hk, hcount, hwait, hpost⟩ := waitLoop_ok h.count hw
  unfold linux SemaphoreExImpl.tryWait at hs
  by_cases hlt : (s.m_nCount : Int) < s.waitAmount n
  · simp [hlt] at hs
  · simp only [if_neg hlt, if_true, Except.ok.injEq] at hs
    subst hs
    have huchar : (uchar (s.m_nCount - s.waitAmount n) : Int) = s.m_nCount - s.waitAmount n :=
      uchar_of_lt (by omega) (by omega)
    refine ⟨⟨hwait.trans h.wait, hpost.trans h.post, ?_, ?_⟩, rfl⟩
    · rw [hcount, Option.some.injEq]
      dsimp only
      omega
    · simp only [SemaphoreExWin32.NSEMACOUNT]
      omega

theorem Leads.call (h : Leads s w k) (hs : linux s c = .ok s') (hw : win32 w c = .ok w') (hwithin : Within w c) :
    Leads s' w' (k + c.lead s.m_nPost) ∧ s'.m_nPost = s.m_nPost := by
  cases c with
  | semSignal n =>
    cases hs
    cases hw
    exact ⟨h.semSignal hwithin, rfl⟩
  | semWait n => exact h.semWait hs hw

theorem Leads.run (h : Leads s w k) (hs : calls.foldlM linux s = .ok s') (hw : calls.foldlM win32 w = .ok w')
    (hwithin : Along win32 Within w calls) : Leads s' w' (k + (calls.map (lead s.m_nPost)).sum) := by
  induction calls generalizing s w k with
  | nil =>
    cases foldlM_nil_ok.1 hs
    cases foldlM_nil_ok.1 hw
    exact h
  | cons c calls ih =>
    obtain ⟨s₁, hs₁, hs⟩ := foldlM_cons_ok.1 hs
    obtain ⟨w₁, hw₁, hw⟩ := foldlM_cons_ok.1 hw
    obtain ⟨hc, hrest⟩ := hwithin
    rw [hw₁] at hrest
    obtain ⟨hnext, hpost⟩ := h.call hs₁ hw₁ hc
    have hend := ih hnext hs hw hrest
    rw [hpost, Nat.add_assoc] at hend
    exact hend

/-- After the same calls the counts are the same when every signal asked for `m_nPost`, and only then. -/
theorem same_count_iff {nCount nWait nPost : Int} (h₀ : 0 ≤ nCount) (hle : nCount ≤ SemaphoreExWin32.NSEMACOUNT)
    (hs : calls.foldlM linux (.init nCount nWait nPost) = .ok s) (hw : calls.foldlM win32 (.init nCount nWait nPost) = .ok w)
    (hwithin : Along win32 Within (.init nCount nWait nPost) calls) :
    w.m_hSema = some s.m_nCount ↔ ∀ c ∈ calls, c.Full (uchar nPost) := by
  have hcount : uchar nCount = nCount.toNat := by
    rw [SemaphoreExWin32.NSEMACOUNT] at hle
    have := uchar_of_lt h₀ (by omega)
    omega
  have hbegin : Leads (.init nCount nWait nPost) (.init nCount nWait nPost) 0 := by
    refine ⟨rfl, rfl, ?_, ?_⟩
    · simp [SemaphoreExWin32.init, SemaphoreExWin32.createSemaphore, SemaphoreExImpl.init, h₀, hle, hcount]
    · simp only [SemaphoreExImpl.init, hcount]
      omega
  have hend := (hbegin.run hs hw hwithin).count
  rw [hend, Nat.zero_add, Option.some.injEq, Nat.add_eq_left, List.sum_eq_zero_iff_forall_eq_nat, List.forall_mem_map]
  exact forall₂_congr fun c _ => lead_eq_zero

end SemaphoreCall

/-! ## Waiters -/

/-- A thread in `SemWait`, and how many of its `nWait` tokens it has taken. -/
structure Waiter where
  nWait : Nat
  taken : Nat
  deriving DecidableEq

def Waiter.blocked (w : Waiter) : Bool := w.taken < w.nWait

/-- `waits` are the calls of `SemWait`, and `posted` is what `ReleaseSemaphore` has added. -/
structure SemaphoreRunWin32 where
  sem : SemaphoreExWin32
  waits : List Waiter
  posted : Nat

namespace SemaphoreRunWin32

/-- `take` is a wait of the thread `i` for one token that comes back. -/
inductive Action
  | semSignal (n : Int)
  | semWait (n : Int)
  | take (i : Nat)

def begin (nCount nWait nPost : Int) : SemaphoreRunWin32 := ⟨.init nCount nWait nPost, [], 0⟩

def step (t : SemaphoreRunWin32) : Action → Except Blocked SemaphoreRunWin32
  | .semSignal n =>
    match t.sem.m_hSema with
    | none => .ok t
    | some count => .ok { t with
        sem := t.sem.semSignal n
        posted := t.posted + (release SemaphoreExWin32.NSEMACOUNT count t.sem.m_nPost - count) }
  | .semWait n => .ok { t with
      waits := t.waits ++ [⟨if t.sem.m_hSema.isNone then 0 else (t.sem.waitAmount n).toNat, 0⟩] }
  | .take i =>
    match t.waits[i]? with
    | none => .error .blocked
    | some w =>
      if w.blocked then do
        let sem ← t.sem.waitOne
        .ok { t with sem, waits := t.waits.set i { w with taken := w.taken + 1 } }
      else .error .blocked

/-- The tokens that were there or were posted, and that no completed wait has consumed. -/
def tokens (nCount : Int) (t : SemaphoreRunWin32) : Int :=
  nCount + t.posted - (t.waits.map fun w => if w.blocked then 0 else w.nWait).sum

/-- The tokens reach the demand of one of the threads that wait. -/
def Due (nCount : Int) (t : SemaphoreRunWin32) : Prop := ∃ w ∈ t.waits, w.blocked ∧ w.nWait ≤ t.tokens nCount

/-- No thread can take a token. -/
def Stuck (t : SemaphoreRunWin32) : Prop := ∀ i, ¬Returns (t.step (.take i))

/-- The threads that wait can take tokens until none is left, and all of them still wait. -/
def Starves (t : SemaphoreRunWin32) : Prop := ∃ (threads : List Nat) (t' : SemaphoreRunWin32),
  (threads.map Action.take).foldlM step t = .ok t' ∧ t'.Stuck ∧
    List.Forall₂ (fun w w' : Waiter => w.blocked = true → w'.blocked = true) t.waits t'.waits

/-- The demands of the threads that wait, each less one. -/
def demands (t : SemaphoreRunWin32) : Nat := (t.waits.map fun w => if w.blocked then w.nWait - 1 else 0).sum

/-- What the threads hold that wait. -/
def held (t : SemaphoreRunWin32) : Nat := (t.waits.map fun w => if w.blocked then w.taken else 0).sum

/-- What they could take and wait still. -/
def room (t : SemaphoreRunWin32) : Nat := (t.waits.map fun w => w.nWait - 1 - w.taken).sum

variable {t t' : SemaphoreRunWin32} {a : Action} {acts : List Action} {nCount nWait nPost : Int} {i count : Nat} {w : Waiter}

/-- `taken` and the count are what there was and was posted. -/
structure Inv (nCount : Int) (t : SemaphoreRunWin32) : Prop where
  sema : ∃ count, t.sem.m_hSema = some count ∧ (count + (t.waits.map Waiter.taken).sum : Int) = nCount + t.posted
  taken : ∀ w ∈ t.waits, w.taken ≤ w.nWait

theorem take_ok (h : t.step (.take i) = .ok t') : ∃ w count, t.waits[i]? = some w ∧ w.blocked = true ∧
    t.sem.m_hSema = some (count + 1) ∧ t'.sem.m_hSema = some count ∧ t'.posted = t.posted ∧
    t'.waits = t.waits.set i { w with taken := w.taken + 1 } := by
  rw [step] at h
  split at h
  case h_1 => cases h
  case h_2 w hi =>
    split_ifs at h with hblocked
    obtain ⟨sem, hone, h⟩ := bind_eq_ok.1 h
    cases h
    unfold SemaphoreExWin32.waitOne at hone
    split at hone
    case h_1 count hcount =>
      cases hone
      exact ⟨w, count, hi, hblocked, hcount, rfl, rfl, rfl⟩
    case h_2 => cases hone

/-- A thread that waits takes a token that is there. -/
theorem exists_take (hi : t.waits[i]? = some w) (hw : w.blocked = true) (hcount : t.sem.m_hSema = some (count + 1)) :
    Returns (t.step (.take i)) := by
  unfold step SemaphoreExWin32.waitOne
  simp only [hi, hw, hcount, if_true]
  exact ⟨_, rfl⟩

theorem sum_concat (f : Waiter → Nat) : ((t.waits ++ [w]).map f).sum = (t.waits.map f).sum + f w := by
  simp

theorem inv_begin (h₀ : 0 ≤ nCount) (h : nCount ≤ SemaphoreExWin32.NSEMACOUNT) : Inv nCount (begin nCount nWait nPost) := by
  refine ⟨⟨nCount.toNat, ?_, ?_⟩, by simp [begin]⟩
  · simp [begin, SemaphoreExWin32.init, SemaphoreExWin32.createSemaphore, h₀, h]
  · simp [begin, h₀]

theorem Inv.step (h : Inv nCount t) (hstep : t.step a = .ok t') : Inv nCount t' := by
  obtain ⟨⟨count, hcount, hsum⟩, htaken⟩ := h
  cases a with
  | semSignal n =>
    unfold SemaphoreRunWin32.step SemaphoreExWin32.semSignal at hstep
    simp only [hcount, Except.ok.injEq] at hstep
    subst hstep
    have hle : count ≤ release SemaphoreExWin32.NSEMACOUNT count t.sem.m_nPost := by
      unfold release
      split_ifs <;> omega
    refine ⟨⟨_, rfl, ?_⟩, htaken⟩
    dsimp only
    omega
  | semWait n =>
    cases hstep
    refine ⟨⟨count, hcount, ?_⟩, fun w hw => ?_⟩
    · rw [sum_concat]
      exact hsum
    · rcases List.mem_append.1 hw with hw | hw
      · exact htaken w hw
      · rw [List.mem_singleton.1 hw]
        exact Nat.zero_le _
  | take i =>
    obtain ⟨w, k, hi, hblocked, hsome, hnext, hposted, hwaits⟩ := take_ok hstep
    rw [hcount] at hsome
    cases hsome
    refine ⟨⟨k, hnext, ?_⟩, fun w' hw' => ?_⟩
    · have hset := Threads.sum_set (b := { w with taken := w.taken + 1 }) Waiter.taken hi
      rw [hwaits, hposted]
      dsimp only at hset
      omega
    · rw [hwaits] at hw'
      rcases List.mem_or_eq_of_mem_set hw' with hw' | rfl
      · exact htaken w' hw'
      · exact Nat.succ_le_of_lt (of_decide_eq_true hblocked)

/-! ## Waiters that starve -/

theorem Inv.tokens (h : Inv nCount t) (hcount : t.sem.m_hSema = some count) : t.tokens nCount = count + t.held := by
  obtain ⟨⟨k, hk, hsum⟩, htaken⟩ := h
  cases hcount.symm.trans hk
  have hsplit : (t.waits.map Waiter.taken).sum = (t.waits.map fun w => if w.blocked then 0 else w.nWait).sum + t.held := by
    rw [held, ← List.sum_map_add]
    refine congrArg List.sum (List.map_congr_left fun w hw => ?_)
    have hle := htaken w hw
    cases hb : w.blocked with
    | true => simp
    | false =>
      have hge : ¬w.taken < w.nWait := of_decide_eq_false hb
      simp
      omega
  unfold SemaphoreRunWin32.tokens
  omega

theorem Inv.demands (h : Inv nCount t) : t.demands = t.held + t.room := by
  unfold SemaphoreRunWin32.demands held room
  rw [← List.sum_map_add]
  refine congrArg List.sum (List.map_congr_left fun w hw => ?_)
  have hle := h.taken w hw
  cases hb : w.blocked with
  | true =>
    have hlt : w.taken < w.nWait := of_decide_eq_true hb
    simp
    omega
  | false =>
    have hge : ¬w.taken < w.nWait := of_decide_eq_false hb
    simp
    omega

theorem stuck_zero (h : t.sem.m_hSema = some 0) : t.Stuck := by
  rintro i ⟨t', hstep⟩
  obtain ⟨w, k, -, -, hsome, -⟩ := take_ok hstep
  rw [h] at hsome
  cases hsome

/-- Where a thread can take one token and wait still, the tokens can be used up so. -/
theorem starve (h : Inv nCount t) (hcount : t.sem.m_hSema = some count) (hle : count ≤ t.room) : t.Starves := by
  induction count generalizing t with
  | zero => exact ⟨[], t, rfl, stuck_zero hcount, List.forall₂_same.2 fun _ _ => id⟩
  | succ count ih =>
    obtain ⟨w, hw, hroom⟩ : ∃ w ∈ t.waits, 0 < w.nWait - 1 - w.taken := by
      by_contra hnone
      push Not at hnone
      have hzero : t.room = 0 := List.sum_eq_zero_iff_forall_eq_nat.2
        (List.forall_mem_map.2 fun w hw => Nat.le_zero.1 (hnone w hw))
      omega
    obtain ⟨i, hi⟩ := List.mem_iff_getElem?.1 hw
    obtain ⟨t₁, hstep⟩ := exists_take hi (decide_eq_true (by omega)) hcount
    obtain ⟨w', k, hi', hblocked, hsome, hnext, -, hwaits⟩ := take_ok hstep
    cases hi.symm.trans hi'
    cases hcount.symm.trans hsome
    have hless : t₁.room + 1 = t.room := by
      have hset := Threads.sum_set (b := { w with taken := w.taken + 1 }) (fun w => w.nWait - 1 - w.taken) hi
      unfold room
      rw [hwaits]
      dsimp only at hset
      omega
    obtain ⟨threads, t', hrun, hstuck, hkept⟩ := ih (h.step hstep) hnext (by omega)
    refine ⟨i :: threads, t', foldlM_cons_ok.2 ⟨t₁, hstep, hrun⟩, hstuck, ?_⟩
    rw [hwaits] at hkept
    refine Threads.forall₂_of_set hi (fun c hc _ => hc (decide_eq_true ?_)) hkept
    dsimp only
    omega

/-- What the threads do to each other's calls while they take tokens: nothing. -/
theorem takes_kept {threads : List Nat} (hrun : (threads.map Action.take).foldlM step t = .ok t') :
    t'.posted = t.posted ∧ List.Forall₂ (fun w w' : Waiter => w'.nWait = w.nWait ∧ (w.blocked = false → w' = w)) t.waits t'.waits := by
  induction threads generalizing t with
  | nil =>
    cases foldlM_nil_ok.1 hrun
    exact ⟨rfl, List.forall₂_same.2 fun _ _ => ⟨rfl, fun _ => rfl⟩⟩
  | cons i threads ih =>
    obtain ⟨t₁, hstep, hrest⟩ := foldlM_cons_ok.1 hrun
    obtain ⟨w, k, hi, hblocked, -, -, hposted, hwaits⟩ := take_ok hstep
    obtain ⟨hsame, hkept⟩ := ih hrest
    rw [hwaits] at hkept
    refine ⟨hsame.trans hposted,
      Threads.forall₂_of_set (b := { w with taken := w.taken + 1 }) hi (fun c hc => ⟨hc.1, fun hnot => ?_⟩) hkept⟩
    rw [hblocked] at hnot
    cases hnot

/-- With more tokens than that a thread gets its last one before they are used up. -/
theorem not_starve (h : Inv nCount t) (hcount : t.sem.m_hSema = some count) (hlt : t.room < count)
    (hw : ∃ w ∈ t.waits, w.blocked = true) : ¬t.Starves := by
  rintro ⟨threads, t', hrun, hstuck, hstill⟩
  obtain ⟨hposted, hkept⟩ := takes_kept hrun
  have h' : Inv nCount t' := foldlM_run (Inv nCount) hrun h fun _ _ _ _ hs hstep => hs.step hstep
  obtain ⟨⟨count', hcount', hsum'⟩, htaken'⟩ := h'
  obtain ⟨⟨k, hk, hsum⟩, htaken⟩ := h
  cases hcount.symm.trans hk
  have hzero : count' = 0 := by
    by_contra hne
    obtain ⟨k, rfl⟩ := Nat.exists_eq_succ_of_ne_zero hne
    obtain ⟨w, hmem, hblocked⟩ := hw
    obtain ⟨i, hi⟩ := List.mem_iff_getElem?.1 hmem
    obtain ⟨hlen, rfl⟩ := List.getElem?_eq_some_iff.1 hi
    have hlen' : i < t'.waits.length := hstill.length_eq ▸ hlen
    exact hstuck i (exists_take (List.getElem?_eq_getElem hlen') (hstill.get hlen hlen' hblocked) hcount')
  have hsum_le : (t'.waits.map Waiter.taken).sum ≤ (t.waits.map fun w => if w.blocked then w.nWait - 1 else w.taken).sum := by
    refine List.Forall₂.sum_le_sum (List.forall₂_map_left_iff.2 (List.forall₂_map_right_iff.2 (List.Forall₂.flip ?_)))
    refine List.Forall₂.mp (fun w w' hsame hblocked => ?_) hkept hstill
    obtain ⟨hwait, hdone⟩ := hsame
    cases hb : w.blocked with
    | true =>
      have hlt : w'.taken < w'.nWait := of_decide_eq_true (hblocked hb)
      simp only [flip, hb, if_true]
      exact Nat.le_sub_one_of_lt (hwait ▸ hlt)
    | false =>
      rw [hdone hb]
      simp [flip, hb]
  have hcap : (t.waits.map fun w => if w.blocked then w.nWait - 1 else w.taken).sum =
      (t.waits.map Waiter.taken).sum + t.room := by
    unfold room
    rw [← List.sum_map_add]
    refine congrArg List.sum (List.map_congr_left fun w hw => ?_)
    have hle := htaken w hw
    cases hb : w.blocked with
    | true =>
      have hlt : w.taken < w.nWait := of_decide_eq_true hb
      simp
      omega
    | false =>
      have hge : ¬w.taken < w.nWait := of_decide_eq_false hb
      simp
      omega
  omega

/-- When the tokens reach the demand of one of the threads that wait, one of them gets its own in every interleaving,
as long as the tokens are more than the demands less one each; and only then. -/
theorem Inv.starves_iff (h : Inv nCount t) :
    (t.Due nCount → ¬t.Starves) ↔ (t.Due nCount → (t.demands : Int) < t.tokens nCount) := by
  refine imp_congr_right fun hdue => ?_
  obtain ⟨count, hcount, -⟩ := h.sema
  have htokens := h.tokens hcount
  have hdemands := h.demands
  obtain ⟨w, hw, hblocked, -⟩ := hdue
  constructor
  case mp =>
    intro hnot
    by_contra hge
    exact hnot (starve h hcount (by omega))
  case mpr =>
    intro hlt
    exact not_starve h hcount (by omega) ⟨w, hw, hblocked⟩

theorem Inv.run (h : Inv nCount t) (hrun : acts.foldlM SemaphoreRunWin32.step t = .ok t') : Inv nCount t' :=
  foldlM_run (Inv nCount) hrun h fun _ _ _ _ hs hstep => hs.step hstep

end SemaphoreRunWin32

/-- With counts that stay within the limit: the semaphore has the count that it has on Linux after the same calls when
every signal asks for `m_nPost`, and in every reachable state, with tokens that reach a demand, a waiter is served in every
interleaving when the demands less one each do not hold all tokens; and only then. -/
theorem win32_same_iff (nCount nWait nPost : Int) (h₀ : 0 ≤ nCount) (h : nCount ≤ SemaphoreExWin32.NSEMACOUNT) :
    (∀ (calls : List SemaphoreCall) s w, calls.foldlM SemaphoreCall.linux (.init nCount nWait nPost) = .ok s →
      calls.foldlM SemaphoreCall.win32 (.init nCount nWait nPost) = .ok w →
      Along SemaphoreCall.win32 SemaphoreCall.Within (.init nCount nWait nPost) calls →
      (w.m_hSema = some s.m_nCount ↔ ∀ c ∈ calls, c.Full (uchar nPost))) ∧
    ∀ (acts : List SemaphoreRunWin32.Action) t, acts.foldlM SemaphoreRunWin32.step (.begin nCount nWait nPost) = .ok t →
      ((t.Due nCount → ¬t.Starves) ↔ (t.Due nCount → (t.demands : Int) < t.tokens nCount)) :=
  ⟨fun _ _ _ hs hw hwithin => SemaphoreCall.same_count_iff h₀ h hs hw hwithin,
    fun _ _ hrun => ((SemaphoreRunWin32.inv_begin h₀ h).run hrun).starves_iff⟩

/-- Of two waiters one wants a token and one wants two. -/
theorem win32_same_two :
    (∃ s w, [SemaphoreCall.semSignal 2, .semWait 1].foldlM SemaphoreCall.linux (.init 0 2 2) = .ok s ∧
      [SemaphoreCall.semSignal 2, .semWait 1].foldlM SemaphoreCall.win32 (.init 0 2 2) = .ok w ∧
      w.m_hSema = some s.m_nCount) ∧
    ∃ t, [SemaphoreRunWin32.Action.semWait 1, .semWait 2, .semSignal 2].foldlM SemaphoreRunWin32.step (.begin 0 2 2) = .ok t ∧
      t.Due 0 ∧ ¬t.Starves := by
  obtain ⟨hcalls, hruns⟩ := win32_same_iff 0 2 2 (by decide) (by decide)
  have hstarts : ∃ t, [SemaphoreRunWin32.Action.semWait 1, .semWait 2, .semSignal 2].foldlM SemaphoreRunWin32.step
      (.begin 0 2 2) = .ok t ∧ (∃ w ∈ t.waits, w.blocked = true ∧ (w.nWait : Int) ≤ t.tokens 0) ∧
      (t.demands : Int) < t.tokens 0 := by decide +kernel
  obtain ⟨t, hrun, hdue, hlt⟩ := hstarts
  exact ⟨⟨_, _, rfl, rfl, (hcalls [.semSignal 2, .semWait 1] _ _ rfl rfl (by decide)).2 (by decide)⟩,
    t, hrun, hdue, (hruns _ t hrun).2 (fun _ => hlt) hdue⟩

/-- A signal for one token of three releases three; and two waiters for two tokens take one each. -/
theorem not_win32_same :
    (∃ s w, [SemaphoreCall.semSignal 1].foldlM SemaphoreCall.linux (.init 0 1 3) = .ok s ∧
      [SemaphoreCall.semSignal 1].foldlM SemaphoreCall.win32 (.init 0 1 3) = .ok w ∧
      s.m_nCount = 1 ∧ w.m_hSema = some 3) ∧
    ∃ t, [SemaphoreRunWin32.Action.semWait 2, .semWait 2, .semSignal 2].foldlM SemaphoreRunWin32.step (.begin 0 2 2) = .ok t ∧
      t.Due 0 ∧ t.Starves := by
  have hstarts : ∃ t, [SemaphoreRunWin32.Action.semWait 2, .semWait 2, .semSignal 2].foldlM SemaphoreRunWin32.step
      (.begin 0 2 2) = .ok t ∧ (∃ w ∈ t.waits, w.blocked = true ∧ (w.nWait : Int) ≤ t.tokens 0) ∧
      t.sem.m_hSema = some 2 ∧ 2 ≤ t.room := by decide +kernel
  obtain ⟨t, hrun, hdue, hcount, hroom⟩ := hstarts
  have hinv := (SemaphoreRunWin32.inv_begin (by decide) (by decide)).run hrun
  exact ⟨⟨_, _, rfl, rfl, by decide, by decide⟩, t, hrun, hdue, SemaphoreRunWin32.starve hinv hcount hroom⟩
