/-
The counting semaphore with amounts (Thread/SemaphoreExImpl_Linux.cpp).

All that a call does to the shared data stands between `pthread_mutex_lock`
and `pthread_mutex_unlock`, or `pthread_cond_wait`, so these sections are the
steps: of `SemSignal`, of `SemWait`, and of a waiter that was woken and tests
again. The counter and the default amounts are `unsigned char`, the amounts of
a call `int`, so the counter is what was posted and not taken exactly as long
as no post takes it over 255 (`conserved_run`).

A post signals one waiter, and the waiters may want different amounts. Nobody
sleeps on who could be served as long as the tokens nobody awake asks for are
too few for each sleeper (`Covered`, `none_lost_run`); when they are not, the
waiters that are awake leave one behind (`lost_of_not_covered`).
-/
import Mathlib.Algebra.Order.BigOperators.Group.Multiset
import XFramework.Lib.CondVar
import XFramework.Lib.Fallible

open Fallible

/-- The conversion to `unsigned char`. -/
def uchar (x : Int) : Nat := (x % 256).toNat

theorem uchar_lt {x : Int} : uchar x < 256 := by
  rw [uchar]
  omega

theorem uchar_of_lt {x : Int} (h₀ : 0 ≤ x) (h : x < 256) : (uchar x : Int) = x := by
  rw [uchar]
  omega

/-- The waiters are told apart by their `nWait`. -/
structure SemaphoreExImpl where
  m_nCount : Nat
  m_nWait : Nat
  m_nPost : Nat
  m_cond : CondVar Int

namespace SemaphoreExImpl

def init (nCount nWait nPost : Int) : SemaphoreExImpl := ⟨uchar nCount, uchar nWait, uchar nPost, .new⟩

/-- What `SemSignal(n)` adds. -/
def postAmount (s : SemaphoreExImpl) (n : Int) : Int := if n > 0 ∧ n < s.m_nPost then n else s.m_nPost

/-- `nWait` of `SemWait(n)`. -/
def waitAmount (s : SemaphoreExImpl) (n : Int) : Int := if n > 0 ∧ n < s.m_nWait then n else s.m_nWait

/-- `SemSignal(n)`, whose signal picks the waiter `w`. -/
def semSignal (s : SemaphoreExImpl) (n w : Int) : SemaphoreExImpl :=
  { s with m_nCount := uchar (s.m_nCount + s.postAmount n), m_cond := s.m_cond.signal w }

/-- `SemWait` from a test of its loop on, and whether it returns or sleeps. -/
def tryWait (s : SemaphoreExImpl) (nWait : Int) : SemaphoreExImpl × Bool :=
  if s.m_nCount < nWait then ({ s with m_cond := s.m_cond.sleep nWait }, false)
  else ({ s with m_nCount := uchar (s.m_nCount - nWait) }, true)

/-- The waiter `w`, which was woken, tests again. -/
def resume (s : SemaphoreExImpl) (w : Int) : SemaphoreExImpl × Bool :=
  { s with m_cond := s.m_cond.resume w }.tryWait w

end SemaphoreExImpl

/-- A semaphore that any number of threads use; `posted` and `taken` are what `SemSignal` has added and
the calls of `SemWait` that have returned have taken. -/
structure SemaphoreRun where
  sem : SemaphoreExImpl
  posted : Int
  taken : Int

namespace SemaphoreRun

/-- Sections of threads: `wake` is a waiter that wakes without a signal. -/
inductive Action
  | semSignal (n w : Int)
  | semWait (n : Int)
  | resume (w : Int)
  | wake (w : Int)

def begin (nCount nWait nPost : Int) : SemaphoreRun := ⟨.init nCount nWait nPost, 0, 0⟩

def waited (t : SemaphoreRun) (nWait : Int) (r : SemaphoreExImpl × Bool) : SemaphoreRun :=
  { t with sem := r.1, taken := if r.2 then t.taken + nWait else t.taken }

def step (t : SemaphoreRun) : Action → Except Blocked SemaphoreRun
  | .semSignal n w =>
    if t.sem.m_cond.Picks w then .ok { t with sem := t.sem.semSignal n w, posted := t.posted + t.sem.postAmount n }
    else .error .blocked
  | .semWait n => .ok (t.waited (t.sem.waitAmount n) (t.sem.tryWait (t.sem.waitAmount n)))
  | .resume w => if w ∈ t.sem.m_cond.woken then .ok (t.waited w (t.sem.resume w)) else .error .blocked
  | .wake w =>
    if w ∈ t.sem.m_cond.asleep then .ok { t with sem := { t.sem with m_cond := t.sem.m_cond.signal w } }
    else .error .blocked

/-- The counter is what there was in the beginning and was posted and not taken. -/
def Conserved (nCount : Int) (t : SemaphoreRun) : Prop :=
  t.sem.m_nCount = nCount + t.posted - t.taken ∧ 0 ≤ nCount + t.posted - t.taken

/-- A post does not take the counter over what an `unsigned char` holds. -/
def HasRoom (t : SemaphoreRun) : Action → Prop
  | .semSignal n _ => t.sem.m_nCount + t.sem.postAmount n ≤ 255
  | _ => True

/-- When nobody who was woken is still to run, nobody sleeps on who could be served. -/
def NoneLost (t : SemaphoreRun) : Prop :=
  t.sem.m_cond.woken = 0 → ∀ d ∈ t.sem.m_cond.asleep, t.sem.m_nCount < d

/-- The tokens beyond what the woken waiters ask for are too few for each sleeper: behind a post, with the
waiter it wakes among the woken, and when a woken waiter goes to sleep again. -/
def Covers (t : SemaphoreRun) : Action → Prop
  | .semSignal n w => w ∈ t.sem.m_cond.asleep → ∀ d ∈ t.sem.m_cond.asleep.erase w,
      t.sem.m_nCount + t.sem.postAmount n < d + (w + t.sem.m_cond.woken.sum)
  | .resume w => t.sem.m_nCount < w → ∀ d ∈ t.sem.m_cond.asleep,
      t.sem.m_nCount < d + (t.sem.m_cond.woken.erase w).sum
  | _ => True

/-- The amounts are those of an `unsigned char`. -/
structure Bounded (t : SemaphoreRun) : Prop where
  count : t.sem.m_nCount < 256
  wait : t.sem.m_nWait < 256
  post : t.sem.m_nPost < 256
  asleep : ∀ d ∈ t.sem.m_cond.asleep, 0 ≤ d ∧ d < 256
  woken : ∀ d ∈ t.sem.m_cond.woken, 0 ≤ d ∧ d < 256

def Covered (t : SemaphoreRun) : Prop :=
  ∀ d ∈ t.sem.m_cond.asleep, t.sem.m_nCount < d + t.sem.m_cond.woken.sum

variable {t t' : SemaphoreRun} {a : Action} {acts : List Action} {n w d nCount nWait nPost : Int}

theorem bounded_begin : Bounded (begin nCount nWait nPost) :=
  ⟨uchar_lt, uchar_lt, uchar_lt, by simp [begin, SemaphoreExImpl.init], by simp [begin, SemaphoreExImpl.init]⟩

theorem Bounded.postAmount (h : Bounded t) : 0 ≤ t.sem.postAmount n ∧ t.sem.postAmount n < 256 := by
  have := h.post
  rw [SemaphoreExImpl.postAmount]
  split_ifs <;> omega

theorem Bounded.waitAmount (h : Bounded t) : 0 ≤ t.sem.waitAmount n ∧ t.sem.waitAmount n < 256 := by
  have := h.wait
  rw [SemaphoreExImpl.waitAmount]
  split_ifs <;> omega

/-- A waiter tests the counter. -/
theorem waited_cases (t : SemaphoreRun) (w : Int) :
    (t.sem.m_nCount < w ∧ t.waited w (t.sem.tryWait w) = { t with sem := { t.sem with m_cond := t.sem.m_cond.sleep w } }) ∨
    (w ≤ t.sem.m_nCount ∧ t.waited w (t.sem.tryWait w) =
      { t with sem := { t.sem with m_nCount := uchar (t.sem.m_nCount - w) }, taken := t.taken + w }) := by
  rw [SemaphoreExImpl.tryWait]
  by_cases h : t.sem.m_nCount < w
  · rw [if_pos h]
    exact .inl ⟨h, rfl⟩
  · rw [if_neg h]
    exact .inr ⟨not_lt.1 h, rfl⟩

/-- The waiter `w` is no longer among the woken. -/
def resumed (t : SemaphoreRun) (w : Int) : SemaphoreRun :=
  { t with sem := { t.sem with m_cond := t.sem.m_cond.resume w } }

theorem waited_resume : t.waited w (t.sem.resume w) = (t.resumed w).waited w ((t.resumed w).sem.tryWait w) := rfl

theorem Bounded.resumed (h : Bounded t) : Bounded (t.resumed w) :=
  ⟨h.count, h.wait, h.post, h.asleep, fun d hd => h.woken d (Multiset.mem_of_mem_erase hd)⟩

theorem Bounded.signal (h : Bounded t) :
    Bounded { t with sem := { t.sem with m_cond := t.sem.m_cond.signal w } } := by
  by_cases hw : w ∈ t.sem.m_cond.asleep
  · refine ⟨h.count, h.wait, h.post, fun d hd => h.asleep d (CondVar.mem_asleep_of_signal hd), fun d hd => ?_⟩
    rw [CondVar.signal_of_mem hw] at hd
    rcases Multiset.mem_cons.1 hd with rfl | hd
    · exact h.asleep d hw
    · exact h.woken d hd
  · rw [CondVar.signal, if_neg hw]
    exact h

/-! ## The tokens -/

/-- The tokens posted and not taken that the counter does not show. -/
def drift (t : SemaphoreRun) : Int := t.posted - t.taken - t.sem.m_nCount

theorem Bounded.waited (h : Bounded t) (hw : 0 ≤ w ∧ w < 256) :
    Bounded (t.waited w (t.sem.tryWait w)) ∧ (t.waited w (t.sem.tryWait w)).drift = t.drift := by
  obtain ⟨-, ht⟩ | ⟨hle, ht⟩ := waited_cases t w
  · rw [ht]
    refine ⟨⟨h.count, h.wait, h.post, fun d hd => ?_, h.woken⟩, rfl⟩
    rcases Multiset.mem_cons.1 hd with rfl | hd
    · exact hw
    · exact h.asleep d hd
  · rw [ht]
    have hcount : (uchar (t.sem.m_nCount - w) : Int) = t.sem.m_nCount - w :=
      uchar_of_lt (by omega) (by have := h.count; omega)
    refine ⟨⟨uchar_lt, h.wait, h.post, h.asleep, h.woken⟩, ?_⟩
    simp only [drift, hcount]
    omega

/-- Only a post that takes the counter over 255 loses tokens. -/
theorem Bounded.step (h : Bounded t) (hstep : t.step a = .ok t') :
    Bounded t' ∧ t.drift ≤ t'.drift ∧ (t'.drift = t.drift ↔ HasRoom t a) := by
  cases a with
  | semSignal n w =>
    rw [SemaphoreRun.step] at hstep
    split_ifs at hstep
    cases hstep
    have hpost := h.postAmount (n := n)
    have hcount := h.count
    have hsignal := h.signal (w := w)
    refine ⟨⟨uchar_lt, h.wait, h.post, hsignal.asleep, hsignal.woken⟩, ?_⟩
    simp only [drift, HasRoom, SemaphoreExImpl.semSignal, uchar]
    omega
  | semWait n =>
    cases hstep
    obtain ⟨hb, hd⟩ := h.waited h.waitAmount (w := t.sem.waitAmount n)
    exact ⟨hb, hd.ge, iff_of_true hd trivial⟩
  | resume w =>
    rw [SemaphoreRun.step] at hstep
    split_ifs at hstep with hw
    cases hstep
    obtain ⟨hb, hd⟩ := h.resumed.waited (h.woken w hw) (t := t.resumed w)
    exact ⟨hb, hd.ge, iff_of_true hd trivial⟩
  | wake w =>
    rw [SemaphoreRun.step] at hstep
    split_ifs at hstep
    cases hstep
    exact ⟨h.signal, le_refl _, iff_of_true rfl trivial⟩

/-- In every run, of any length and with any amounts, the counter is what there was and was posted and not
taken exactly when no post has taken it over 255. -/
theorem conserved_run (h₀ : 0 ≤ nCount) (h : nCount ≤ 255) (hrun : acts.foldlM step (begin nCount nWait nPost) = .ok t) :
    Conserved nCount t ↔ Along step HasRoom (begin nCount nWait nPost) acts := by
  obtain ⟨-, hiff⟩ := along_iff_measure Bounded drift hrun bounded_begin fun _ _ _ _ hb hstep => hb.step hstep
  have hbegin : (begin nCount nWait nPost).drift = -nCount := by
    have : (uchar nCount : Int) = nCount := uchar_of_lt h₀ (by omega)
    simp [drift, begin, SemaphoreExImpl.init, this]
  rw [← hiff, hbegin, drift, Conserved]
  omega

instance : ∀ a, Decidable (HasRoom t a)
  | .semSignal n _ => inferInstanceAs (Decidable (t.sem.m_nCount + t.sem.postAmount n ≤ 255))
  | .semWait _ | .resume _ | .wake _ => isTrue trivial

/-- A waiter for two of three tokens sleeps until they are posted. -/
def threeActions : List Action := [.semWait (-1), .semSignal 2 2, .resume 2]

theorem conserved_run_three : ∃ t, threeActions.foldlM step (begin 1 2 3) = .ok t ∧ t.sem.m_nCount = 1 ∧ Conserved 1 t := by
  have hended : ∃ t, threeActions.foldlM step (begin 1 2 3) = .ok t ∧ t.sem.m_nCount = 1 := by decide +kernel
  obtain ⟨t, ht, hcount⟩ := hended
  exact ⟨t, ht, hcount, (conserved_run (by decide) (by decide) ht).2 (by decide +kernel)⟩

/-- With 255 tokens there, one more post leaves none. -/
theorem not_conserved_full : ∃ t, [Action.semSignal (-1) 0].foldlM step (begin 255 1 1) = .ok t ∧
    t.sem.m_nCount = 0 ∧ ¬Conserved 255 t := by
  refine ⟨_, rfl, by decide, fun h => ?_⟩
  have := h.1
  revert this
  decide

/-! ## The wake-ups -/

theorem Bounded.woken_sum (h : Bounded t) : 0 ≤ t.sem.m_cond.woken.sum :=
  Multiset.sum_nonneg fun d hd => (h.woken d hd).1

theorem Covered.noneLost (h : Covered t) : NoneLost t := by
  intro hw d hd
  have := h d hd
  rw [hw, Multiset.sum_zero, add_zero] at this
  exact this

theorem woken_sum_erase (hw : w ∈ t.sem.m_cond.woken) :
    w + (t.sem.m_cond.woken.erase w).sum = t.sem.m_cond.woken.sum := by
  rw [← Multiset.sum_cons, Multiset.cons_erase hw]

/-- A sleeper is woken. -/
theorem Covered.wake (h : Covered t) (hw : w ∈ t.sem.m_cond.asleep) (hb : Bounded t) :
    Covered { t with sem := { t.sem with m_cond := t.sem.m_cond.signal w } } := by
  intro d hd
  have hlt := h d (CondVar.mem_asleep_of_signal hd)
  have h₀ := (hb.asleep w hw).1
  simp only [CondVar.signal_of_mem hw, Multiset.sum_cons]
  omega

theorem Covered.step (h : Covered t) (hb : Bounded t) (hok : Covers t a) (hstep : t.step a = .ok t') : Covered t' := by
  cases a with
  | semSignal n w =>
    rw [SemaphoreRun.step] at hstep
    split_ifs at hstep with hpicks
    cases hstep
    intro d hd
    have hle : (uchar (t.sem.m_nCount + t.sem.postAmount n) : Int) ≤ t.sem.m_nCount + t.sem.postAmount n := by
      have := (hb.postAmount (n := n)).1
      rw [uchar]
      omega
    simp only [SemaphoreExImpl.semSignal] at hd ⊢
    cases hpicks with
    | inl hw =>
      simp only [CondVar.signal_of_mem hw, Multiset.sum_cons] at hd ⊢
      exact hle.trans_lt (hok hw d hd)
    | inr hempty =>
      have := CondVar.mem_asleep_of_signal hd
      rw [hempty] at this
      simp at this
  | semWait n =>
    cases hstep
    have hsum := hb.woken_sum
    obtain ⟨hlt, ht⟩ | ⟨hle, ht⟩ := waited_cases t (t.sem.waitAmount n)
    · rw [ht]
      intro d hd
      rcases Multiset.mem_cons.1 hd with rfl | hd
      · exact hlt.trans_le (le_add_of_nonneg_right hsum)
      · exact h d hd
    · rw [ht]
      intro d hd
      have := h d hd
      have h₀ := (hb.waitAmount (n := n)).1
      have hcount := hb.count
      simp only [uchar]
      omega
  | resume w =>
    rw [SemaphoreRun.step] at hstep
    split_ifs at hstep with hw
    cases hstep
    rw [waited_resume]
    have hsum := hb.resumed.woken_sum (t := t.resumed w)
    have herase := woken_sum_erase hw
    obtain ⟨hlt, ht⟩ | ⟨hle, ht⟩ := waited_cases (t.resumed w) w
    · rw [ht]
      intro d hd
      rcases Multiset.mem_cons.1 hd with rfl | hd
      · exact hlt.trans_le (le_add_of_nonneg_right hsum)
      · exact hok hlt d hd
    · rw [ht]
      intro d hd
      have := h d hd
      have h₀ := (hb.woken w hw).1
      have hcount := hb.count
      simp only [resumed, CondVar.woken_resume, uchar] at hle ⊢
      omega
  | wake w =>
    rw [SemaphoreRun.step] at hstep
    split_ifs at hstep with hw
    cases hstep
    exact h.wake hw hb

/-- In every run in which the tokens beyond what the woken waiters ask for stay too few for each sleeper,
nobody sleeps on who could be served. -/
theorem none_lost_run (hk : Along step Covers (begin nCount nWait nPost) acts)
    (hrun : acts.foldlM step (begin nCount nWait nPost) = .ok t) : NoneLost t := by
  refine (hk.keeps (fun t => Bounded t ∧ Covered t) hrun ⟨bounded_begin, ?_⟩ fun s a t hs hok hstep => ?_).2.noneLost
  · intro d hd
    simp [begin, SemaphoreExImpl.init] at hd
  · exact ⟨(hs.1.step hstep).1, hs.2.step hs.1 hok hstep⟩

instance : ∀ a, Decidable (Covers t a)
  | .semSignal n w => inferInstanceAs (Decidable (w ∈ t.sem.m_cond.asleep → ∀ d ∈ t.sem.m_cond.asleep.erase w,
      t.sem.m_nCount + t.sem.postAmount n < d + (w + t.sem.m_cond.woken.sum)))
  | .resume w => inferInstanceAs (Decidable (t.sem.m_nCount < w → ∀ d ∈ t.sem.m_cond.asleep,
      t.sem.m_nCount < d + (t.sem.m_cond.woken.erase w).sum))
  | .semWait _ | .wake _ => isTrue trivial

/-- Waiters for three tokens and for one; the one for one is woken by the post of one. -/
def servedActions : List Action := [.semWait 3, .semWait 1, .semSignal 1 1, .resume 1]

theorem none_lost_run_served : ∃ t, servedActions.foldlM step (begin 0 3 3) = .ok t ∧ t.sem.m_cond.asleep = {3} ∧ NoneLost t := by
  have hended : ∃ t, servedActions.foldlM step (begin 0 3 3) = .ok t ∧ t.sem.m_cond.asleep = {3} := by decide +kernel
  obtain ⟨t, ht, hasleep⟩ := hended
  exact ⟨t, ht, hasleep, none_lost_run (by decide +kernel) ht⟩

/-- The post of one wakes the waiter for three, which goes to sleep again. -/
theorem lost_other_amount : ∃ t, [Action.semWait 3, .semWait 1, .semSignal 1 3, .resume 3].foldlM step (begin 0 3 3) = .ok t ∧
    t.sem.m_nCount = 1 ∧ ¬NoneLost t := by
  have hended : ∃ t, [Action.semWait 3, .semWait 1, .semSignal 1 3, .resume 3].foldlM step (begin 0 3 3) = .ok t ∧
      t.sem.m_nCount = 1 ∧ t.sem.m_cond.woken = 0 ∧ 1 ∈ t.sem.m_cond.asleep := by decide +kernel
  obtain ⟨t, ht, hcount, hwoken, hone⟩ := hended
  refine ⟨t, ht, hcount, fun h => ?_⟩
  have := h hwoken 1 hone
  rw [hcount] at this
  exact absurd this (by decide)

/-- When they reach for a sleeper, the waiters that are awake leave it behind. -/
theorem lost_of_not_covered (hb : Bounded t) (hd : d ∈ t.sem.m_cond.asleep)
    (hle : d + t.sem.m_cond.woken.sum ≤ t.sem.m_nCount) : ∃ (acts : List Action) (t' : SemaphoreRun), acts.foldlM step t = .ok t' ∧ ¬NoneLost t' := by
  induction hwoken : t.sem.m_cond.woken using Multiset.induction generalizing t with
  | empty =>
    rw [hwoken, Multiset.sum_zero, add_zero] at hle
    exact ⟨[], t, rfl, fun h => absurd (h hwoken d hd) (not_lt.2 hle)⟩
  | cons w woken ih =>
    have hw : w ∈ t.sem.m_cond.woken := hwoken ▸ Multiset.mem_cons_self w woken
    have herase := woken_sum_erase hw
    have hsum := hb.resumed.woken_sum (t := t.resumed w)
    have hcount := hb.count
    have h₀ := hb.woken w hw
    have hd₀ := hb.asleep d hd
    simp only [resumed, CondVar.woken_resume] at hsum
    obtain ⟨hlt, -⟩ | ⟨-, ht⟩ := waited_cases (t.resumed w) w
    · simp only [resumed] at hlt
      omega
    · have hstep : t.step (.resume w) = .ok _ := (if_pos hw).trans (congrArg _ (waited_resume.trans ht))
      have hnext := (hb.step hstep).1
      obtain ⟨acts, t', hrun, hlost⟩ := ih hnext hd (by simp only [resumed, CondVar.woken_resume, uchar]; omega)
        (by simp only [resumed, CondVar.woken_resume, hwoken, Multiset.erase_cons_head])
      exact ⟨.resume w :: acts, t', foldlM_cons_ok.2 ⟨_, hstep, hrun⟩, hlost⟩

/-! ## The default amounts -/

/-- A call without an amount of its own. -/
def Default : Action → Prop
  | .semSignal n _ | .semWait n => n ≤ 0
  | .resume _ | .wake _ => True

/-- All waiters want the default amount, and a post gives no more than one of them takes. -/
structure Uniform (t : SemaphoreRun) : Prop where
  waiters : ∀ d ∈ t.sem.m_cond.asleep + t.sem.m_cond.woken, d = t.sem.m_nWait
  post : t.sem.m_nPost ≤ t.sem.m_nWait

theorem Uniform.covers (h : Uniform t) (hc : Covered t) (hb : Bounded t) (ha : Default a) : Covers t a := by
  have hasleep : ∀ d ∈ t.sem.m_cond.asleep, d = t.sem.m_nWait := fun d hd => h.waiters d (Multiset.mem_add.2 (.inl hd))
  have hpost := h.post
  cases a with
  | semSignal n w =>
    intro hw d hd
    have hamount : t.sem.postAmount n = t.sem.m_nPost := if_neg fun hn => absurd hn.1 (not_lt.2 ha)
    have := hc w hw
    rw [hamount, hasleep d (Multiset.mem_of_mem_erase hd)]
    omega
  | semWait n => trivial
  | resume w =>
    intro hlt d hd
    have hsum : 0 ≤ (t.sem.m_cond.woken.erase w).sum := hb.resumed.woken_sum (t := t.resumed w)
    by_cases hw : w ∈ t.sem.m_cond.woken
    · have := h.waiters w (Multiset.mem_add.2 (.inr hw))
      have := hasleep d hd
      omega
    · have := hc d hd
      rwa [Multiset.erase_of_notMem hw]
  | wake w => trivial

theorem Uniform.waited (h : Uniform t) (hw : w = t.sem.m_nWait) : Uniform (t.waited w (t.sem.tryWait w)) := by
  obtain ⟨-, ht⟩ | ⟨-, ht⟩ := waited_cases t w
  · rw [ht]
    refine ⟨fun d hd => ?_, h.post⟩
    simp only [CondVar.asleep_sleep, CondVar.woken_sleep, Multiset.cons_add, Multiset.mem_cons] at hd
    cases hd with
    | inl hd => exact hd.trans hw
    | inr hd => exact h.waiters d hd
  · rw [ht]
    exact ⟨h.waiters, h.post⟩

theorem Uniform.step (h : Uniform t) (ha : Default a) (hstep : t.step a = .ok t') : Uniform t' := by
  cases a with
  | semSignal n w =>
    rw [SemaphoreRun.step] at hstep
    split_ifs at hstep
    cases hstep
    refine ⟨?_, h.post⟩
    simp only [SemaphoreExImpl.semSignal, CondVar.waiters_signal]
    exact h.waiters
  | semWait n =>
    cases hstep
    exact h.waited (if_neg fun hn => absurd hn.1 (not_lt.2 ha))
  | resume w =>
    rw [SemaphoreRun.step] at hstep
    split_ifs at hstep with hw
    cases hstep
    have hresumed : Uniform (t.resumed w) := by
      refine ⟨fun d hd => h.waiters d ?_, h.post⟩
      rcases Multiset.mem_add.1 hd with hd | hd
      · exact Multiset.mem_add.2 (.inl hd)
      · exact Multiset.mem_add.2 (.inr (Multiset.mem_of_mem_erase hd))
    exact hresumed.waited (h.waiters w (Multiset.mem_add.2 (.inr hw)))
  | wake w =>
    rw [SemaphoreRun.step] at hstep
    split_ifs at hstep
    cases hstep
    refine ⟨?_, h.post⟩
    simp only [CondVar.waiters_signal]
    exact h.waiters

/-- With the default amounts only, and a post that serves one waiter at most, no wake-up is lost. -/
theorem none_lost_default (hle : uchar nPost ≤ uchar nWait) (ha : ∀ a ∈ acts, Default a)
    (hrun : acts.foldlM step (begin nCount nWait nPost) = .ok t) : NoneLost t := by
  have hkept := foldlM_run (fun t => Bounded t ∧ Covered t ∧ Uniform t) hrun
    ⟨bounded_begin, fun d hd => by simp [begin, SemaphoreExImpl.init] at hd,
      ⟨fun d hd => by simp [begin, SemaphoreExImpl.init] at hd, hle⟩⟩
    fun s t a hin hs hstep => by
      obtain ⟨hb, hc, hu⟩ := hs
      exact ⟨(hb.step hstep).1, hc.step hb (hu.covers hc hb (ha a hin)) hstep, hu.step (ha a hin) hstep⟩
  exact hkept.2.1.noneLost

end SemaphoreRun
