/-
Expired one-shot timers (Thread/TimerMgrImpl_Linux.cpp and, for the same code,
Thread/MsTimerMgrImpl_Linux.cpp).

`DealOnceHandle` goes through the list twice: it calls `TimerProc` for the
timers whose time is over and keeps their indices, and then erases what is at
these indices, from the last to the first. An index is counted before anything
is erased, and what is erased lies behind those still to come
(`eraseTimers_positions`).
-/
import XFramework.Lib.StdList
import XFramework.Thread.Timer

/-- The list, the timers whose `TimerProc` was called and those that were deleted, in the order of the calls. -/
structure OnceTimers (τ : Type) where
  onceLst : StdList τ
  procs : List τ
  deleted : List τ

namespace OnceTimers

variable {τ : Type} (timers : τ → AbstractTimer)

/-- The first loop, from the iterator on. -/
def collect (l : StdList τ) : Nat → Iterator → Nat → List Nat → List τ → Except IteratorFault (List Nat × List τ)
  | 0, _, _, _, _ => .error .outOfFuel
  | fuel + 1, it, index, tmpVec, procs =>
    if it = none then .ok (tmpVec, procs)
    else do
      let t ← l.deref it
      let it ← l.next it
      if (timers t).isTimeout then collect l fuel it (index + 1) (tmpVec ++ [index]) (procs ++ [t])
      else collect l fuel it (index + 1) tmpVec procs

/-- The body of the second loop. -/
def eraseTimer (s : OnceTimers τ) (index : Nat) : Except IteratorFault (OnceTimers τ) := do
  let it ← s.onceLst.advance index s.onceLst.begin
  let t ← s.onceLst.deref it
  let onceLst ← s.onceLst.erase it
  .ok { s with onceLst, deleted := s.deleted ++ [t] }

/-- The second loop: the last index first. -/
def eraseTimers (s : OnceTimers τ) (tmpVec : List Nat) : Except IteratorFault (OnceTimers τ) :=
  tmpVec.reverse.foldlM eraseTimer s

def dealOnceHandle (onceLst : StdList τ) : Except IteratorFault (OnceTimers τ) := do
  let (tmpVec, procs) ← collect timers onceLst (onceLst.size + 1) onceLst.begin 0 [] []
  eraseTimers ⟨onceLst, procs, []⟩ tmpVec

/-- The places of the timers whose time is over, in a list that begins at place `k`. -/
def positions (k : Nat) : List τ → List Nat
  | [] => []
  | t :: ts => if (timers t).isTimeout then k :: positions (k + 1) ts else positions (k + 1) ts

def expired (ts : List τ) : List τ := ts.filter fun t => (timers t).isTimeout

def others (ts : List τ) : List τ := ts.filter fun t => !(timers t).isTimeout

variable {timers} {l : StdList τ} {ts pre : List τ} {t : τ} {k fuel : Nat}

theorem expired_over (h : (timers t).isTimeout = true) : expired timers (t :: ts) = t :: expired timers ts := by
  simp [expired, h]

theorem expired_not (h : ¬(timers t).isTimeout = true) : expired timers (t :: ts) = expired timers ts := by
  simp [expired, h]

theorem others_over (h : (timers t).isTimeout = true) : others timers (t :: ts) = others timers ts := by
  simp [others, h]

theorem others_not (h : ¬(timers t).isTimeout = true) : others timers (t :: ts) = t :: others timers ts := by
  simp [others, h]

theorem collect_positions {tmpVec : List Nat} {procs : List τ} (hdrop : l.toList.drop k = ts) (hf : ts.length < fuel) :
    collect timers l fuel (l.pos k) k tmpVec procs = .ok (tmpVec ++ positions timers k ts, procs ++ expired timers ts) := by
  induction ts generalizing k fuel tmpVec procs with
  | nil =>
    have hend : l.size ≤ k := StdList.length_toList ▸ List.drop_eq_nil_iff.1 hdrop
    obtain ⟨fuel, rfl⟩ := Nat.exists_eq_succ_of_ne_zero (Nat.ne_of_gt hf)
    rw [collect, StdList.pos_end hend, if_pos rfl, positions, expired, List.filter_nil, List.append_nil, List.append_nil]
  | cons t ts ih =>
    obtain ⟨fuel, rfl⟩ := Nat.exists_eq_succ_of_ne_zero (Nat.ne_of_gt (Nat.lt_of_le_of_lt (Nat.zero_le _) hf))
    have hlen : k < l.toList.length := by
      by_contra hge
      rw [List.drop_of_length_le (Nat.not_lt.1 hge)] at hdrop
      cases hdrop
    have hk : k < l.size := StdList.length_toList ▸ hlen
    rw [List.drop_eq_getElem_cons hlen, List.cons.injEq] at hdrop
    obtain ⟨rfl, hrest⟩ := hdrop
    have hne : l.pos k ≠ none := by rw [StdList.pos_of_lt hk]; nofun
    rw [List.length_cons] at hf
    rw [collect, if_neg hne, StdList.deref_pos hlen, StdList.next_pos hk]
    by_cases hover : (timers l.toList[k]).isTimeout = true
    · simp only [bind, Except.bind, if_pos hover, positions, expired_over hover]
      rw [ih hrest (by omega), List.append_assoc, List.append_assoc]
      rfl
    · simp only [bind, Except.bind, if_neg hover, positions, expired_not hover]
      exact ih hrest (by omega)

/-- What is at an index is deleted and erased. -/
theorem eraseTimer_spec {s : OnceTimers τ} (h : s.onceLst.toList = pre ++ t :: ts) :
    ∃ onceLst, eraseTimer s pre.length = .ok ⟨onceLst, s.procs, s.deleted ++ [t]⟩ ∧ onceLst.toList = pre ++ ts := by
  have hlen : pre.length < s.onceLst.toList.length := by
    rw [h, List.length_append, List.length_cons]
    omega
  have hk : pre.length < s.onceLst.size := StdList.length_toList ▸ hlen
  have hadvance : s.onceLst.advance pre.length s.onceLst.begin = .ok (s.onceLst.pos pre.length) := by
    rw [← StdList.pos_zero, StdList.advance_pos (by omega), Nat.zero_add]
  obtain ⟨onceLst, herase, hlist⟩ := StdList.erase_pos hk
  refine ⟨onceLst, ?_, ?_⟩
  · have hderef : s.onceLst.deref (s.onceLst.pos pre.length) = .ok t := by
      rw [StdList.deref_pos hlen]
      simp [h]
    rw [eraseTimer, hadvance]
    simp only [bind, Except.bind, hderef, herase]
  · rw [hlist, h, List.eraseIdx_append_of_length_le (Nat.le_refl _), Nat.sub_self, List.eraseIdx_cons_zero]

/-- The indices still to come stay right: nothing before them is erased. -/
theorem eraseTimers_positions {s : OnceTimers τ} (h : s.onceLst.toList = pre ++ ts) :
    ∃ onceLst, eraseTimers s (positions timers pre.length ts) =
        .ok ⟨onceLst, s.procs, s.deleted ++ (expired timers ts).reverse⟩ ∧ onceLst.toList = pre ++ others timers ts := by
  induction ts generalizing pre with
  | nil => exact ⟨s.onceLst, by simp [eraseTimers, positions, expired]; rfl, h⟩
  | cons t ts ih =>
    have hnext : s.onceLst.toList = (pre ++ [t]) ++ ts := by rw [h, List.append_assoc]; rfl
    obtain ⟨onceLst, hrest, hlist⟩ := ih hnext
    rw [List.length_append, List.length_singleton] at hrest
    rw [List.append_assoc] at hlist
    by_cases hover : (timers t).isTimeout = true
    · have hlist' : onceLst.toList = pre ++ t :: others timers ts := hlist
      obtain ⟨onceLst', herase, hleft⟩ :=
        eraseTimer_spec (s := ⟨onceLst, s.procs, s.deleted ++ (expired timers ts).reverse⟩) hlist'
      refine ⟨onceLst', ?_, by rw [hleft, others_over hover]⟩
      rw [eraseTimers] at hrest
      rw [positions, if_pos hover, eraseTimers, List.reverse_cons, List.foldlM_append, hrest, expired_over hover,
        List.reverse_cons, ← List.append_assoc]
      exact (bind_pure _).trans herase
    · refine ⟨onceLst, ?_, by rw [hlist, others_not hover]; rfl⟩
      rw [positions, if_neg hover, hrest, expired_not hover]

/-- `TimerProc` is called for the expired timers in their order, they are deleted, and the others stay in theirs. -/
theorem dealOnceHandle_spec (timers : τ → AbstractTimer) (onceLst : StdList τ) :
    ∃ l, dealOnceHandle timers onceLst = .ok ⟨l, expired timers onceLst.toList, (expired timers onceLst.toList).reverse⟩ ∧
      l.toList = others timers onceLst.toList := by
  have hcollect : collect timers onceLst (onceLst.size + 1) (onceLst.pos 0) 0 [] [] =
      .ok ([] ++ positions timers 0 onceLst.toList, [] ++ expired timers onceLst.toList) :=
    collect_positions List.drop_zero (StdList.length_toList ▸ Nat.lt_succ_self _)
  rw [StdList.pos_zero] at hcollect
  have hpositions := @eraseTimers_positions τ timers onceLst.toList [] ⟨onceLst, expired timers onceLst.toList, []⟩ rfl
  obtain ⟨l, herase, hlist⟩ := hpositions
  exact ⟨l, by rw [dealOnceHandle, hcollect]; exact herase, hlist⟩

end OnceTimers
