/-
`FindAvailable` with its loop as it is written (Mem/ObjPool.h): a library
search that starts again behind each hit.

`scan` of `ObjPool` goes over the slots once. The loop comes to its end
within one turn more than there are slots, with what the scan gives, which is
the first run of slots that is long enough.
-/
import XFramework.Mem.ObjPool

namespace ObjPool

/-- `find_if` with `TCompareByFlag(type)` in the slots `xs`, the first of which is at `itBegin`. -/
def findIf (type : Nat) : List TNode → Nat → Nat
  | [], itBegin => itBegin
  | x :: xs, itBegin => if x.nFlag = type then itBegin else findIf type xs (itBegin + 1)

/-- The `do` loop. It has no answer when it goes on after `fuel` turns. -/
def findLoop (m_vecPMem : List TNode) (type n : Nat) : Nat → Nat → Nat → Nat → Option (Option Nat)
  | 0, _, _, _ => none
  | fuel + 1, nCount, itStart, itBegin =>
    let it := findIf type (m_vecPMem.drop itBegin) itBegin
    if it = m_vecPMem.length then some (if nCount = n then some itStart else none)
    else
      let next := nextRun it nCount itStart itBegin
      if next.1 = n then some (some next.2) else findLoop m_vecPMem type n fuel next.1 next.2 (it + 1)

/-- The first run of `n` slots that have the flag. -/
def FirstFit (xs : List TNode) (flag n : Nat) : Option Nat → Prop
  | none => ∀ i, ¬Flagged xs flag i (i + n)
  | some i => Flagged xs flag i (i + n) ∧ ∀ j < i, ¬Flagged xs flag j (j + n)

variable {type n i nCount itStart itBegin s fuel : Nat} {xs pre : List TNode}

/-! ## The loop -/

theorem le_findIf (type : Nat) (xs : List TNode) (i : Nat) : i ≤ findIf type xs i := by
  induction xs generalizing i with
  | nil => exact Nat.le_refl i
  | cons x xs ih =>
    unfold findIf
    split
    · exact Nat.le_refl i
    · have := ih (i + 1)
      omega

theorem findIf_le (type : Nat) (xs : List TNode) (i : Nat) : findIf type xs i ≤ i + xs.length := by
  induction xs generalizing i with
  | nil => exact Nat.le_refl i
  | cons x xs ih =>
    unfold findIf
    have := ih (i + 1)
    simp only [List.length_cons]
    split <;> omega

/-- The scan passes the slots that the search passes. -/
theorem scan_findIf (xs : List TNode) (i : Nat) : scan type n xs i nCount itStart itBegin =
    if findIf type xs i = i + xs.length then (if nCount = n then some itStart else none)
    else
      let next := nextRun (findIf type xs i) nCount itStart itBegin
      if next.1 = n then some next.2
      else scan type n (xs.drop (findIf type xs i + 1 - i)) (findIf type xs i + 1) next.1 next.2 (findIf type xs i + 1) := by
  induction xs generalizing i with
  | nil => simp [scan, findIf]
  | cons x xs ih =>
    unfold findIf
    by_cases hflag : x.nFlag = type
    · simp [scan, hflag]
    · have hle := le_findIf type xs (i + 1)
      have hdrop : findIf type xs (i + 1) + 1 - i = findIf type xs (i + 1) + 1 - (i + 1) + 1 := by omega
      have hlen : i + (x :: xs).length = i + 1 + xs.length := by simp; omega
      rw [scan, if_neg hflag, if_neg hflag, ih, hdrop, hlen, List.drop_succ_cons]

/-- A turn passes one slot at least, so that the slots left are the bound. -/
theorem findLoop_eq (xs : List TNode) (hbegin : itBegin ≤ xs.length) (hfuel : xs.length < itBegin + fuel) :
    findLoop xs type n fuel nCount itStart itBegin = some (scan type n (xs.drop itBegin) itBegin nCount itStart itBegin) := by
  induction fuel generalizing nCount itStart itBegin with
  | zero => omega
  | succ fuel ih =>
    have hle := le_findIf type (xs.drop itBegin) itBegin
    have hlen : itBegin + (xs.drop itBegin).length = xs.length := by simp; omega
    rw [findLoop, scan_findIf, hlen]
    simp only [List.drop_drop]
    split_ifs with hend hfull hfull
    · rfl
    · rfl
    · rfl
    · have hin := findIf_le type (xs.drop itBegin) itBegin
      have hnext : itBegin + (findIf type (xs.drop itBegin) itBegin + 1 - itBegin) =
          findIf type (xs.drop itBegin) itBegin + 1 := by omega
      rw [hnext]
      exact ih (by omega) (by omega)

theorem findLoop_findAvailable (xs : List TNode) (hfuel : xs.length < fuel) :
    findLoop xs type n fuel 0 xs.length 0 = some (findAvailable xs type n) := by
  rw [findLoop_eq xs (Nat.zero_le _) (by omega)]
  rfl

/-! ## The first run -/

/-- No run starts before the one that the scan finds. -/
theorem Passed.scan (hpassed : Passed type n pre nCount itStart itBegin)
    (h : scan type n xs pre.length nCount itStart itBegin = some s) {j : Nat} (hj : j < s) :
    ¬Flagged (pre ++ xs) type j (j + n) := by
  induction xs generalizing pre nCount itStart itBegin with
  | nil =>
    rw [ObjPool.scan, if_neg (Nat.ne_of_lt hpassed.run.short)] at h
    cases h
  | cons x xs ih =>
    have hsplit : pre ++ x :: xs = (pre ++ [x]) ++ xs := by simp
    have hlen : (pre ++ [x]).length = pre.length + 1 := by simp
    rw [ObjPool.scan] at h
    rw [hsplit]
    by_cases hflag : x.nFlag = type
    · subst hflag
      rw [if_pos rfl] at h
      dsimp only at h
      by_cases hfull : (nextRun pre.length nCount itStart itBegin).1 = n
      · rw [if_pos hfull] at h
        cases h
        -- it ends where the run that was found ends, or before
        obtain ⟨-, -, hends, -⟩ := hpassed.run.next (x := x)
        intro hrun
        refine hpassed.none j ?_
        rw [List.append_assoc] at hrun
        exact hrun.of_append (by omega)
      · rw [if_neg hfull, ← hlen] at h
        exact ih (hlen ▸ hpassed.next hfull) h
    · rw [if_neg hflag, ← hlen] at h
      exact ih (hpassed.skip hflag) h

theorem findAvailable_firstFit (hn : 0 < n) : FirstFit xs type n (findAvailable xs type n) := by
  cases h : findAvailable xs type n with
  | none => exact fun i hi => (findAvailable_eq_none_iff hn).1 h ⟨i, hi⟩
  | some s => exact ⟨(findAvailable_spec hn h).2, fun j hj => (Passed.nil hn).scan h hj⟩

end ObjPool
