/-
What `FindAvailable` finds (Mem/MemMgr.cpp): the first run of '0' that is long
enough, and none only when there is none. A string of flags has any length
here; those of a node are in its page.
-/
import XFramework.Mem.MemMgr

open Bytes Fallible

namespace MemMgr

variable {m : Mem} {p stop first cur pBegin : Int} {n fuel count limit : Nat} {bFlag : Bool} {r : Option Nat}

/-- No run of `n` flags from `a` on is free. -/
def Blocked (m : Mem) (n : Nat) (a : Int) : Prop := ∃ x, a ≤ x ∧ x < a + n ∧ m x ≠ zero

/-- The answer of `FindAvailable` for the string from `p` to `stop`. -/
def Found (m : Mem) (p stop : Int) (n : Nat) : Option Nat → Prop
  | none => ∀ a, p ≤ a → a + n ≤ stop → Blocked m n a
  | some i => (p + i + n ≤ stop ∧ ∀ x, p + i ≤ x → x < p + i + n → m x = zero) ∧ ∀ a, p ≤ a → a < p + i → Blocked m n a

/-- The flags from `first` to `cur`, `count` of them, are free, and no run starts before. -/
structure Searching (m : Mem) (p stop : Int) (n : Nat) (first cur : Int) (count : Nat) : Prop where
  le : p ≤ first
  count_eq : first + count = cur + 1
  pos : 0 < count
  few : count < n
  lt : cur < stop
  zeros : ∀ x, first ≤ x → x ≤ cur → m x = zero
  blocked : ∀ a, p ≤ a → a < first → Blocked m n a

/-- No free flag follows. -/
theorem Searching.last (h : Searching m p stop n first cur count) (hnone : ∀ x, cur + 1 ≤ x → x < stop → m x ≠ zero) :
    Found m p stop n none := by
  intro a hp hstop
  have hcount := h.count_eq
  have hfew := h.few
  rcases Int.lt_or_le a first with hlt | hge
  · exact h.blocked a hp hlt
  rcases Int.lt_or_le cur a with hgt | hle
  · exact ⟨a, Int.le_refl a, by omega, hnone a (by omega) (by omega)⟩
  · exact ⟨cur + 1, by omega, by omega, hnone _ (Int.le_refl _) (by omega)⟩

/-- The next free flag follows at once. -/
theorem Searching.longer (h : Searching m p stop n first cur count) (hfirst : First m zero (cur + 1) stop (cur + 1))
    (hfew : count + 1 < n) : Searching m p stop n first (cur + 1) (count + 1) := by
  have hcount := h.count_eq
  refine ⟨h.le, by omega, Nat.succ_pos _, hfew, hfirst.lt, fun x h₁ h₂ => ?_, h.blocked⟩
  rcases Int.lt_or_eq_of_le h₂ with hlt | rfl
  · exact h.zeros x h₁ (by omega)
  · exact hfirst.eq

/-- There is a flag in use before the next free one. -/
theorem Searching.restart {q : Int} (h : Searching m p stop n first cur count) (hfirst : First m zero (cur + 1) stop q)
    (hgap : cur + 1 < q) (hn : 1 < n) : Searching m p stop n q q 1 := by
  have hcount := h.count_eq
  have hpos := h.pos
  have hfew := h.few
  have hle := h.le
  refine ⟨by omega, by omega, Nat.one_pos, hn, hfirst.lt, fun x h₁ h₂ => ?_, fun a hp hlt => ?_⟩
  · rw [Int.le_antisymm h₂ h₁]
    exact hfirst.eq
  · rcases Int.lt_or_le a first with hbefore | hge
    · exact h.blocked a hp hbefore
    rcases Int.lt_or_le cur a with hgt | hin
    · exact ⟨a, Int.le_refl a, by omega, hfirst.before a (by omega) hlt⟩
    · exact ⟨cur + 1, by omega, by omega, hfirst.before _ (Int.le_refl _) hgap⟩

/-- The loop comes to its end with the answer. The induction is on the flags that are left. -/
theorem Searching.findLoop (hterm : Terminated m p stop) (hlimit : stop < p + limit)
    (h : Searching m p stop n first cur count) (hbegin : (if bFlag then pBegin else cur) = first) (hfuel : stop ≤ cur + fuel) :
    ∃ r, findLoop limit m p n fuel cur pBegin cur count bFlag = .ok r ∧ Found m p stop n r := by
  induction fuel generalizing first cur pBegin count bFlag with
  | zero =>
    have := h.lt
    omega
  | succ fuel ih =>
    have hcount := h.count_eq
    have hpos := h.pos
    have hfew := h.few
    have hle := h.le
    have hrest : Terminated m (cur + 1) stop := hterm.drop (by omega) (by have := h.lt; omega)
    obtain ⟨pTag, hchr, hfirst⟩ := hrest.strchr MgrFault.unterminated (show zero ≠ 0 by decide)
      (show stop < cur + 1 + limit by omega)
    rw [MemMgr.findLoop, hchr]
    cases pTag with
    | none => exact ⟨none, rfl, h.last hfirst⟩
    | some pTag =>
      simp only [bind, Except.bind]
      have hge := hfirst.le
      by_cases hnext : pTag - 1 = cur
      · have htag : pTag = cur + 1 := by omega
        rw [htag] at hfirst
        rw [if_pos hnext, hbegin, htag]
        by_cases hlong : n = count + 1
        · rw [if_pos hlong]
          have hto : p + ((first - p).toNat : Int) = first := by omega
          refine ⟨_, rfl, ⟨?_, fun x h₁ h₂ => ?_⟩, fun a hp hlt => h.blocked a hp (by omega)⟩
          · have := hfirst.lt
            omega
          · rw [hto] at h₁ h₂
            rcases Int.lt_or_le x (cur + 1) with hlt | hge
            · exact h.zeros x h₁ (by omega)
            · rw [show x = cur + 1 by omega]
              exact hfirst.eq
        · rw [if_neg hlong]
          exact ih (h.longer hfirst (by omega)) rfl (by omega)
      · rw [if_neg hnext]
        exact ih (h.restart hfirst (by omega) (by omega)) rfl (by omega)

theorem findAvailableIn (hterm : Terminated m p stop) (hlimit : stop < p + limit) (hn : 0 < n) :
    ∃ r, FindAvailableIn limit m p n = .ok r ∧ Found m p stop n r := by
  obtain ⟨pStart, hchr, hfirst⟩ := hterm.strchr MgrFault.unterminated (show zero ≠ 0 by decide) hlimit
  rw [FindAvailableIn, hchr]
  cases pStart with
  | none => exact ⟨none, rfl, fun a hp hstop => ⟨a, Int.le_refl a, by omega, hfirst a hp (by omega)⟩⟩
  | some pStart =>
    simp only [bind, Except.bind]
    have hle := hfirst.le
    have hlt := hfirst.lt
    have hzeros : ∀ x, pStart ≤ x → x ≤ pStart → m x = zero := fun x h₁ h₂ => by
      rw [Int.le_antisymm h₂ h₁]
      exact hfirst.eq
    have hblocked : ∀ a, p ≤ a → a < pStart → Blocked m n a := fun a hp hbefore =>
      ⟨a, Int.le_refl a, by omega, hfirst.before a hp hbefore⟩
    by_cases hone : n = 1
    · rw [if_pos hone]
      exact ⟨_, rfl, ⟨by omega, fun x h₁ h₂ => hzeros x (by omega) (by omega)⟩, fun a hp ha => hblocked a hp (by omega)⟩
    · rw [if_neg hone]
      exact Searching.findLoop hterm hlimit ⟨hle, by omega, Nat.one_pos, by omega, hlt, hzeros, hblocked⟩ rfl (by omega)

theorem findAvailable (hterm : Terminated m p stop) (hpage : stop < p + SYSMEMPAGE) (hn : 0 < n) :
    ∃ r, FindAvailable m p n = .ok r ∧ Found m p stop n r :=
  findAvailableIn hterm hpage hn

/-! ## Strings of flags -/

variable {flags : List UInt8}

/-- The flags from `i` on, `n` of them, are there and are '0'. -/
def FreeRun (flags : List UInt8) (n i : Nat) : Prop := ∀ j < n, flags[i + j]? = some zero

/-- The smallest index of `n` flags in a row that are '0'. -/
def FirstFit (flags : List UInt8) (n : Nat) : Option Nat → Prop
  | none => ∀ i, ¬FreeRun flags n i
  | some i => FreeRun flags n i ∧ ∀ j < i, ¬FreeRun flags n j

theorem flag_eq (h : Lies m p (flags ++ [0])) {j : Nat} (hj : j ≤ flags.length) :
    (flags ++ [0])[j]? = some (m (p + j)) := by
  have hread : Bytes.read m p (flags ++ [0]).length = flags ++ [0] := h
  have hlen : j < flags.length + 1 := by omega
  rw [← hread]
  simp [Bytes.read, hlen]

theorem terminated_flags (hflags : ∀ c ∈ flags, c = zero ∨ c = one) (h : Lies m p (flags ++ [0])) :
    Terminated m p (p + flags.length) := by
  refine ⟨by omega, ?_, fun x h₁ h₂ => ?_⟩
  · simpa using (flag_eq h (Nat.le_refl _)).symm
  · have hflag := flag_eq h (j := (x - p).toNat) (by omega)
    rw [List.getElem?_append_left (by omega), show p + ((x - p).toNat : Int) = x by omega] at hflag
    rcases hflags _ (List.mem_of_getElem? hflag) with hc | hc <;> rw [hc] <;> decide

/-- The runs of the string are those in memory. -/
theorem freeRun_iff (h : Lies m p (flags ++ [0])) (hn : 0 < n) (i : Nat) : FreeRun flags n i ↔
    p + i + n ≤ p + flags.length ∧ ∀ x, p + i ≤ x → x < p + i + n → m x = zero := by
  refine ⟨fun hrun => ?_, fun ⟨hin, hzeros⟩ j hj => ?_⟩
  · have hlen : i + (n - 1) < flags.length := (List.getElem?_eq_some_iff.1 (hrun (n - 1) (by omega))).1
    refine ⟨by omega, fun x h₁ h₂ => ?_⟩
    have hflag := hrun (x - p - i).toNat (by omega)
    have hin : i + (x - p - i).toNat < flags.length := (List.getElem?_eq_some_iff.1 hflag).1
    have happ : (flags ++ [0])[i + (x - p - i).toNat]? = flags[i + (x - p - i).toNat]? := List.getElem?_append_left hin
    rw [← happ, flag_eq h (Nat.le_of_lt hin),
      show p + ((i + (x - p - i).toNat : Nat) : Int) = x by omega] at hflag
    exact Option.some.inj hflag
  · have hflag := flag_eq h (j := i + j) (by omega)
    rw [List.getElem?_append_left (by omega), hzeros _ (by omega) (by omega)] at hflag
    exact hflag

theorem Found.firstFit {r : Option Nat} (h : Lies m p (flags ++ [0])) (hn : 0 < n)
    (hfound : Found m p (p + flags.length) n r) : FirstFit flags n r := by
  cases r with
  | none =>
    intro i hrun
    obtain ⟨hin, hzeros⟩ := (freeRun_iff h hn i).1 hrun
    obtain ⟨x, h₁, h₂, hx⟩ := hfound (p + i) (by omega) hin
    exact hx (hzeros x h₁ h₂)
  | some i =>
    refine ⟨(freeRun_iff h hn i).2 hfound.1, fun j hj hrun => ?_⟩
    obtain ⟨x, h₁, h₂, hx⟩ := hfound.2 (p + j) (by omega) (by omega)
    exact hx (((freeRun_iff h hn j).1 hrun).2 x h₁ h₂)

/-- `FindAvailable` gives the smallest index of `n` flags in a row that are '0', and -1 when there are none. -/
theorem FindAvailableIn_firstFit (hflags : ∀ c ∈ flags, c = zero ∨ c = one) (h : Lies m p (flags ++ [0]))
    (hn : 1 ≤ n) (hlimit : flags.length < limit) :
    ∃ r, FindAvailableIn limit m p n = .ok r ∧ FirstFit flags n r := by
  obtain ⟨r, hr, hfound⟩ := findAvailableIn (terminated_flags hflags h) (show p + flags.length < p + limit by omega) hn
  exact ⟨r, hr, hfound.firstFit h hn⟩

/-- Two cells behind a hole of one. -/
theorem FindAvailableIn_firstFit_two :
    ∃ r, FindAvailableIn 8 (write (fun _ => 0) 0 [48, 49, 48, 48, 0]) 0 2 = .ok r ∧ FirstFit [48, 49, 48, 48] 2 r :=
  FindAvailableIn_firstFit (by simp [zero, one]) (lies_write _ 0 [48, 49, 48, 48, 0]) (by decide) (by decide)

end MemMgr
