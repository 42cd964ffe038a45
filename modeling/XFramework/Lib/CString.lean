/-
C strings in memory: bytes up to a NUL, `strchr`, and `memset`.

`strchr` reads up to the terminator. Here it is given how far it may read,
and a string that goes on behind that is a fault; one that ends before has
none (`Terminated.strchr`).
-/
import XFramework.Lib.Bytes

namespace Bytes

/-- A string from `p` on that ends at `stop`. -/
structure Terminated (m : Mem) (p stop : Int) : Prop where
  le : p ≤ stop
  nul : m stop = 0
  chars : ∀ x, p ≤ x → x < stop → m x ≠ 0

/-- `strchr(p, c)`. -/
def strchr {ε : Type} (fault : ε) (m : Mem) (c : UInt8) : Nat → Int → Except ε (Option Int)
  | 0, _ => .error fault
  | fuel + 1, p =>
    if m p = c then .ok (some p)
    else if m p = 0 then .ok none
    else strchr fault m c fuel (p + 1)

/-- What `strchr` finds from `p` on: the first `c` before `stop`. -/
structure First (m : Mem) (c : UInt8) (p stop q : Int) : Prop where
  le : p ≤ q
  lt : q < stop
  eq : m q = c
  before : ∀ x, p ≤ x → x < q → m x ≠ c

variable {ε : Type} {m : Mem} {c : UInt8} {p q stop : Int} {fuel n : Nat}

theorem Terminated.drop (h : Terminated m p stop) (hp : p ≤ q) (hq : q ≤ stop) : Terminated m q stop :=
  ⟨hq, h.nul, fun x hx => h.chars x (Int.le_trans hp hx)⟩

theorem Terminated.strchr (h : Terminated m p stop) (fault : ε) (hc : c ≠ 0) (hfuel : stop < p + fuel) :
    ∃ r, Bytes.strchr fault m c fuel p = .ok r ∧ match r with
      | none => ∀ x, p ≤ x → x < stop → m x ≠ c
      | some q => First m c p stop q := by
  induction fuel generalizing p with
  | zero =>
    have := h.le
    omega
  | succ fuel ih =>
    rw [Bytes.strchr]
    by_cases hhere : m p = c
    · rw [if_pos hhere]
      refine ⟨some p, rfl, Int.le_refl p, ?_, hhere, fun x h₁ h₂ => by omega⟩
      rcases Int.lt_or_eq_of_le h.le with hlt | heq
      · exact hlt
      · rw [heq, h.nul] at hhere
        exact absurd hhere.symm hc
    rw [if_neg hhere]
    by_cases hend : m p = 0
    · rw [if_pos hend]
      refine ⟨none, rfl, fun x h₁ h₂ => absurd hend (h.chars p (Int.le_refl p) (by omega))⟩
    rw [if_neg hend]
    have hlt : p < stop := by
      rcases Int.lt_or_eq_of_le h.le with hlt | heq
      · exact hlt
      · rw [heq] at hend
        exact absurd h.nul hend
    have hskip : ∀ x, p ≤ x → (p + 1 ≤ x → m x ≠ c) → m x ≠ c := fun x h₁ h₂ =>
      (Int.lt_or_eq_of_le h₁).elim h₂ fun heq => heq ▸ hhere
    obtain ⟨r, hr, hfirst⟩ := ih (h.drop (q := p + 1) (by omega) (by omega)) (by omega)
    refine ⟨r, hr, ?_⟩
    cases r with
    | none => exact fun x h₁ h₂ => hskip x h₁ fun h₁ => hfirst x h₁ h₂
    | some q =>
      have hle := hfirst.le
      exact ⟨by omega, hfirst.lt, hfirst.eq, fun x h₁ h₂ => hskip x h₁ fun h₁ => hfirst.before x h₁ h₂⟩

/-- `memset(p, c, n)`. -/
def memset (m : Mem) (p : Int) (c : UInt8) (n : Nat) : Mem := write m p (List.replicate n c)

theorem memset_apply (x : Int) : memset m p c n x = if p ≤ x ∧ x < p + n then c else m x := by
  rw [memset, write, List.length_replicate]
  split_ifs with hx
  · rw [List.getD_eq_getElem _ _ (by rw [List.length_replicate]; omega), List.getElem_replicate]
  · rfl

theorem write_one {b : UInt8} (x : Int) : write m p [b] x = if x = p then b else m x := by
  have h := memset_apply (m := m) (p := p) (c := b) (n := 1) x
  rw [memset] at h
  refine h.trans (if_congr ?_ rfl rfl)
  omega

end Bytes
