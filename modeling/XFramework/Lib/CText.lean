/-
Texts of C: strings up to their NUL, and numbers in them.

`number` reads as `atoi` does: blanks, a sign, and digits up to the first
character that is none; `zeroPadded` writes as `%0wd` does. A number of at most
`w` digits that is written is read again (`number_zeroPadded`).
-/
import Mathlib.Data.List.TakeWhile
import Mathlib.Algebra.Order.Ring.Int
import Mathlib.Algebra.Order.Monoid.Unbundled.Pow

/-- A string of C: characters that are not NUL. -/
structure CStr where
  chars : List UInt8
  nul : 0 ∉ chars
  deriving DecidableEq

namespace CStr

def strlen (s : CStr) : Nat := s.chars.length

/-- What is read of a buffer up to the first NUL. -/
def ofBytes (bs : List UInt8) : CStr := ⟨bs.takeWhile (· ≠ 0), fun h => by simpa using List.mem_takeWhile_imp h⟩

@[simp] theorem chars_ofBytes {bs : List UInt8} : (ofBytes bs).chars = bs.takeWhile (· ≠ 0) := rfl

theorem chars_ofBytes_of {bs : List UInt8} (h : 0 ∉ bs) : (ofBytes bs).chars = bs :=
  List.takeWhile_eq_self_iff.2 fun b hb => by simpa using fun heq : b = 0 => h (heq ▸ hb)

/-- What `strchr` finds in the rest `p` of a text, as the rest from there on. -/
def strchr (p : List UInt8) (c : UInt8) : Option (List UInt8) :=
  match p with
  | [] => none
  | x :: p => if x = c then some (x :: p) else strchr p c

/-- `q` is what stands behind the first `c` of `p`. -/
def Behind (c : UInt8) (p q : List UInt8) : Prop := ∃ skipped, p = skipped ++ c :: q ∧ c ∉ skipped

variable {c x : UInt8} {p q : List UInt8}

theorem strchr_eq_some {r : List UInt8} : strchr p c = some r ↔ ∃ q, r = c :: q ∧ Behind c p q := by
  induction p with
  | nil =>
    refine iff_of_false nofun ?_
    rintro ⟨q, -, skipped, hp, -⟩
    simp at hp
  | cons x p ih =>
    rw [strchr]
    split
    next hx =>
      subst hx
      refine ⟨fun h => ⟨p, (Option.some.inj h).symm, [], rfl, List.not_mem_nil⟩, ?_⟩
      rintro ⟨q, rfl, skipped, hp, hnot⟩
      cases skipped with
      | nil =>
        cases hp
        rfl
      | cons y skipped =>
        cases hp
        exact absurd List.mem_cons_self hnot
    next hx =>
      refine ih.trans (exists_congr fun q => and_congr_right fun _ => ⟨?_, ?_⟩)
      · rintro ⟨skipped, rfl, hnot⟩
        exact ⟨x :: skipped, rfl, List.not_mem_cons_of_ne_of_not_mem (Ne.symm hx) hnot⟩
      · rintro ⟨skipped, hp, hnot⟩
        cases skipped with
        | nil =>
          cases hp
          exact absurd rfl hx
        | cons y skipped =>
          cases hp
          exact ⟨skipped, rfl, fun h => hnot (List.mem_cons_of_mem _ h)⟩

theorem Behind.length_lt (h : Behind c p q) : q.length < p.length := by
  obtain ⟨skipped, rfl, -⟩ := h
  rw [List.length_append, List.length_cons]
  omega

/-- Where the text does not begin with the character, more than it is skipped. -/
theorem Behind.length_succ_lt (h : Behind c p q) (hp : p.head? ≠ some c) : q.length + 1 < p.length := by
  obtain ⟨skipped, rfl, -⟩ := h
  cases skipped with
  | nil => simp at hp
  | cons x skipped =>
    rw [List.length_append, List.length_cons, List.length_cons]
    omega

end CStr

/-! ## Numbers in a text -/

def isspace (c : UInt8) : Bool := c = 32 ∨ 9 ≤ c ∧ c ≤ 13

def isdigit (c : UInt8) : Bool := 48 ≤ c ∧ c ≤ 57

def digits (s : List UInt8) : Int := (s.takeWhile isdigit).foldl (fun n c => 10 * n + (c.toNat - 48 : Int)) 0

/-- The number at the beginning of a text. -/
def number (s : List UInt8) : Int :=
  match s.dropWhile isspace with
  | 43 :: s => digits s
  | 45 :: s => -digits s
  | s => digits s

/-- Not defined where the number is not one of `w` bits. -/
def numberOf (w : Nat) (s : List UInt8) : Option Int :=
  if -2 ^ (w - 1) ≤ number s ∧ number s < 2 ^ (w - 1) then some (number s) else none

def atoi (s : List UInt8) : Option Int := numberOf 32 s

def atoll (s : List UInt8) : Option Int := numberOf 64 s

/-- `%0wd` of a number that has at most `w` digits. -/
def zeroPadded : Nat → Nat → List UInt8
  | 0, _ => []
  | w + 1, n => zeroPadded w (n / 10) ++ [UInt8.ofNat (48 + n % 10)]

theorem numberOf_eq {w : Nat} {s : List UInt8} {n : Int} (h : numberOf w s = some n) : n = number s := by
  unfold numberOf at h
  split at h
  · exact (Option.some.inj h).symm
  · cases h

/-- Digits that are read one after the other, from the first on. -/
theorem foldl_digits (s : List UInt8) (hs : ∀ c ∈ s, isdigit c = true) (n : Int) (hn : 0 ≤ n) :
    0 ≤ s.foldl (fun n c => 10 * n + (c.toNat - 48 : Int)) n ∧
      s.foldl (fun n c => 10 * n + (c.toNat - 48 : Int)) n < (n + 1) * 10 ^ s.length := by
  induction s generalizing n with
  | nil => simp [hn]
  | cons c s ih =>
    have hc : 48 ≤ c.toNat ∧ c.toNat ≤ 57 := by
      have := hs c List.mem_cons_self
      simpa [isdigit, UInt8.le_iff_toNat_le] using this
    obtain ⟨h₁, h₂⟩ := ih (fun x hx => hs x (List.mem_cons_of_mem _ hx)) (10 * n + (c.toNat - 48 : Int)) (by omega)
    refine ⟨h₁, Int.lt_of_lt_of_le h₂ ?_⟩
    rw [List.length_cons, pow_succ', ← Int.mul_assoc]
    exact Int.mul_le_mul_of_nonneg_right (by omega) (pow_nonneg (by decide) _)

theorem digits_bounds (s : List UInt8) : 0 ≤ digits s ∧ digits s < 10 ^ s.length := by
  obtain ⟨h₁, h₂⟩ := foldl_digits (s.takeWhile isdigit) (fun c hc => List.mem_takeWhile_imp hc) 0 (Int.le_refl 0)
  refine ⟨h₁, Int.lt_of_lt_of_le h₂ ?_⟩
  have hle : (s.takeWhile isdigit).length ≤ s.length := (List.takeWhile_sublist _).length_le
  simpa using pow_le_pow_right₀ (by decide) hle

/-- A text has no number of more digits than it has characters. -/
theorem number_bounds (s : List UInt8) : -10 ^ s.length < number s ∧ number s < 10 ^ s.length := by
  have hle : (s.dropWhile isspace).length ≤ s.length := (List.dropWhile_sublist _).length_le
  have hmono : ∀ t : List UInt8, t.length ≤ s.length → 0 ≤ digits t ∧ digits t < 10 ^ s.length := fun t ht => by
    obtain ⟨h₁, h₂⟩ := digits_bounds t
    exact ⟨h₁, Int.lt_of_lt_of_le h₂ (pow_le_pow_right₀ (by decide) ht)⟩
  unfold number
  split
  next t heq =>
    obtain ⟨h₁, h₂⟩ := hmono t (by rw [heq, List.length_cons] at hle; omega)
    omega
  next t heq =>
    obtain ⟨h₁, h₂⟩ := hmono t (by rw [heq, List.length_cons] at hle; omega)
    omega
  next =>
    obtain ⟨h₁, h₂⟩ := hmono _ hle
    omega

/-- Nine digits are in the range of an `int`. -/
theorem atoi_of_length {s : List UInt8} (h : s.length ≤ 9) : atoi s = some (number s) := by
  obtain ⟨h₁, h₂⟩ := number_bounds s
  have hle : (10 : Int) ^ s.length ≤ 10 ^ 9 := pow_le_pow_right₀ (by decide) h
  refine if_pos ⟨?_, ?_⟩
  · omega
  · omega

/-- A text that begins with a minus sign has no number that is positive. -/
theorem number_minus (s : List UInt8) : number (45 :: s) ≤ 0 := by
  have := (digits_bounds s).1
  change -digits s ≤ 0
  omega

@[simp] theorem length_zeroPadded (w n : Nat) : (zeroPadded w n).length = w := by
  induction w generalizing n with
  | zero => rfl
  | succ w ih => simp [zeroPadded, ih]

theorem isdigit_zeroPadded {w n : Nat} : ∀ c ∈ zeroPadded w n, isdigit c = true := by
  induction w generalizing n with
  | zero => simp [zeroPadded]
  | succ w ih =>
    intro c hc
    rcases List.mem_append.1 hc with hc | hc
    · exact ih c hc
    · cases List.mem_singleton.1 hc
      simp [isdigit, UInt8.le_iff_toNat_le]
      omega

theorem foldl_zeroPadded {w n : Nat} (h : n < 10 ^ w) :
    (zeroPadded w n).foldl (fun n c => 10 * n + (c.toNat - 48 : Int)) 0 = n := by
  induction w generalizing n with
  | zero =>
    have : n = 0 := by simpa using h
    simp [zeroPadded, this]
  | succ w ih =>
    have hdiv : n / 10 < 10 ^ w := Nat.div_lt_of_lt_mul (by rwa [← pow_succ'])
    have hdigit : (UInt8.ofNat (48 + n % 10)).toNat = 48 + n % 10 := by
      simp
      omega
    rw [zeroPadded, List.foldl_append, ih hdiv]
    simp only [List.foldl_cons, List.foldl_nil, hdigit]
    omega

/-- What is written is read again. -/
theorem number_zeroPadded {w n : Nat} (h : n < 10 ^ w) : number (zeroPadded w n) = n := by
  have hdigits : digits (zeroPadded w n) = n := by
    rw [digits, List.takeWhile_eq_self_iff.2 isdigit_zeroPadded, foldl_zeroPadded h]
  have hmem : ∀ c ∈ zeroPadded w n, c ≠ 43 ∧ c ≠ 45 ∧ isspace c = false := fun c hc => by
    have := isdigit_zeroPadded c hc
    simp only [isdigit, isspace, UInt8.le_iff_toNat_le, ne_eq, ← UInt8.toNat_inj] at *
    simp at *
    omega
  cases hs : zeroPadded w n with
  | nil =>
    rw [hs] at hdigits
    exact hdigits
  | cons c s =>
    rw [hs] at hdigits hmem
    obtain ⟨hplus, hminus, hspace⟩ := hmem c List.mem_cons_self
    unfold number
    rw [List.dropWhile_cons_of_neg (by simp [hspace])]
    split
    · next heq => exact absurd (List.cons.inj heq).1 hplus
    · next heq => exact absurd (List.cons.inj heq).1 hminus
    · exact hdigits
