/-
A point in time in 32 bits (SystemApi/TimeInfo.cpp).

The constructor looks for the separators of the text one after the other and
takes what `atoi` makes of the characters behind each. `AddMonth` adds in the
4 bits of the month before it looks at the sum. What `Update` sets, the
current time, is a parameter.
-/
import XFramework.Lib.Calendar
import XFramework.Lib.Fallible

open Fallible

@[ext] structure TimeInfo where
  ti_sec : BitVec 6
  ti_min : BitVec 6
  ti_hour : BitVec 5
  ti_day : BitVec 5
  ti_mon : BitVec 4
  ti_year : BitVec 6
  deriving DecidableEq

namespace TimeInfo

/-- The constructor comes to its `Update()`, or `atoi` is not defined. -/
inductive ParseFault
  | update
  | range
  deriving DecidableEq

def GetMaxDay (year month : Int) : Int :=
  if month < 1 ∨ 12 < month then -1
  else if month ≠ 2 then
    if month ∈ [1, 3, 5, 7, 8, 10, 12] then 31
    else if month ∈ [4, 6, 9, 11, 0, 0, 0] then 30
    else -1
  else if year.tmod 4 = 0 then 29
  else 28

/-! ## Text -/

/-- The `NULL != p++` behind a `strchr`. -/
def behind (c : UInt8) (p : List UInt8) : Except ParseFault (List UInt8) :=
  match CStr.strchr p c with
  | none => .error .update
  | some q => .ok q.tail

def int (p : List UInt8) : Except ParseFault Int :=
  match atoi p with
  | none => .error .range
  | some n => .ok n

def check (c : Prop) [Decidable c] : Except ParseFault Unit := if c then .ok () else .error .update

/-- The constructor up to its `return`. -/
def parse (dateStr : CStr) : Except ParseFault TimeInfo := do
  check (dateStr.strlen = 19)
  let year ← int (dateStr.chars.take 4)
  let pMstr ← behind 45 (dateStr.chars.drop 4)
  let month ← int (pMstr.take 2)
  check (0 < month ∧ month ≤ 12)
  let pDstr ← behind 45 pMstr
  let day ← int (pDstr.take 2)
  check (day ≤ GetMaxDay (year - 2000) month)
  let pHstr ← behind 32 pDstr
  let hour ← int (pHstr.take 2)
  check (0 ≤ hour ∧ hour ≤ 23)
  let pmstr ← behind 58 pHstr
  let min ← int (pmstr.take 2)
  check (0 ≤ min ∧ min < 60)
  let psstr ← behind 58 pmstr
  let sec ← int psstr
  check (0 ≤ sec ∧ sec < 60)
  .ok ⟨.ofInt 6 sec, .ofInt 6 min, .ofInt 5 hour, .ofInt 5 day, .ofInt 4 month, .ofInt 6 (year - 2000)⟩

/-- `TimeInfo(dateStr)`, where `Update` gives `now`. -/
def ofText (now : TimeInfo) (dateStr : CStr) : Except ParseFault TimeInfo :=
  match parse dateStr with
  | .error .update => .ok now
  | r => r

/-- `operator string`. -/
def string (t : TimeInfo) : List UInt8 :=
  zeroPadded 4 (t.ti_year.toNat + 2000) ++ 45 :: (zeroPadded 2 t.ti_mon.toNat ++ 45 :: (zeroPadded 2 t.ti_day.toNat ++ 32 ::
    (zeroPadded 2 t.ti_hour.toNat ++ 58 :: (zeroPadded 2 t.ti_min.toNat ++ 58 :: zeroPadded 2 t.ti_sec.toNat))))

/-! ## Months and years -/

/-- What `AddMonth` and `AddYear` do to the day at their end. -/
def clampDay (t : TimeInfo) : TimeInfo :=
  if t.ti_mon.toNat = 2 then
    if (t.ti_year.toNat + 2000) % 4 = 0 then
      if 29 < t.ti_day.toNat then { t with ti_day := 29 } else t
    else if 28 < t.ti_day.toNat then { t with ti_day := 28 }
    else t
  else t

def AddMonth (t : TimeInfo) (mon : Int) : TimeInfo :=
  let t := { t with ti_mon := .ofInt 4 (t.ti_mon.toNat + mon) }
  let t :=
    if 12 < t.ti_mon.toNat then { t with ti_mon := .ofInt 4 (t.ti_mon.toNat + -12), ti_year := .ofInt 6 (t.ti_year.toNat + 1) }
    else if (t.ti_mon.toNat : Int) < 0 then
      { t with ti_year := .ofInt 6 (t.ti_year.toNat - 1), ti_mon := .ofInt 4 (t.ti_mon.toNat + 12) }
    else t
  t.clampDay

def AddYear (t : TimeInfo) (y : Int) : TimeInfo :=
  { t with ti_year := .ofInt 6 (t.ti_year.toNat + y) }.clampDay

/-! ## What the fields stand for -/

/-- The fields are those of a date. -/
structure Shows (t : TimeInfo) (d : Calendar.Date) : Prop where
  year : (t.ti_year.toNat : Int) + 2000 = d.year
  month : (t.ti_mon.toNat : Int) = d.month
  day : (t.ti_day.toNat : Int) = d.day

variable {t : TimeInfo} {d : Calendar.Date}

/-- A number that fits is kept by the field. -/
theorem toNat_ofInt_of {w : Nat} {i : Int} (h₀ : 0 ≤ i) (h : i < 2 ^ w) : ((BitVec.ofInt w i).toNat : Int) = i := by
  rw [BitVec.toNat_ofInt]
  have hpow : ((2 ^ w : Nat) : Int) = 2 ^ w := by push_cast; rfl
  rw [hpow, Int.emod_eq_of_lt h₀ h, Int.toNat_of_nonneg h₀]

/-- In the years of the field only the century 2000 is met, which is a leap year. -/
theorem isLeap_iff {y : Int} (h₁ : 2000 ≤ y) (h₂ : y < 2064) : Calendar.IsLeap y ↔ y % 4 = 0 := by
  unfold Calendar.IsLeap
  omega

theorem Shows.year_bounds (h : t.Shows d) : 2000 ≤ d.year ∧ d.year < 2064 := by
  have hlt := t.ti_year.isLt
  have hyear := h.year
  omega

/-- The table of `GetMaxDay` is that of the calendar. -/
theorem GetMaxDay_eq {y m : Int} (h₁ : 2000 ≤ y) (h₂ : y < 2064) (hm₁ : 1 ≤ m) (hm₂ : m ≤ 12) :
    GetMaxDay (y - 2000) m = Calendar.daysIn y m := by
  have hleap := isLeap_iff h₁ h₂
  have hmod : (y - 2000).tmod 4 = 0 ↔ y % 4 = 0 := by
    rw [Int.tmod_eq_emod_of_nonneg (by omega)]
    omega
  unfold GetMaxDay Calendar.daysIn
  simp only [hleap, hmod, List.mem_cons, List.not_mem_nil, or_false]
  split_ifs <;> omega

end TimeInfo
