/-
Dates of the Gregorian calendar and times of day, their text, and going a
number of months ahead or back, where the day becomes the last one of a month
that is too short for it.
-/
import XFramework.Lib.CText
import Mathlib.Order.Lattice

namespace Calendar

def IsLeap (y : Int) : Prop := 4 ∣ y ∧ (100 ∣ y → 400 ∣ y)

instance (y : Int) : Decidable (IsLeap y) := inferInstanceAs (Decidable (_ ∧ _))

/-- The number of days of a month. -/
def daysIn (y m : Int) : Int :=
  if m = 2 then if IsLeap y then 29 else 28
  else if m = 4 ∨ m = 6 ∨ m = 9 ∨ m = 11 then 30
  else 31

@[ext] structure Date where
  year : Int
  month : Int
  day : Int
  month_pos : 1 ≤ month
  month_le : month ≤ 12
  day_pos : 1 ≤ day
  day_le : day ≤ daysIn year month

/-- A date with a time of day. -/
structure Moment extends Date where
  hour : Int
  min : Int
  sec : Int
  hour_nonneg : 0 ≤ hour
  hour_lt : hour < 24
  min_nonneg : 0 ≤ min
  min_lt : min < 60
  sec_nonneg : 0 ≤ sec
  sec_lt : sec < 60

theorem daysIn_bounds (y m : Int) : 28 ≤ daysIn y m ∧ daysIn y m ≤ 31 := by
  unfold daysIn
  split_ifs <;> omega

namespace Date

/-- The months since the year 0. -/
def months (d : Date) : Int := 12 * d.year + d.month

def addMonths (d : Date) (n : Int) : Date where
  year := (d.months + n - 1) / 12
  month := (d.months + n - 1) % 12 + 1
  day := min d.day (daysIn ((d.months + n - 1) / 12) ((d.months + n - 1) % 12 + 1))
  month_pos := by omega
  month_le := by omega
  day_pos := le_min d.day_pos (Int.le_trans (by decide) (daysIn_bounds _ _).1)
  day_le := min_le_right _ _

variable {d e : Date} {n : Int}

/-- The month count and the day are all that there is of a date. -/
theorem ext_months (hmonths : d.months = e.months) (hday : d.day = e.day) : d = e := by
  have hd := d.month_pos
  have hd' := d.month_le
  have he := e.month_pos
  have he' := e.month_le
  unfold months at hmonths
  exact Date.ext (by omega) (by omega) hday

theorem months_addMonths : (d.addMonths n).months = d.months + n := by
  change 12 * ((d.months + n - 1) / 12) + ((d.months + n - 1) % 12 + 1) = _
  omega

theorem eq_addMonths_iff : e = d.addMonths n ↔ e.months = d.months + n ∧ e.day = min d.day (daysIn e.year e.month) := by
  refine ⟨?_, ?_⟩
  · rintro rfl
    exact ⟨months_addMonths, rfl⟩
  · rintro ⟨hmonths, hday⟩
    refine ext_months (hmonths.trans months_addMonths.symm) (hday.trans ?_)
    change 12 * e.year + e.month = _ at hmonths
    have hpos := e.month_pos
    have hle := e.month_le
    have hyear : e.year = (d.months + n - 1) / 12 := by omega
    have hmonth : e.month = (d.months + n - 1) % 12 + 1 := by omega
    rw [hyear, hmonth]
    rfl

end Date

theorem Moment.bounds (t : Moment) : 1 ≤ t.month ∧ t.month ≤ 12 ∧ 1 ≤ t.day ∧ t.day ≤ 31 ∧ 0 ≤ t.hour ∧ t.hour < 24 ∧
    0 ≤ t.min ∧ t.min < 60 ∧ 0 ≤ t.sec ∧ t.sec < 60 :=
  ⟨t.month_pos, t.month_le, t.day_pos, Int.le_trans t.day_le (daysIn_bounds _ _).2, t.hour_nonneg, t.hour_lt, t.min_nonneg,
    t.min_lt, t.sec_nonneg, t.sec_lt⟩

/-- `yyyy-mm-dd hh:MM:ss`. -/
def Moment.text (t : Moment) : List UInt8 :=
  zeroPadded 4 t.year.toNat ++ 45 :: (zeroPadded 2 t.month.toNat ++ 45 :: (zeroPadded 2 t.day.toNat ++ 32 ::
    (zeroPadded 2 t.hour.toNat ++ 58 :: (zeroPadded 2 t.min.toNat ++ 58 :: zeroPadded 2 t.sec.toNat))))

end Calendar
