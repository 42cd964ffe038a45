/-
Numbers for the days of the Gregorian calendar and for the seconds of a clock.

The years are taken to begin with March, so that a leap day is the last day of
its year. `firstDay_succ` says that each month is as long as it should be; what
else is known of the numbers follows from it: dates are in the order of their
numbers (`Date.number_lt_iff`), and each number is that of one date
(`Date.number_ofNumber`).
-/
import XFramework.Lib.Calendar
import Mathlib.Order.Monotone.Basic

namespace Calendar

/-- The number of the first day of a month, from 1 March of the year 0. Months are counted from January of
the year 0. -/
def firstDay (k : Int) : Int :=
  365 * ((k - 2) / 12) + (k - 2) / 12 / 4 - (k - 2) / 12 / 100 + (k - 2) / 12 / 400 + (153 * ((k - 2) % 12) + 2) / 5

variable {d e : Date} {t t' : Moment} {k n y m : Int}

theorem firstDay_march (hm : 0 ≤ m) (hm' : m < 12) :
    firstDay (12 * y + m + 2) = 365 * y + y / 4 - y / 100 + y / 400 + (153 * m + 2) / 5 := by
  have hy : (12 * y + m + 2 - 2) / 12 = y := by omega
  have hm : (12 * y + m + 2 - 2) % 12 = m := by omega
  rw [firstDay, hy, hm]

theorem firstDay_succ (k : Int) : firstDay (k + 1) = firstDay k + daysIn (k / 12) (k % 12 + 1) := by
  obtain ⟨y, m, hm, hm', rfl⟩ : ∃ y m : Int, 0 ≤ m ∧ m < 12 ∧ k = 12 * y + m + 2 :=
    ⟨(k - 2) / 12, (k - 2) % 12, by omega, by omega, by omega⟩
  rw [firstDay_march hm hm']
  by_cases hlast : m = 11
  · -- the year ends with February
    subst hlast
    have hnext : 12 * y + 11 + 2 + 1 = 12 * (y + 1) + 0 + 2 := by omega
    have hyear : (12 * y + 11 + 2) / 12 = y + 1 := by omega
    have hmonth : (12 * y + 11 + 2) % 12 + 1 = 2 := by omega
    rw [hnext, firstDay_march (by decide) (by decide), hyear, hmonth, daysIn, if_pos rfl]
    unfold IsLeap
    split_ifs <;> omega
  · have hnext : 12 * y + m + 2 + 1 = 12 * y + (m + 1) + 2 := by omega
    rw [hnext, firstDay_march (by omega) (by omega)]
    have hcases : m = 0 ∨ m = 1 ∨ m = 2 ∨ m = 3 ∨ m = 4 ∨ m = 5 ∨ m = 6 ∨ m = 7 ∨ m = 8 ∨ m = 9 ∨ m = 10 := by omega
    unfold daysIn
    rcases hcases with rfl | rfl | rfl | rfl | rfl | rfl | rfl | rfl | rfl | rfl | rfl <;> split_ifs <;> omega

theorem firstDay_mono (h : k ≤ n) : firstDay k ≤ firstDay n :=
  monotone_int_of_le_succ (fun k => by
    have := (daysIn_bounds (k / 12) (k % 12 + 1)).1
    rw [firstDay_succ]
    omega) h

/-! ## Days -/

namespace Date

/-- The number of a day, from 1 March of the year 0. -/
def number (d : Date) : Int := firstDay (d.months - 1) + d.day - 1

theorem number_bounds (d : Date) : firstDay (d.months - 1) ≤ d.number ∧ d.number < firstDay d.months := by
  have hpos := d.day_pos
  have hle := d.day_le
  have hm := d.month_pos
  have hm' := d.month_le
  have hyear : (d.months - 1) / 12 = d.year := by
    unfold months
    omega
  have hmonth : (d.months - 1) % 12 + 1 = d.month := by
    unfold months
    omega
  have hnext := firstDay_succ (d.months - 1)
  rw [hyear, hmonth, Int.sub_add_cancel] at hnext
  unfold number
  omega

theorem number_lt_of_months (h : d.months < e.months) : d.number < e.number :=
  lt_of_lt_of_le d.number_bounds.2 ((firstDay_mono (by omega)).trans e.number_bounds.1)

/-- The order of the numbers is that of the dates. -/
theorem number_lt_iff : d.number < e.number ↔ d.months < e.months ∨ d.months = e.months ∧ d.day < e.day := by
  rcases lt_trichotomy d.months e.months with h | h | h
  · exact iff_of_true (number_lt_of_months h) (.inl h)
  · unfold number
    rw [h]
    omega
  · have := number_lt_of_months h
    omega

theorem number_injective : Function.Injective number := by
  intro d e h
  have hlt := number_lt_iff (d := d) (e := e)
  have hgt := number_lt_iff (d := e) (e := d)
  exact ext_months (by omega) (by omega)

/-! ## The day with a number -/

/-- The month of the day with a number: by periods of 400, 100, 4 years and one, and by the lengths of the months. -/
def monthAt (n : Int) : Int :=
  let doe := n % 146097
  let century := min 3 (doe / 36524)
  let doc := doe - 36524 * century
  let doq := doc % 1461
  let year := min 3 (doq / 365)
  let doy := doq - 365 * year
  12 * (400 * (n / 146097) + 100 * century + 4 * (doc / 1461) + year) + (5 * doy + 2) / 153 + 2

/-- A day of a period of 400 years: its century, its leap year and its year. Only a leap year has a 366th day. -/
structure Cycles (n era century quad year doy : Int) : Prop where
  eq : n = 146097 * era + 36524 * century + 1461 * quad + 365 * year + doy
  century_bounds : 0 ≤ century ∧ century ≤ 3
  quad_bounds : 0 ≤ quad ∧ quad ≤ 24
  year_bounds : 0 ≤ year ∧ year ≤ 3
  doy_bounds : 0 ≤ doy ∧ doy ≤ 365
  last : doy = 365 → year = 3 ∧ (quad = 24 → century = 3)
  month : monthAt n = 12 * (400 * era + 100 * century + 4 * quad + year) + (5 * doy + 2) / 153 + 2

theorem exists_cycles (n : Int) : ∃ era century quad year doy, Cycles n era century quad year doy := by
  obtain ⟨doe, hdoe⟩ : ∃ doe, n % 146097 = doe := ⟨_, rfl⟩
  obtain ⟨c, hc⟩ : ∃ c, min 3 (doe / 36524) = c := ⟨_, rfl⟩
  obtain ⟨doc, hdoc⟩ : ∃ doc, doe - 36524 * c = doc := ⟨_, rfl⟩
  obtain ⟨doq, hdoq⟩ : ∃ doq, doc % 1461 = doq := ⟨_, rfl⟩
  obtain ⟨r, hr⟩ : ∃ r, min 3 (doq / 365) = r := ⟨_, rfl⟩
  have hc' : 0 ≤ c ∧ c ≤ 3 ∧ 0 ≤ doc ∧ (doc ≤ 36523 ∨ doc = 36524 ∧ c = 3) := by omega
  have hr' : 0 ≤ r ∧ r ≤ 3 ∧ 0 ≤ doq - 365 * r ∧ (doq - 365 * r ≤ 364 ∨ doq = 1460 ∧ r = 3) := by omega
  refine ⟨n / 146097, c, doc / 1461, r, doq - 365 * r, by omega, by omega, by omega, by omega, by omega, by omega, ?_⟩
  simp only [monthAt, hdoe, hc, hdoc, hdoq, hr]

variable {era century quad year doy : Int}

/-- The month has begun on that day. -/
theorem Cycles.firstDay (h : Cycles n era century quad year doy) :
    Calendar.firstDay (monthAt n) = n - doy + (153 * ((5 * doy + 2) / 153) + 2) / 5 := by
  obtain ⟨heq, hc, hq, hr, hdoy, -, hmonth⟩ := h
  rw [hmonth, firstDay_march (by omega) (by omega), heq]
  omega

theorem Cycles.next (h : Cycles n era century quad year doy) : n < Calendar.firstDay (monthAt n + 1) := by
  have hfirst := h.firstDay
  obtain ⟨heq, hc, hq, hr, hdoy, hlast, hmonth⟩ := h
  obtain ⟨y, hy⟩ : ∃ y, 400 * era + 100 * century + 4 * quad + year = y := ⟨_, rfl⟩
  rw [hy] at hmonth
  by_cases hfeb : (5 * doy + 2) / 153 = 11
  · -- the year ends with February
    have hleap : doy = 365 → IsLeap (y + 1) := by
      intro hd
      obtain ⟨rfl, hcent⟩ := hlast hd
      unfold IsLeap
      omega
    have hyear : monthAt n / 12 = y + 1 := by omega
    have hmon : monthAt n % 12 + 1 = 2 := by omega
    rw [firstDay_succ, hfirst, hyear, hmon, daysIn, if_pos rfl]
    split_ifs with hl
    · omega
    · have : doy ≠ 365 := fun h => hl (hleap h)
      omega
  · have hsucc := firstDay_march (y := y) (m := (5 * doy + 2) / 153 + 1) (by omega) (by omega)
    have hthis := firstDay_march (y := y) (m := (5 * doy + 2) / 153) (by omega) (by omega)
    rw [show monthAt n + 1 = 12 * y + ((5 * doy + 2) / 153 + 1) + 2 by omega, hsucc]
    rw [hmonth, hthis] at hfirst
    omega

theorem firstDay_monthAt (n : Int) : firstDay (monthAt n) ≤ n ∧ n < firstDay (monthAt n + 1) := by
  obtain ⟨era, century, quad, year, doy, h⟩ := exists_cycles n
  have hfirst := h.firstDay
  have hdoy := h.doy_bounds
  exact ⟨by omega, h.next⟩

/-- The date of the day with a number. -/
def ofNumber (n : Int) : Date where
  year := monthAt n / 12
  month := monthAt n % 12 + 1
  day := n - firstDay (monthAt n) + 1
  month_pos := by omega
  month_le := by omega
  day_pos := by
    have := (firstDay_monthAt n).1
    omega
  day_le := by
    have := (firstDay_monthAt n).2
    rw [firstDay_succ] at this
    omega

@[simp] theorem number_ofNumber (n : Int) : (ofNumber n).number = n := by
  have hmonths : (ofNumber n).months - 1 = monthAt n := by
    change 12 * (monthAt n / 12) + (monthAt n % 12 + 1) - 1 = monthAt n
    omega
  rw [number, hmonths]
  change firstDay (monthAt n) + (n - firstDay (monthAt n) + 1) - 1 = n
  omega

@[simp] theorem ofNumber_number (d : Date) : ofNumber d.number = d := number_injective (number_ofNumber _)

end Date

/-! ## Seconds -/

namespace Moment

/-- The seconds from the beginning of 1 March of the year 0. -/
def seconds (t : Moment) : Int := 86400 * t.toDate.number + 3600 * t.hour + 60 * t.min + t.sec

def ofSeconds (n : Int) : Moment where
  toDate := Date.ofNumber (n / 86400)
  hour := n % 86400 / 3600
  min := n % 3600 / 60
  sec := n % 60
  hour_nonneg := by omega
  hour_lt := by omega
  min_nonneg := by omega
  min_lt := by omega
  sec_nonneg := by omega
  sec_lt := by omega

@[simp] theorem seconds_ofSeconds (n : Int) : (ofSeconds n).seconds = n := by
  rw [seconds]
  change 86400 * (Date.ofNumber (n / 86400)).number + 3600 * (n % 86400 / 3600) + 60 * (n % 3600 / 60) + n % 60 = n
  rw [Date.number_ofNumber]
  omega

theorem seconds_lt_iff : t.seconds < t'.seconds ↔ t.toDate.number < t'.toDate.number ∨
    t.toDate.number = t'.toDate.number ∧ 3600 * t.hour + 60 * t.min + t.sec < 3600 * t'.hour + 60 * t'.min + t'.sec := by
  have hb := t.bounds
  have hb' := t'.bounds
  unfold seconds
  omega

theorem seconds_injective : Function.Injective seconds := by
  intro t t' h
  have hb := t.bounds
  have hb' := t'.bounds
  unfold seconds at h
  have hdate : t.toDate = t'.toDate := Date.number_injective (by omega)
  rw [hdate] at h
  cases t
  cases t'
  simp only at hdate h hb hb'
  subst hdate
  congr 1 <;> omega

@[simp] theorem ofSeconds_seconds (t : Moment) : ofSeconds t.seconds = t := seconds_injective (seconds_ofSeconds _)

end Moment

end Calendar
