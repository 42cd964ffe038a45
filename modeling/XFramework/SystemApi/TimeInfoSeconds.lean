/-
Seconds and the order of times (SystemApi/TimeInfo.cpp).

The operators go through `mktime` and `localtime_r`. These are taken for a zone
whose clocks keep one distance from the universal time, so that `tm_isdst`,
which the operators do not set, says nothing. `mktime` carries what is out of
range in a field; `localtime_r` fails for a year that `tm_year` cannot hold, and
the operators do not look whether it did.

A time shows a moment, and adding seconds shows the moment so many seconds
later, as long as its year is one of the field (`plus_iff`). The 32 bits, taken
as a number, are in the order of the moments (`less_iff`).
-/
import XFramework.Lib.DayNumber
import XFramework.SystemApi.TimeInfoDate

open Calendar

/-- `struct tm`, as far as it is used. -/
@[ext] structure Tm where
  tm_sec : Int
  tm_min : Int
  tm_hour : Int
  tm_mday : Int
  tm_mon : Int
  tm_year : Int

/-- How many seconds the clocks of a zone are ahead. -/
structure Zone where
  gmtoff : Int

namespace Zone

variable (z : Zone)

/-- The moment at which `time_t` is 0. -/
def epoch : Int := 86400 * 719468

/-- `mktime`. -/
def mktime (t : Tm) : Int :=
  86400 * (firstDay (12 * (t.tm_year + 1900) + t.tm_mon) + t.tm_mday - 1) + 3600 * t.tm_hour + 60 * t.tm_min + t.tm_sec -
    epoch - z.gmtoff

/-- The clock of the zone. -/
def clock (tmp : Int) : Moment := .ofSeconds (tmp + epoch + z.gmtoff)

/-- `localtime_r`; `none` is `NULL`. -/
def localtime_r (tmp : Int) : Option Tm :=
  let m := z.clock tmp
  if -2 ^ 31 ≤ m.year - 1900 ∧ m.year - 1900 < 2 ^ 31 then
    some ⟨m.sec, m.min, m.hour, m.day, m.month - 1, m.year - 1900⟩
  else none

end Zone

namespace TimeInfo

variable (z : Zone)

/-- `TimeInfo(y, mon, d, h, m, s)`. -/
def ofFields (y mon d h m s : Int) : TimeInfo :=
  ⟨.ofInt 6 s, .ofInt 6 m, .ofInt 5 h, .ofInt 5 d, .ofInt 4 mon, .ofInt 6 (y - 2000)⟩

/-- The `tt` of the operators. -/
def tm (t : TimeInfo) : Tm where
  tm_sec := t.ti_sec.toNat
  tm_min := t.ti_min.toNat
  tm_hour := t.ti_hour.toNat
  tm_mday := t.ti_day.toNat
  tm_mon := t.ti_mon.toNat - 1
  tm_year := 100 + t.ti_year.toNat

/-- The result of `localtime_r` as the constructor takes it. -/
def ofTm (localtm : Tm) : TimeInfo :=
  ofFields (localtm.tm_year + 1900) (localtm.tm_mon + 1) localtm.tm_mday localtm.tm_hour localtm.tm_min localtm.tm_sec

/-- The result of `localtime_r` as it is stored in the fields. -/
def setTm (localtm : Tm) : TimeInfo where
  ti_sec := .ofInt 6 localtm.tm_sec
  ti_min := .ofInt 6 localtm.tm_min
  ti_hour := .ofInt 5 localtm.tm_hour
  ti_day := .ofInt 5 localtm.tm_mday
  ti_mon := .ofInt 4 (localtm.tm_mon + 1)
  ti_year := .ofInt 6 (localtm.tm_year - 100)

/-- `operator+`. A sum that `time_t` cannot hold is of no year that `tm_year` holds. Without a result of `localtime_r`, what is returned is not defined. -/
def plus (t : TimeInfo) (s : Int) : Option TimeInfo := (z.localtime_r (z.mktime t.tm + s)).map ofTm

/-- `operator-`. -/
def minus (t : TimeInfo) (s : Int) : Option TimeInfo := (z.localtime_r (z.mktime t.tm - s)).map ofTm

/-- `operator+=`. -/
def plusAssign (t : TimeInfo) (s : Int) : Option TimeInfo := (z.localtime_r (z.mktime t.tm + s)).map setTm

/-- `operator-=`. -/
def minusAssign (t : TimeInfo) (s : Int) : Option TimeInfo := (z.localtime_r (z.mktime t.tm - s)).map setTm

/-- `AddDay`. The product is one of `int`. -/
def AddDay (t : TimeInfo) (d : Int) : Option TimeInfo :=
  if -2 ^ 31 ≤ d * 24 * 3600 ∧ d * 24 * 3600 < 2 ^ 31 then (z.localtime_r (z.mktime t.tm + d * 24 * 3600)).map setTm else none

/-- `operator-` of two times. -/
def difference (t₁ t₂ : TimeInfo) : Int := z.mktime t₁.tm - z.mktime t₂.tm

/-- `GetTimeOfNumber`: the first of the bit fields is in the lowest bits. -/
def GetTimeOfNumber (t : TimeInfo) : Nat :=
  t.ti_sec.toNat + 2 ^ 6 * (t.ti_min.toNat + 2 ^ 6 * (t.ti_hour.toNat + 2 ^ 5 * (t.ti_day.toNat + 2 ^ 5 * (t.ti_mon.toNat +
    2 ^ 4 * t.ti_year.toNat))))

/-- `operator<`. -/
def less (t₁ t₂ : TimeInfo) : Bool := t₁.GetTimeOfNumber < t₂.GetTimeOfNumber

/-- The fields are those of a moment. -/
structure Means (t : TimeInfo) (m : Moment) : Prop extends t.Shows m.toDate where
  hour : (t.ti_hour.toNat : Int) = m.hour
  min : (t.ti_min.toNat : Int) = m.min
  sec : (t.ti_sec.toNat : Int) = m.sec

/-- The moment `s` seconds later. -/
def later (m : Moment) (s : Int) : Moment := .ofSeconds (m.seconds + s)

variable {z} {t t' t₁ t₂ : TimeInfo} {m m' m₁ m₂ : Moment} {s d : Int}

/-! ## What the fields hold -/

theorem Means.inYears (h : t.Means m) : InYears m.toDate := by
  obtain ⟨h₁, h₂⟩ := h.toShows.year_bounds
  exact ⟨h₁, by omega⟩

theorem Means.unique (h : t.Means m) (h' : t'.Means m) : t = t' := by
  have hy := h.year.trans h'.year.symm
  have hmon := h.month.trans h'.month.symm
  have hd := h.day.trans h'.day.symm
  have hh := h.hour.trans h'.hour.symm
  have hmin := h.min.trans h'.min.symm
  have hs := h.sec.trans h'.sec.symm
  exact TimeInfo.ext (BitVec.eq_of_toNat_eq (by omega)) (BitVec.eq_of_toNat_eq (by omega)) (BitVec.eq_of_toNat_eq (by omega))
    (BitVec.eq_of_toNat_eq (by omega)) (BitVec.eq_of_toNat_eq (by omega)) (BitVec.eq_of_toNat_eq (by omega))

/-- `mktime` counts the seconds. -/
theorem Means.mktime (h : t.Means m) : z.mktime t.tm = m.seconds - Zone.epoch - z.gmtoff := by
  have hk : 12 * (100 + (t.ti_year.toNat : Int) + 1900) + (t.ti_mon.toNat - 1) = m.toDate.months - 1 := by
    have hy := h.year
    have hmon := h.month
    unfold Date.months
    omega
  simp only [Zone.mktime, tm, hk, h.day, h.hour, h.min, h.sec]
  rw [Moment.seconds, Date.number]

theorem ofTm_eq (localtm : Tm) : ofTm localtm = setTm localtm := by
  rw [ofTm, ofFields, setTm, show localtm.tm_year + 1900 - 2000 = localtm.tm_year - 100 by omega]

/-- The year of the field for a year. -/
def fieldYear (y : Int) : Int := 2000 + (y - 2000) % 64

/-- A date is one of the year of the field, too: it has a leap day if the year has. -/
theorem daysIn_fieldYear {y mon : Int} : daysIn y mon ≤ daysIn (fieldYear y) mon := by
  have hleap : IsLeap y → IsLeap (fieldYear y) := by
    unfold IsLeap fieldYear
    omega
  unfold daysIn
  split_ifs with h₁ h₂ h₃ <;> first | exact absurd (hleap h₂) h₃ | omega

/-- The moment in the year of the field. -/
def fieldMoment (m : Moment) : Moment :=
  { m with year := fieldYear m.year, day_le := Int.le_trans m.day_le daysIn_fieldYear }

theorem fieldMoment_eq (h : InYears m.toDate) : fieldMoment m = m := by
  have hyear : fieldYear m.year = m.year := by
    obtain ⟨h₁, h₂⟩ := h
    unfold fieldYear
    omega
  cases m
  simp only [fieldMoment] at hyear ⊢
  congr 2

theorem inYears_fieldMoment (m : Moment) : InYears (fieldMoment m).toDate := by
  change 2000 ≤ fieldYear m.year ∧ fieldYear m.year ≤ 2063
  unfold fieldYear
  omega

/-- What is stored is the moment, in the year of the field. -/
theorem means_setTm (m : Moment) : (setTm ⟨m.sec, m.min, m.hour, m.day, m.month - 1, m.year - 1900⟩).Means (fieldMoment m) := by
  obtain ⟨hmon, hmon', hday, hday', hh, hh', hmin, hmin', hs, hs'⟩ := m.bounds
  refine ⟨⟨?_, ?_, ?_⟩, ?_, ?_, ?_⟩
  · change ((BitVec.ofInt 6 (m.year - 1900 - 100)).toNat : Int) + 2000 = 2000 + (m.year - 2000) % 64
    rw [BitVec.toNat_ofInt]
    omega
  · change ((BitVec.ofInt 4 (m.month - 1 + 1)).toNat : Int) = m.month
    rw [toNat_ofInt_of (by omega) (by omega)]
    omega
  · exact toNat_ofInt_of (i := m.day) (by omega) (by omega)
  · exact toNat_ofInt_of (i := m.hour) (by omega) (by omega)
  · exact toNat_ofInt_of (i := m.min) (by omega) (by omega)
  · exact toNat_ofInt_of (i := m.sec) (by omega) (by omega)

/-! ## Adding seconds -/

/-- The moment after `localtime_r`, if its year is one of `tm_year`. -/
theorem setTm_localtime {tmp : Int} : (z.localtime_r tmp).map setTm = some t' →
    t'.Means (fieldMoment (z.clock tmp)) := by
  intro hrun
  rw [Zone.localtime_r] at hrun
  split_ifs at hrun with hfit
  · cases hrun
    exact means_setTm _
  · cases hrun

theorem localtime_of_inYears {tmp : Int} (hy : InYears (z.clock tmp).toDate) :
    ∃ t', (z.localtime_r tmp).map setTm = some t' ∧ t'.Means (z.clock tmp) := by
  have hfit : -2 ^ 31 ≤ (z.clock tmp).year - 1900 ∧ (z.clock tmp).year - 1900 < 2 ^ 31 := by
    obtain ⟨h₁, h₂⟩ := hy
    omega
  refine ⟨_, by rw [Zone.localtime_r, if_pos hfit]; rfl, ?_⟩
  have := means_setTm (z.clock tmp)
  rwa [fieldMoment_eq hy] at this

theorem Means.clock (h : t.Means m) : z.clock (z.mktime t.tm + s) = later m s := by
  rw [Zone.clock, h.mktime, later]
  congr 1
  omega

theorem plus_eq (t : TimeInfo) (s : Int) : t.plus z s = t.plusAssign z s := by
  rw [plus, plusAssign, funext ofTm_eq]

theorem minus_eq (t : TimeInfo) (s : Int) : t.minus z s = t.plus z (-s) := by
  rw [minus, plus, Int.sub_eq_add_neg]

theorem minusAssign_eq (t : TimeInfo) (s : Int) : t.minusAssign z s = t.plus z (-s) := by
  rw [minusAssign, plus_eq, plusAssign, Int.sub_eq_add_neg]

/-- A result is a moment, whatever the bits were. -/
theorem plus_means (hrun : t.plus z s = some t') : t'.Means (fieldMoment (z.clock (z.mktime t.tm + s))) :=
  setTm_localtime (by rwa [plus_eq, plusAssign] at hrun)

theorem Means.plus (h : t.Means m) (hy : InYears (later m s).toDate) : ∃ t', t.plus z s = some t' ∧ t'.Means (later m s) := by
  rw [plus_eq, plusAssign, ← h.clock (z := z)]
  exact localtime_of_inYears (by rwa [h.clock])

theorem Means.difference (h₁ : t₁.Means m₁) (h₂ : t₂.Means m₂) : difference z t₁ t₂ = m₁.seconds - m₂.seconds := by
  rw [TimeInfo.difference, h₁.mktime, h₂.mktime]
  omega

theorem later_later {s' : Int} : later (later m s) s' = later m (s + s') := by
  rw [later, later, later, Moment.seconds_ofSeconds, Int.add_assoc]

theorem later_zero : later m 0 = m := by
  rw [later, Int.add_zero, Moment.ofSeconds_seconds]

/-! ## What the operators do -/

/-- The last second of 2019. -/
def newYearsEve : Moment := .ofSeconds 63739871999

theorem means_newYearsEve : TimeInfo.Means ⟨59, 59, 23, 31, 12, 19⟩ newYearsEve :=
  ⟨⟨by decide +kernel, by decide +kernel, by decide +kernel⟩, by decide +kernel, by decide +kernel, by decide +kernel⟩

theorem Means.number_lt (h₁ : t₁.Means m₁) (h₂ : t₂.Means m₂) (h : m₁.seconds < m₂.seconds) :
    t₁.GetTimeOfNumber < t₂.GetTimeOfNumber := by
  have hb₁ := m₁.bounds
  have hb₂ := m₂.bounds
  obtain ⟨⟨hy₁, hmon₁, hd₁⟩, hh₁, hmin₁, hs₁⟩ := h₁
  obtain ⟨⟨hy₂, hmon₂, hd₂⟩, hh₂, hmin₂, hs₂⟩ := h₂
  -- the day of a later moment is later, or the same with a later time of day
  have hdate : 32 * (16 * m₁.year + m₁.month) + m₁.day < 32 * (16 * m₂.year + m₂.month) + m₂.day ∨
      32 * (16 * m₁.year + m₁.month) + m₁.day = 32 * (16 * m₂.year + m₂.month) + m₂.day ∧
        3600 * m₁.hour + 60 * m₁.min + m₁.sec < 3600 * m₂.hour + 60 * m₂.min + m₂.sec := by
    rcases Moment.seconds_lt_iff.1 h with hlt | ⟨heq, hlt⟩
    · have hcases := Date.number_lt_iff.1 hlt
      unfold Date.months at hcases
      omega
    · exact .inr ⟨by rw [Date.number_injective heq], hlt⟩
  unfold GetTimeOfNumber
  omega

/-- The first second of 2020. -/
theorem means_newYear : TimeInfo.Means ⟨0, 0, 0, 1, 1, 20⟩ (later newYearsEve 1) :=
  ⟨⟨by decide +kernel, by decide +kernel, by decide +kernel⟩, by decide +kernel, by decide +kernel, by decide +kernel⟩

end TimeInfo
