/-
Going months and years ahead or back (SystemApi/TimeInfo.cpp).

`AddYear` is always right. `AddMonth` adds in 4 bits and carries at most one
year, so that it is right only if the sum is from 1 to 15 (or wraps as the
year does), and it makes the day smaller in February only.
-/
import XFramework.SystemApi.TimeInfo

open Calendar

namespace TimeInfo

/-- `t'` is `n` months behind `t`, on the same day or the last one of the month, at the same time of day. -/
structure Moved (t : TimeInfo) (d : Date) (n : Int) (t' : TimeInfo) : Prop where
  date : ∃ e, t'.Shows e ∧ e.months = d.months + n ∧ e.day = min d.day (daysIn e.year e.month)
  hour : t'.ti_hour = t.ti_hour
  min : t'.ti_min = t.ti_min
  sec : t'.ti_sec = t.ti_sec

/-- The field has years for it. -/
def InYears (d : Date) : Prop := 2000 ≤ d.year ∧ d.year ≤ 2063

instance (d : Date) : Decidable (InYears d) := inferInstanceAs (Decidable (_ ∧ _))

/-- `AddMonth` gets to the year and month that it should. -/
def Carries (d : Date) (m : Int) : Prop :=
  1 ≤ d.month + m ∧ d.month + m ≤ 15 ∨ d.year = 2063 ∧ -755 ≤ d.month + m ∧ d.month + m ≤ -753

/-- Where `AddMonth` is right. -/
def Exact (d : Date) (m : Int) : Prop :=
  Carries d m ∧ ¬(d.day = 31 ∧ daysIn (d.addMonths m).year (d.addMonths m).month = 30)

variable {t t' : TimeInfo} {d e : Date} {m n y : Int}

theorem Moved.shows (h : Moved t d n t') : t'.Shows (d.addMonths n) := by
  obtain ⟨e, he, hmonths⟩ := h.date
  rwa [← Date.eq_addMonths_iff.2 hmonths]

theorem Shows.date (h : t'.Shows (d.addMonths n)) :
    ∃ e, t'.Shows e ∧ e.months = d.months + n ∧ e.day = min d.day (daysIn e.year e.month) :=
  ⟨d.addMonths n, h, Date.eq_addMonths_iff.1 rfl⟩

/-- The date and the time of day are all that there is of a `TimeInfo`. -/
theorem Moved.unique {t₁ t₂ : TimeInfo} (h₁ : Moved t d n t₁) (h₂ : Moved t d n t₂) : t₁ = t₂ := by
  have hday := h₁.shows.day.trans h₂.shows.day.symm
  have hmonth := h₁.shows.month.trans h₂.shows.month.symm
  have hyear := h₁.shows.year.trans h₂.shows.year.symm
  refine TimeInfo.ext (h₁.sec.trans h₂.sec.symm) (h₁.min.trans h₂.min.symm) (h₁.hour.trans h₂.hour.symm) ?_ ?_ ?_
  · exact BitVec.eq_of_toNat_eq (by omega)
  · exact BitVec.eq_of_toNat_eq (by omega)
  · exact BitVec.eq_of_toNat_eq (by omega)

/-! ## The day -/

/-- Nothing but the day is changed. -/
theorem clampDay_eq (t : TimeInfo) : ∃ day, t.clampDay = { t with ti_day := day } ∧ day.toNat =
    if t.ti_mon.toNat = 2 then min t.ti_day.toNat (if (t.ti_year.toNat + 2000) % 4 = 0 then 29 else 28) else t.ti_day.toNat := by
  unfold clampDay
  split_ifs with h₁ h₂ h₃ h₄
  · exact ⟨29, rfl, by simp; omega⟩
  · exact ⟨t.ti_day, rfl, by omega⟩
  · exact ⟨28, rfl, by simp; omega⟩
  · exact ⟨t.ti_day, rfl, by omega⟩
  · exact ⟨t.ti_day, rfl, rfl⟩

/-- Once the year and the month are right, the day is, but for the 31st in a month of 30 days. -/
theorem shows_clampDay_iff (hyear : (t.ti_year.toNat : Int) + 2000 = e.year) (hmonth : (t.ti_mon.toNat : Int) = e.month)
    (hday : e.day = min (t.ti_day.toNat : Int) (daysIn e.year e.month)) :
    t.clampDay.Shows e ↔ ¬((t.ti_day.toNat : Int) = 31 ∧ daysIn e.year e.month = 30) := by
  obtain ⟨day, hclamp, hnat⟩ := clampDay_eq t
  have hlt := t.ti_year.isLt
  have hlt' := t.ti_day.isLt
  have hleap := isLeap_iff (y := e.year) (by omega) (by omega)
  have hshows : t.clampDay.Shows e ↔ (day.toNat : Int) = e.day := by
    rw [hclamp]
    exact ⟨fun h => h.day, fun h => ⟨hyear, hmonth, h⟩⟩
  rw [hshows, hday, hnat]
  unfold daysIn
  simp only [hleap]
  split_ifs <;> omega

/-! ## The month and the year -/

/-- The sum in the field of the month, with what is carried to the year. -/
theorem AddMonth_eq (t : TimeInfo) (m : Int) : ∃ mon year, t.AddMonth m = { t with ti_mon := mon, ti_year := year }.clampDay ∧
    (mon.toNat : Int) = (if 12 < (t.ti_mon.toNat + m) % 16 then (t.ti_mon.toNat + m) % 16 - 12 else (t.ti_mon.toNat + m) % 16) ∧
    (year.toNat : Int) = if 12 < (t.ti_mon.toNat + m) % 16 then ((t.ti_year.toNat : Int) + 1) % 64 else t.ti_year.toNat := by
  have hsum : ((BitVec.ofInt 4 (t.ti_mon.toNat + m)).toNat : Int) = (t.ti_mon.toNat + m) % 16 := by
    rw [BitVec.toNat_ofInt]
    omega
  unfold AddMonth
  by_cases hcarry : 12 < (t.ti_mon.toNat + m) % 16
  · have hnat : 12 < (BitVec.ofInt 4 (t.ti_mon.toNat + m)).toNat := by omega
    refine ⟨.ofInt 4 ((BitVec.ofInt 4 (t.ti_mon.toNat + m)).toNat + -12), .ofInt 6 (t.ti_year.toNat + 1), ?_, ?_, ?_⟩
    · simp only [if_pos hnat]
    · rw [if_pos hcarry, BitVec.toNat_ofInt, hsum]
      omega
    · rw [if_pos hcarry, BitVec.toNat_ofInt]
      omega
  · have hnat : ¬12 < (BitVec.ofInt 4 (t.ti_mon.toNat + m)).toNat := by omega
    have hneg : ¬((BitVec.ofInt 4 (t.ti_mon.toNat + m)).toNat : Int) < 0 := by omega
    refine ⟨.ofInt 4 (t.ti_mon.toNat + m), t.ti_year, ?_, ?_, ?_⟩
    · simp only [if_neg hnat, if_neg hneg]
    · rw [if_neg hcarry, hsum]
    · rw [if_neg hcarry]

/-- Where the year stays in its field, the sum is right if it is from 1 to 15. -/
theorem carries_iff (h : t.Shows d) (hyears : InYears (d.addMonths m)) {mon year : Int}
    (hmon : mon = if 12 < (t.ti_mon.toNat + m) % 16 then (t.ti_mon.toNat + m) % 16 - 12 else (t.ti_mon.toNat + m) % 16)
    (hyear : year = if 12 < (t.ti_mon.toNat + m) % 16 then ((t.ti_year.toNat : Int) + 1) % 64 else t.ti_year.toNat) :
    year + 2000 = (d.addMonths m).year ∧ mon = (d.addMonths m).month ↔ Carries d m := by
  have hmonths : (d.addMonths m).months = d.months + m := Date.months_addMonths
  have hpos := (d.addMonths m).month_pos
  have hle := (d.addMonths m).month_le
  have hpos' := d.month_pos
  have hle' := d.month_le
  obtain ⟨h₁, h₂⟩ := hyears
  obtain ⟨h₁', h₂'⟩ := h.year_bounds
  have hm := h.month
  have hy := h.year
  unfold Date.months at hmonths
  unfold Carries
  rw [hm] at hmon hyear
  split_ifs at hmon hyear <;> omega

theorem moved_AddMonth_iff (h : t.Shows d) (hyears : InYears (d.addMonths m)) : Moved t d m (t.AddMonth m) ↔ Exact d m := by
  obtain ⟨mon, year, hrun, hmon, hyear⟩ := AddMonth_eq t m
  have hcarries := carries_iff h hyears hmon hyear
  obtain ⟨day, hclamp, -⟩ := clampDay_eq { t with ti_mon := mon, ti_year := year }
  have hshows : Moved t d m (t.AddMonth m) ↔ (t.AddMonth m).Shows (d.addMonths m) := by
    refine ⟨Moved.shows, fun h => ⟨h.date, ?_, ?_, ?_⟩⟩
    · rw [hrun, hclamp]
    · rw [hrun, hclamp]
    · rw [hrun, hclamp]
  rw [hshows, hrun]
  by_cases hc : Carries d m
  · obtain ⟨h₁, h₂⟩ := hcarries.2 hc
    have hday : (d.addMonths m).day = min (t.ti_day.toNat : Int) (daysIn (d.addMonths m).year (d.addMonths m).month) := by
      rw [h.day]
      rfl
    refine (shows_clampDay_iff (t := { t with ti_mon := mon, ti_year := year }) h₁ h₂ hday).trans ?_
    rw [h.day]
    exact (and_iff_right hc).symm
  · refine iff_of_false (fun h => hc (hcarries.1 ?_)) fun h => hc h.1
    rw [hclamp] at h
    exact ⟨h.year, h.month⟩

theorem moved_AddYear (h : t.Shows d) (hyears : InYears (d.addMonths (12 * y))) : Moved t d (12 * y) (t.AddYear y) := by
  have hmonths : (d.addMonths (12 * y)).months = d.months + 12 * y := Date.months_addMonths
  have hpos := (d.addMonths (12 * y)).month_pos
  have hle := (d.addMonths (12 * y)).month_le
  have hpos' := d.month_pos
  have hle' := d.month_le
  obtain ⟨h₁, h₂⟩ := hyears
  have hy := h.year
  unfold Date.months at hmonths
  have hmonth : (d.addMonths (12 * y)).month = d.month := by omega
  have hyear : ((BitVec.ofInt 6 (t.ti_year.toNat + y)).toNat : Int) + 2000 = (d.addMonths (12 * y)).year := by
    rw [toNat_ofInt_of (by omega) (by omega)]
    omega
  have hday : (d.addMonths (12 * y)).day =
      min (t.ti_day.toNat : Int) (daysIn (d.addMonths (12 * y)).year (d.addMonths (12 * y)).month) := by
    rw [h.day]
    rfl
  -- the 31st of the old month is one of the new month
  have hshort : ¬((t.ti_day.toNat : Int) = 31 ∧ daysIn (d.addMonths (12 * y)).year (d.addMonths (12 * y)).month = 30) := by
    have hold := d.day_le
    rw [h.day, hmonth]
    unfold daysIn at *
    split_ifs at * <;> omega
  obtain ⟨day, hclamp, -⟩ := clampDay_eq { t with ti_year := .ofInt 6 (t.ti_year.toNat + y) }
  have hshows : (t.AddYear y).Shows (d.addMonths (12 * y)) :=
    (shows_clampDay_iff (t := { t with ti_year := .ofInt 6 (t.ti_year.toNat + y) }) hyear (h.month.trans hmonth.symm) hday).2 hshort
  refine ⟨hshows.date, ?_, ?_, ?_⟩
  · rw [AddYear, hclamp]
  · rw [AddYear, hclamp]
  · rw [AddYear, hclamp]

/-- `AddYear` is right, and `AddMonth`, which `AddYear` then agrees with, where it has no more than one carry and no month
that is too short. -/
theorem moved_iff (t : TimeInfo) (d : Date) (h : t.Shows d) :
    (∀ m, InYears (d.addMonths m) → (Moved t d m (t.AddMonth m) ↔ Exact d m)) ∧
    ∀ y, InYears (d.addMonths (12 * y)) →
      Moved t d (12 * y) (t.AddYear y) ∧ (t.AddYear y = t.AddMonth (12 * y) ↔ Exact d (12 * y)) := by
  refine ⟨fun m hyears => moved_AddMonth_iff h hyears, fun y hyears => ⟨moved_AddYear h hyears, ?_⟩⟩
  rw [← moved_AddMonth_iff h hyears]
  refine ⟨fun heq => heq ▸ moved_AddYear h hyears, fun hmonth => (moved_AddYear h hyears).unique hmonth⟩

/-- 31 January 2020. -/
def january : Date := ⟨2020, 1, 31, by decide, by decide, by decide, by decide⟩

theorem moved_iff_january :
    (∀ m, InYears (january.addMonths m) →
      (Moved ⟨0, 0, 0, 31, 1, 20⟩ january m (AddMonth ⟨0, 0, 0, 31, 1, 20⟩ m) ↔ Exact january m)) ∧
    ∀ y, InYears (january.addMonths (12 * y)) →
      Moved ⟨0, 0, 0, 31, 1, 20⟩ january (12 * y) (AddYear ⟨0, 0, 0, 31, 1, 20⟩ y) ∧
      (AddYear ⟨0, 0, 0, 31, 1, 20⟩ y = AddMonth ⟨0, 0, 0, 31, 1, 20⟩ (12 * y) ↔ Exact january (12 * y)) :=
  moved_iff ⟨0, 0, 0, 31, 1, 20⟩ january ⟨rfl, rfl, rfl⟩

/-- Three months behind 31 January. -/
theorem not_moved_january : ¬∀ t d, Shows t d → ∀ m y, InYears (d.addMonths m) → InYears (d.addMonths (12 * y)) →
    Moved t d m (t.AddMonth m) ∧ Moved t d (12 * y) (t.AddYear y) ∧ t.AddYear y = t.AddMonth (12 * y) := fun h => by
  have hmoved := (h ⟨0, 0, 0, 31, 1, 20⟩ january ⟨rfl, rfl, rfl⟩ 3 0 (by decide) (by decide)).1
  exact absurd hmoved.shows.day (by decide)

end TimeInfo
