/-
Which texts the constructor of `TimeInfo` takes (SystemApi/TimeInfo.cpp).

Every text of a date and time in the years of the field is taken, and given
back by `operator string`. The separators may be anywhere behind the year
though, the day has no lower bound and the year none at all, so that other
texts are taken as well, and give another one back.
-/
import XFramework.SystemApi.TimeInfo

open Fallible CStr

namespace TimeInfo

/-- The pieces of a text behind its separators. -/
structure Separated (p M D H m S : List UInt8) : Prop where
  month : Behind 45 p M
  day : Behind 45 M D
  hour : Behind 32 D H
  min : Behind 58 H m
  sec : Behind 58 m S

/-- The numbers at the beginning of the pieces are in their ranges. -/
structure InRange (Y M D H m S : List UInt8) : Prop where
  month_pos : 0 < number (M.take 2)
  month_le : number (M.take 2) ≤ 12
  day_le : number (D.take 2) ≤ GetMaxDay (number Y - 2000) (number (M.take 2))
  hour_nonneg : 0 ≤ number (H.take 2)
  hour_le : number (H.take 2) ≤ 23
  min_nonneg : 0 ≤ number (m.take 2)
  min_lt : number (m.take 2) < 60
  sec_nonneg : 0 ≤ number S
  sec_lt : number S < 60

/-- A text of 19 characters with the five separators in their order, and with numbers in their ranges. -/
def Lenient (s : CStr) : Prop :=
  s.strlen = 19 ∧ ∃ M D H m S, Separated (s.chars.drop 4) M D H m S ∧ InRange (s.chars.take 4) M D H m S

/-- The text of a date and time from 2000 to 2063. -/
def IsText (s : CStr) : Prop := ∃ t : Calendar.Moment, 2000 ≤ t.year ∧ t.year ≤ 2063 ∧ s.chars = t.text

/-- The constructor takes the texts of dates and times, which it gives back, and no others. -/
def Meets (s : CStr) : Prop := ((∃ t, parse s = .ok t) ↔ IsText s) ∧ ∀ t, parse s = .ok t → t.string = s.chars

/-- What the pieces are stored as. -/
def ofPieces (Y M D H m S : List UInt8) : TimeInfo :=
  ⟨.ofInt 6 (number S), .ofInt 6 (number (m.take 2)), .ofInt 5 (number (H.take 2)), .ofInt 5 (number (D.take 2)),
    .ofInt 4 (number (M.take 2)), .ofInt 6 (number Y - 2000)⟩

variable {c : UInt8} {p q Y M D H m S : List UInt8} {s : CStr} {t : TimeInfo}

/-! ## The steps of the constructor -/

theorem behind_eq_ok : behind c p = .ok q ↔ Behind c p q := by
  unfold behind
  cases hfind : strchr p c with
  | none =>
    refine iff_of_false nofun fun h => ?_
    cases hfind.symm.trans (strchr_eq_some.2 ⟨q, rfl, h⟩)
  | some r =>
    obtain ⟨q', rfl, hbehind⟩ := strchr_eq_some.1 hfind
    refine ⟨?_, fun h => ?_⟩
    · rintro ⟨⟩
      exact hbehind
    · cases hfind.symm.trans (strchr_eq_some.2 ⟨q, rfl, h⟩)
      rfl

theorem behind_ne_range : behind c p ≠ .error .range := by
  unfold behind
  split <;> simp

theorem check_eq_ok {c : Prop} [Decidable c] {u : Unit} : check c = .ok u ↔ c := by
  unfold check
  split <;> simp [*]

theorem check_ne_range {c : Prop} [Decidable c] : check c ≠ .error .range := by
  unfold check
  split <;> simp

theorem int_eq_number {n : Int} (h : int p = .ok n) : n = number p := by
  unfold int at h
  split at h
  next => cases h
  next hn =>
    cases h
    exact numberOf_eq hn

theorem int_of_length (h : p.length ≤ 9) : int p = .ok (number p) := by
  rw [int, atoi_of_length h]

theorem int_take {n : Nat} (hn : n ≤ 9) : int (p.take n) = .ok (number (p.take n)) :=
  int_of_length (Nat.le_trans (List.length_take_le n p) hn)

/-- A month is no text that begins with its separator. -/
theorem Separated.length_le (h : Separated p M D H m S) (hmonth : 0 < number (M.take 2)) : S.length + 6 ≤ p.length := by
  have hhead : M.head? ≠ some 45 := by
    intro hM
    cases M with
    | nil => cases hM
    | cons x M =>
      cases hM
      have := number_minus (M.take 1)
      rw [List.take_succ_cons] at hmonth
      omega
  have h₁ := h.month.length_lt
  have h₂ := h.day.length_succ_lt hhead
  have h₃ := h.hour.length_lt
  have h₄ := h.min.length_lt
  have h₅ := h.sec.length_lt
  omega

/-- What the constructor takes, and what it stores. -/
theorem parse_eq_ok : parse s = .ok t ↔ s.strlen = 19 ∧ ∃ M D H m S, Separated (s.chars.drop 4) M D H m S ∧
    InRange (s.chars.take 4) M D H m S ∧ t = ofPieces (s.chars.take 4) M D H m S := by
  refine ⟨fun h => ?_, ?_⟩
  · obtain ⟨_, hlen, h⟩ := bind_eq_ok.1 h
    obtain ⟨year, hyear, h⟩ := bind_eq_ok.1 h
    obtain ⟨M, hM, h⟩ := bind_eq_ok.1 h
    obtain ⟨month, hmonth, h⟩ := bind_eq_ok.1 h
    obtain ⟨_, hmonths, h⟩ := bind_eq_ok.1 h
    obtain ⟨D, hD, h⟩ := bind_eq_ok.1 h
    obtain ⟨day, hday, h⟩ := bind_eq_ok.1 h
    obtain ⟨_, hdays, h⟩ := bind_eq_ok.1 h
    obtain ⟨H, hH, h⟩ := bind_eq_ok.1 h
    obtain ⟨hour, hhour, h⟩ := bind_eq_ok.1 h
    obtain ⟨_, hhours, h⟩ := bind_eq_ok.1 h
    obtain ⟨m, hm, h⟩ := bind_eq_ok.1 h
    obtain ⟨min, hmin, h⟩ := bind_eq_ok.1 h
    obtain ⟨_, hmins, h⟩ := bind_eq_ok.1 h
    obtain ⟨S, hS, h⟩ := bind_eq_ok.1 h
    obtain ⟨sec, hsec, h⟩ := bind_eq_ok.1 h
    obtain ⟨_, hsecs, h⟩ := bind_eq_ok.1 h
    cases h
    cases int_eq_number hyear
    cases int_eq_number hmonth
    cases int_eq_number hday
    cases int_eq_number hhour
    cases int_eq_number hmin
    cases int_eq_number hsec
    rw [check_eq_ok] at hlen hmonths hdays hhours hmins hsecs
    rw [behind_eq_ok] at hM hD hH hm hS
    exact ⟨hlen, M, D, H, m, S, ⟨hM, hD, hH, hm, hS⟩,
      ⟨hmonths.1, hmonths.2, hdays, hhours.1, hhours.2, hmins.1, hmins.2, hsecs.1, hsecs.2⟩, rfl⟩
  · rintro ⟨hlen, M, D, H, m, S, hsep, hrange, rfl⟩
    have hS : S.length ≤ 9 := by
      have hle := hsep.length_le hrange.month_pos
      rw [List.length_drop] at hle
      unfold strlen at hlen
      omega
    unfold parse
    refine bind_eq_ok.2 ⟨(), check_eq_ok.2 hlen, bind_eq_ok.2 ⟨_, int_take (by decide), ?_⟩⟩
    refine bind_eq_ok.2 ⟨M, behind_eq_ok.2 hsep.month, bind_eq_ok.2 ⟨_, int_take (by decide), ?_⟩⟩
    refine bind_eq_ok.2 ⟨(), check_eq_ok.2 ⟨hrange.month_pos, hrange.month_le⟩, ?_⟩
    refine bind_eq_ok.2 ⟨D, behind_eq_ok.2 hsep.day, bind_eq_ok.2 ⟨_, int_take (by decide), ?_⟩⟩
    refine bind_eq_ok.2 ⟨(), check_eq_ok.2 hrange.day_le, ?_⟩
    refine bind_eq_ok.2 ⟨H, behind_eq_ok.2 hsep.hour, bind_eq_ok.2 ⟨_, int_take (by decide), ?_⟩⟩
    refine bind_eq_ok.2 ⟨(), check_eq_ok.2 ⟨hrange.hour_nonneg, hrange.hour_le⟩, ?_⟩
    refine bind_eq_ok.2 ⟨m, behind_eq_ok.2 hsep.min, bind_eq_ok.2 ⟨_, int_take (by decide), ?_⟩⟩
    refine bind_eq_ok.2 ⟨(), check_eq_ok.2 ⟨hrange.min_nonneg, hrange.min_lt⟩, ?_⟩
    refine bind_eq_ok.2 ⟨S, behind_eq_ok.2 hsep.sec, bind_eq_ok.2 ⟨_, int_of_length hS, ?_⟩⟩
    exact bind_eq_ok.2 ⟨(), check_eq_ok.2 ⟨hrange.sec_nonneg, hrange.sec_lt⟩, rfl⟩

theorem exists_parse_iff : (∃ t, parse s = .ok t) ↔ Lenient s := by
  refine ⟨?_, ?_⟩
  · rintro ⟨t, h⟩
    obtain ⟨hlen, M, D, H, m, S, hsep, hrange, -⟩ := parse_eq_ok.1 h
    exact ⟨hlen, M, D, H, m, S, hsep, hrange⟩
  · rintro ⟨hlen, M, D, H, m, S, hsep, hrange⟩
    exact ⟨_, parse_eq_ok.2 ⟨hlen, M, D, H, m, S, hsep, hrange, rfl⟩⟩

theorem int_take_ne_range {n : Nat} (hn : n ≤ 9) : int (p.take n) ≠ .error .range := by
  rw [int_take hn]
  exact nofun

/-- No `atoi` of the constructor has more than nine characters to read. -/
theorem parse_ne_range : parse s ≠ .error .range := by
  unfold parse
  refine bind_ne_error check_ne_range fun _ hlen => bind_ne_error (int_take_ne_range (by decide)) fun _ _ => ?_
  refine bind_ne_error behind_ne_range fun M hM => bind_ne_error (int_take_ne_range (by decide)) fun month hmonth => ?_
  refine bind_ne_error check_ne_range fun _ hmonths => bind_ne_error behind_ne_range fun D hD => ?_
  refine bind_ne_error (int_take_ne_range (by decide)) fun _ _ => bind_ne_error check_ne_range fun _ _ => ?_
  refine bind_ne_error behind_ne_range fun H hH => bind_ne_error (int_take_ne_range (by decide)) fun _ _ => ?_
  refine bind_ne_error check_ne_range fun _ _ => bind_ne_error behind_ne_range fun m hm => ?_
  refine bind_ne_error (int_take_ne_range (by decide)) fun _ _ => bind_ne_error check_ne_range fun _ _ => ?_
  refine bind_ne_error behind_ne_range fun S hS => ?_
  rw [check_eq_ok] at hlen hmonths
  rw [behind_eq_ok] at hM hD hH hm hS
  rw [int_eq_number hmonth] at hmonths
  have hle := Separated.length_le ⟨hM, hD, hH, hm, hS⟩ hmonths.1
  rw [List.length_drop] at hle
  unfold strlen at hlen
  refine bind_ne_error ?_ fun _ _ => bind_ne_error check_ne_range fun _ _ => nofun
  rw [int_of_length (by omega)]
  exact nofun

/-- The constructor always comes to its end. -/
theorem ofText_returns (now : TimeInfo) (s : CStr) : Returns (ofText now s) := by
  unfold ofText
  cases h : parse s with
  | ok t => exact returns_ok
  | error e =>
    cases e with
    | update => exact returns_ok
    | range => exact absurd h parse_ne_range

/-! ## Texts of dates and times -/

theorem not_mem_zeroPadded {w n : Nat} (hc : isdigit c = false) : c ∉ zeroPadded w n := fun h => by
  rw [isdigit_zeroPadded c h] at hc
  cases hc

/-- A separator behind a number. -/
theorem behind_zeroPadded {w n : Nat} (hc : isdigit c = false) : Behind c (zeroPadded w n ++ c :: q) q :=
  ⟨zeroPadded w n, rfl, not_mem_zeroPadded hc⟩

theorem number_take_zeroPadded {i : Int} (h₀ : 0 ≤ i) (h : i < 100) : number ((zeroPadded 2 i.toNat ++ q).take 2) = i := by
  rw [List.take_left' (length_zeroPadded 2 _), number_zeroPadded (by omega), Int.toNat_of_nonneg h₀]

/-- The fields of a date and time. -/
def ofMoment (t : Calendar.Moment) : TimeInfo :=
  ⟨.ofInt 6 t.sec, .ofInt 6 t.min, .ofInt 5 t.hour, .ofInt 5 t.day, .ofInt 4 t.month, .ofInt 6 (t.year - 2000)⟩

theorem string_ofMoment {t : Calendar.Moment} (h₁ : 2000 ≤ t.year) (h₂ : t.year ≤ 2063) : (ofMoment t).string = t.text := by
  obtain ⟨hmonth, hmonth', hday, hday', hhour, hhour', hmin, hmin', hsec, hsec'⟩ := t.bounds
  have kept : ∀ {w : Nat} {i : Int}, 0 ≤ i → i < 2 ^ w → (BitVec.ofInt w i).toNat = i.toNat := fun h₀ h => by
    have := toNat_ofInt_of h₀ h
    omega
  have hyear : (BitVec.ofInt 6 (t.year - 2000)).toNat + 2000 = t.year.toNat := by
    rw [kept (by omega) (by omega)]
    omega
  unfold string ofMoment Calendar.Moment.text
  rw [hyear, kept (w := 4) (by omega) (by omega)]
  rw [kept (w := 5) (by omega) (by omega), kept (w := 5) hhour (by omega), kept hmin (by omega), kept hsec (by omega)]

/-- The text of a date and time is taken. -/
theorem parse_text {t : Calendar.Moment} (h₁ : 2000 ≤ t.year) (h₂ : t.year ≤ 2063) (hs : s.chars = t.text) :
    parse s = .ok (ofMoment t) := by
  obtain ⟨hmonth, hmonth', hday, hday', hhour, hhour', hmin, hmin', hsec, hsec'⟩ := t.bounds
  have hY : number (s.chars.take 4) = t.year := by
    rw [hs, Calendar.Moment.text, List.take_left' (length_zeroPadded 4 _), number_zeroPadded (by omega),
      Int.toNat_of_nonneg (by omega)]
  have hS : number (zeroPadded 2 t.sec.toNat) = t.sec := by
    rw [number_zeroPadded (by omega), Int.toNat_of_nonneg hsec]
  have hlen : s.strlen = 19 := by
    rw [strlen, hs]
    simp [Calendar.Moment.text]
  refine parse_eq_ok.2 ⟨hlen, zeroPadded 2 t.month.toNat ++ 45 :: _, zeroPadded 2 t.day.toNat ++ 32 :: _,
    zeroPadded 2 t.hour.toNat ++ 58 :: _, zeroPadded 2 t.min.toNat ++ 58 :: _, zeroPadded 2 t.sec.toNat,
    ⟨?_, behind_zeroPadded rfl, behind_zeroPadded rfl, behind_zeroPadded rfl, behind_zeroPadded rfl⟩,
    ⟨?_, ?_, ?_, ?_, ?_, ?_, ?_, ?_, ?_⟩, ?_⟩
  · rw [hs, Calendar.Moment.text, List.drop_left' (length_zeroPadded 4 _)]
    exact ⟨[], rfl, List.not_mem_nil⟩
  · rw [number_take_zeroPadded (by omega) (by omega)]
    omega
  · rw [number_take_zeroPadded (by omega) (by omega)]
    omega
  · rw [number_take_zeroPadded (by omega) (by omega), number_take_zeroPadded (by omega) (by omega), hY,
      GetMaxDay_eq h₁ (by omega) hmonth hmonth']
    exact t.day_le
  · rw [number_take_zeroPadded (by omega) (by omega)]
    exact hhour
  · rw [number_take_zeroPadded (by omega) (by omega)]
    omega
  · rw [number_take_zeroPadded (by omega) (by omega)]
    exact hmin
  · rw [number_take_zeroPadded (by omega) (by omega)]
    exact hmin'
  · rw [hS]
    exact hsec
  · rw [hS]
    exact hsec'
  · rw [ofMoment, ofPieces, hS, hY, number_take_zeroPadded (by omega) (by omega), number_take_zeroPadded (by omega) (by omega),
      number_take_zeroPadded (by omega) (by omega), number_take_zeroPadded (by omega) (by omega)]

/-- The constructor is right on the texts of dates and times, and where its own reading fails. -/
theorem meets_iff (s : CStr) : Meets s ↔ (Lenient s → IsText s) := by
  refine ⟨fun h hlenient => h.1.1 (exists_parse_iff.2 hlenient), fun h => ⟨⟨fun hparse => h (exists_parse_iff.1 hparse), ?_⟩, ?_⟩⟩
  · rintro ⟨m, h₁, h₂, hs⟩
    exact ⟨_, parse_text h₁ h₂ hs⟩
  · intro t hparse
    obtain ⟨m, h₁, h₂, hs⟩ := h (exists_parse_iff.1 ⟨t, hparse⟩)
    cases hparse.symm.trans (parse_text h₁ h₂ hs)
    rw [string_ofMoment h₁ h₂, hs]

/-- `2020-01-00 00:00:00` -/
def dayZero : CStr := ⟨[50, 48, 50, 48, 45, 48, 49, 45, 48, 48, 32, 48, 48, 58, 48, 48, 58, 48, 48], by decide⟩

theorem not_meets_dayZero : ¬Meets dayZero := fun h => by
  have hparse : parse dayZero = .ok ⟨0, 0, 0, 0, 1, 20⟩ := rfl
  obtain ⟨m, h₁, h₂, hs⟩ := h.1.1 ⟨_, hparse⟩
  have hfields := hparse.symm.trans (parse_text h₁ h₂ hs)
  have hday : (0 : BitVec 5) = .ofInt 5 m.day := congrArg TimeInfo.ti_day (Except.ok.inj hfields)
  obtain ⟨-, -, hpos, hle, -⟩ := m.bounds
  have hkept : ((BitVec.ofInt 5 m.day).toNat : Int) = m.day := toNat_ofInt_of (by omega) (by omega)
  rw [← hday] at hkept
  simp at hkept
  omega

end TimeInfo
