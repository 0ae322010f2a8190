import Pbz.Wkt.Decimals

set_option autoImplicit false

/-! # The civil calendar

`civilFromDays` and `daysFromCivil` count days from the first of March of a year that is divisible
by 400, so that the leap day is the last of its year. Every step is checked against the integer type
that the source takes it in; on the days that dates of four digits stand for, all of them fit.
-/

namespace Pbz

def IntegerType.u8 : IntegerType := ⟨0, 2 ^ 8 - 1⟩

namespace Wkt

@[ext] structure Date where
  year : Int
  month : Int
  day : Int
  deriving DecidableEq, Repr

/-! ## The functions -/

/-- `(doe - doe / 1460 + doe / 36524 - doe / 146096) / 365`. -/
def yearOfEra (doe : Int) : Except WktStop Int := do
  let years ← fit .u32 (doe - doe / 1460)
  let years ← fit .u32 (years + doe / 36524)
  let years ← fit .u32 (years - doe / 146096)
  return years / 365

/-- `365 * yoe + yoe / 4 - yoe / 100`. -/
def yearStart (yoe : Int) : Except WktStop Int := do
  let days ← fit .u32 (365 * yoe)
  let days ← fit .u32 (days + yoe / 4)
  fit .u32 (days - yoe / 100)

/-- `(5 * doy + 2) / 153`. -/
def monthFromMarch (doy : Int) : Except WktStop Int := do
  let scaled ← fit .u32 (5 * doy)
  let scaled ← fit .u32 (scaled + 2)
  return scaled / 153

/-- `(153 * mp + 2) / 5` in the type. -/
def monthStart (type : IntegerType) (mp : Int) : Except WktStop Int := do
  let scaled ← fit type (153 * mp)
  let scaled ← fit type (scaled + 2)
  return scaled.tdiv 5

/-- `@divFloor` by a positive divisor is the division of `Int`. -/
def civilFromDays (zIn : Int) : Except WktStop Date := do
  let z ← fit .i64 (zIn + 719468)
  let era := z / 146097
  let eraStart ← fit .i64 (era * 146097)
  let doe ← fit .i64 (z - eraStart)
  let doe ← fit .u32 doe
  let yoe ← yearOfEra doe
  let y ← fit .i32 yoe
  let eraYears ← fit .i64 (era * 400)
  let eraYears ← fit .i32 eraYears
  let y ← fit .i32 (y + eraYears)
  let start ← yearStart yoe
  let doy ← fit .u32 (doe - start)
  let mp ← monthFromMarch doy
  let start ← monthStart .u32 mp
  let d ← fit .u32 (doy - start)
  let d ← fit .u32 (d + 1)
  let m ← fit .u32 (if mp < 10 then mp + 3 else mp - 9)
  let y ← fit .i32 (y + if m ≤ 2 then 1 else 0)
  let month ← fit .u8 m
  let day ← fit .u8 d
  return { year := y, month := month, day := day }

def daysFromCivil (year month day : Int) : Except WktStop Int := do
  let y ← fit .i32 (year - if month ≤ 2 then 1 else 0)
  let era := y / 400
  let eraYears ← fit .i32 (era * 400)
  let yoe ← fit .i32 (y - eraYears)
  let yoe ← fit .u32 yoe
  let mp ← fit .i32 (month + if month > 2 then -3 else 9)
  let start ← monthStart .i32 mp
  let doy ← fit .i32 (start + day)
  let doy ← fit .i32 (doy - 1)
  let doy ← fit .u32 doy
  let start ← yearStart yoe
  let doe ← fit .u32 (start + doy)
  let eraStart ← fit .i32 (era * 146097)
  let days ← fit .i64 (eraStart + doe)
  fit .i64 (days - 719468)

/-! ## The calendar -/

def IsLeap (year : Int) : Prop := year % 4 = 0 ∧ (year % 100 ≠ 0 ∨ year % 400 = 0)

instance (year : Int) : Decidable (IsLeap year) := inferInstanceAs (Decidable (_ ∧ _))

def daysInMonth (year month : Int) : Int :=
  if month = 2 then if IsLeap year then 29 else 28
  else if month = 4 ∨ month = 6 ∨ month = 9 ∨ month = 11 then 30
  else 31

structure Date.Valid (date : Date) : Prop where
  month : 1 ≤ date.month ∧ date.month ≤ 12
  day : 1 ≤ date.day ∧ date.day ≤ daysInMonth date.year date.month

/-- The days of the year in front of the month, where February has 28. -/
def daysBeforeMonth (month : Int) : Int :=
  [0, 31, 59, 90, 120, 151, 181, 212, 243, 273, 304, 334].getD (month - 1).toNat 0

/-- The days from the first of January 1970 to the date. -/
def dayNumber (date : Date) : Int :=
  let past := date.year - 1
  365 * past + past / 4 - past / 100 + past / 400
    + (daysBeforeMonth date.month + if 2 < date.month ∧ IsLeap date.year then 1 else 0)
    + date.day - 719163

/-! ## Years of an era -/

/-- The year of the era that the day is in. -/
def yearOf (doe : Int) : Int := (doe - doe / 1460 + doe / 36524 - doe / 146096) / 365

/-- The first day of the year of an era. -/
def startOf (yoe : Int) : Int := 365 * yoe + yoe / 4 - yoe / 100

/-- The first day behind the year; the last year of an era has a leap day of its own. -/
def endOf (yoe : Int) : Int := startOf (yoe + 1) + if yoe = 399 then 1 else 0

theorem startOf_le {yoe later : Int} (h : yoe ≤ later) : startOf yoe ≤ startOf later := by
  unfold startOf
  omega

theorem yearOf_bounds {doe : Int} (hlow : 0 ≤ doe) (hhigh : doe < 146097) :
    0 ≤ yearOf doe ∧ yearOf doe ≤ 399 := by
  unfold yearOf
  omega

theorem startOf_yearOf_le {doe : Int} (hlow : 0 ≤ doe) (hhigh : doe < 146097) :
    startOf (yearOf doe) ≤ doe := by
  obtain ⟨hzero, hlast⟩ := yearOf_bounds hlow hhigh
  have hyear : yearOf doe = (doe - doe / 1460 + doe / 36524 - doe / 146096) / 365 := rfl
  generalize yearOf doe = yoe at *
  unfold startOf
  have hcentury : yoe / 100 = 0 ∨ yoe / 100 = 1 ∨ yoe / 100 = 2 ∨ yoe / 100 = 3 := by omega
  rcases hcentury with h | h | h | h <;> omega

theorem lt_endOf_yearOf {doe : Int} (hlow : 0 ≤ doe) (hhigh : doe < 146097) :
    doe < endOf (yearOf doe) := by
  obtain ⟨hzero, hlast⟩ := yearOf_bounds hlow hhigh
  have hyear : yearOf doe = (doe - doe / 1460 + doe / 36524 - doe / 146096) / 365 := rfl
  generalize yearOf doe = yoe at *
  unfold endOf startOf
  -- the centuries of the day and of the year are what the correction of the division depends on
  have hcentury : (yoe + 1) / 100 = 0 ∨ (yoe + 1) / 100 = 1 ∨ (yoe + 1) / 100 = 2
      ∨ (yoe + 1) / 100 = 3 ∨ (yoe + 1) / 100 = 4 := by omega
  have hdays : doe / 36524 = 0 ∨ doe / 36524 = 1 ∨ doe / 36524 = 2 ∨ doe / 36524 = 3
      ∨ doe / 36524 = 4 := by omega
  rcases hcentury with h | h | h | h | h <;> rcases hdays with h' | h' | h' | h' | h' <;> split <;>
    omega

/-- The year of a day is the one that the day lies in. -/
theorem yearOf_eq {doe yoe : Int} (hlow : 0 ≤ yoe) (hhigh : yoe ≤ 399) (hstart : startOf yoe ≤ doe)
    (hend : doe < endOf yoe) : yearOf doe = yoe := by
  have hdoe : 0 ≤ doe ∧ doe < 146097 := by
    unfold endOf startOf at *
    split at hend <;> omega
  obtain ⟨hzero, hlast⟩ := yearOf_bounds hdoe.1 hdoe.2
  have hyearStart := startOf_yearOf_le hdoe.1 hdoe.2
  have hyearEnd := lt_endOf_yearOf hdoe.1 hdoe.2
  generalize yearOf doe = year at *
  unfold endOf at *
  rcases Int.lt_trichotomy year yoe with hlt | heq | hgt
  · have hmono := startOf_le (show year + 1 ≤ yoe by omega)
    rw [if_neg (by omega)] at hyearEnd
    omega
  · exact heq
  · have hmono := startOf_le (show yoe + 1 ≤ year by omega)
    rw [if_neg (by omega)] at hend
    omega

/-! ## Days and dates -/

/-- The length of a year from March on. -/
theorem endOf_sub_startOf (era : Int) {yoe : Int} (hlow : 0 ≤ yoe) (hhigh : yoe ≤ 399) :
    endOf yoe - startOf yoe = if IsLeap (yoe + era * 400 + 1) then 366 else 365 := by
  unfold endOf startOf IsLeap
  split_ifs <;> omega

/-- The number of the month that is so many behind March. -/
def monthOf (mp : Int) : Int := if mp < 10 then mp + 3 else mp - 9

theorem monthOf_cases {mp : Int} (hlow : 0 ≤ mp) (hhigh : mp ≤ 11) :
    mp = 0 ∨ mp = 1 ∨ mp = 2 ∨ mp = 3 ∨ mp = 4 ∨ mp = 5 ∨ mp = 6 ∨ mp = 7 ∨ mp = 8 ∨ mp = 9
      ∨ mp = 10 ∨ mp = 11 := by omega

/-- Months have the days of the calendar; February ends the year from March on. -/
theorem daysInMonth_monthOf {mp : Int} (hlow : 0 ≤ mp) (hhigh : mp ≤ 11) (year : Int) :
    daysInMonth year (monthOf mp)
      = if mp = 11 then if IsLeap year then 29 else 28
        else (153 * (mp + 1) + 2) / 5 - (153 * mp + 2) / 5 := by
  rcases monthOf_cases hlow hhigh with h | h | h | h | h | h | h | h | h | h | h | h <;> subst h <;>
    rfl

theorem daysBeforeMonth_monthOf {mp : Int} (hlow : 0 ≤ mp) (hhigh : mp ≤ 11) :
    daysBeforeMonth (monthOf mp) = (153 * mp + 2) / 5 + if mp < 10 then 59 else -306 := by
  rcases monthOf_cases hlow hhigh with h | h | h | h | h | h | h | h | h | h | h | h <;> subst h <;>
    rfl

/-- A date counted from March. -/
def fromMarch (era yoe mp day : Int) : Date where
  year := yoe + era * 400 + if monthOf mp ≤ 2 then 1 else 0
  month := monthOf mp
  day := day

theorem dayNumber_fromMarch (era yoe : Int) {mp : Int} (hyoe : 0 ≤ yoe ∧ yoe ≤ 399) (hlow : 0 ≤ mp)
    (hhigh : mp ≤ 11) (day : Int) :
    dayNumber (fromMarch era yoe mp day)
      = era * 146097 + startOf yoe + (153 * mp + 2) / 5 + day - 1 - 719468 := by
  unfold dayNumber fromMarch startOf
  dsimp only
  rw [daysBeforeMonth_monthOf hlow hhigh]
  by_cases hmp : mp < 10
  · have hmonth : monthOf mp = mp + 3 := if_pos hmp
    have hlate : ¬ monthOf mp ≤ 2 := by omega
    rw [if_neg hlate, if_pos hmp]
    by_cases hleap : IsLeap (yoe + era * 400 + 0)
    · rw [if_pos ⟨by omega, hleap⟩]
      unfold IsLeap at hleap
      omega
    · rw [if_neg (fun h => hleap h.2)]
      unfold IsLeap at hleap
      omega
  · have hmonth : monthOf mp = mp - 9 := if_neg hmp
    have hearly : monthOf mp ≤ 2 := by omega
    rw [if_pos hearly, if_neg hmp, if_neg (fun h => by omega)]
    omega

/-- The date of a day, without the checks. -/
def civil (zIn : Int) : Date :=
  let z := zIn + 719468
  let doe := z % 146097
  let doy := doe - startOf (yearOf doe)
  let mp := (5 * doy + 2) / 153
  fromMarch (z / 146097) (yearOf doe) mp (doy - (153 * mp + 2) / 5 + 1)

/-- A day of a year of an era. -/
structure YearDay (era yoe doy z : Int) : Prop where
  year : 0 ≤ yoe ∧ yoe ≤ 399
  low : 0 ≤ doy
  high : startOf yoe + doy < endOf yoe
  day : z = era * 146097 + startOf yoe + doy - 719468

theorem exists_yearDay (z : Int) : ∃ era yoe doy, YearDay era yoe doy z := by
  have hlow : 0 ≤ (z + 719468) % 146097 := by omega
  have hhigh : (z + 719468) % 146097 < 146097 := by omega
  have hstart := startOf_yearOf_le hlow hhigh
  have hend := lt_endOf_yearOf hlow hhigh
  exact ⟨(z + 719468) / 146097, yearOf ((z + 719468) % 146097),
    (z + 719468) % 146097 - startOf (yearOf ((z + 719468) % 146097)),
    yearOf_bounds hlow hhigh, by omega, by omega, by omega⟩

theorem YearDay.doy_le {era yoe doy z : Int} (h : YearDay era yoe doy z) :
    doy ≤ if IsLeap (yoe + era * 400 + 1) then 365 else 364 := by
  have hlength := endOf_sub_startOf era h.year.1 h.year.2
  have hhigh := h.high
  split_ifs at hlength ⊢ <;> omega

/-- The formulas give the month and the day of the month. -/
theorem YearDay.civil_eq {era yoe doy z : Int} (h : YearDay era yoe doy z) :
    civil z = fromMarch era yoe ((5 * doy + 2) / 153)
      (doy - (153 * ((5 * doy + 2) / 153) + 2) / 5 + 1) := by
  obtain ⟨⟨hyoe, hlast⟩, hlow, hhigh, rfl⟩ := h
  have hdoe : 0 ≤ startOf yoe + doy ∧ startOf yoe + doy < 146097 := by
    unfold endOf startOf at *
    split at hhigh <;> omega
  have hshift : era * 146097 + startOf yoe + doy - 719468 + 719468
      = era * 146097 + (startOf yoe + doy) := by omega
  have hera : (era * 146097 + (startOf yoe + doy)) / 146097 = era := by omega
  have hday : (era * 146097 + (startOf yoe + doy)) % 146097 = startOf yoe + doy := by omega
  have hyear : yearOf (startOf yoe + doy) = yoe := yearOf_eq hyoe hlast (by omega) hhigh
  have hdoy : startOf yoe + doy - startOf yoe = doy := by omega
  unfold civil
  simp only [hshift, hera, hday, hyear, hdoy]

theorem civil_valid (z : Int) : (civil z).Valid := by
  obtain ⟨era, yoe, doy, h⟩ := exists_yearDay z
  have hlow := h.low
  have hle := h.doy_le
  rw [h.civil_eq]
  obtain ⟨mp, hmp⟩ : ∃ mp, mp = (5 * doy + 2) / 153 := ⟨_, rfl⟩
  have hzero : 0 ≤ mp := by omega
  have hlast : mp ≤ 11 := by split at hle <;> omega
  rw [← hmp]
  refine ⟨?_, ?_⟩
  · show 1 ≤ monthOf mp ∧ monthOf mp ≤ 12
    unfold monthOf
    split <;> omega
  · show 1 ≤ doy - (153 * mp + 2) / 5 + 1
      ∧ doy - (153 * mp + 2) / 5 + 1
        ≤ daysInMonth (yoe + era * 400 + if monthOf mp ≤ 2 then 1 else 0) (monthOf mp)
    rw [daysInMonth_monthOf hzero hlast]
    refine ⟨by omega, ?_⟩
    by_cases hfebruary : mp = 11
    · have hmonth : monthOf mp ≤ 2 := by
        rw [hfebruary]
        decide
      rw [if_pos hfebruary, if_pos hmonth]
      split_ifs at hle ⊢ <;> omega
    · rw [if_neg hfebruary]
      omega

/-- The day of the date of a day. -/
theorem dayNumber_civil (z : Int) : dayNumber (civil z) = z := by
  obtain ⟨era, yoe, doy, h⟩ := exists_yearDay z
  have hlow := h.low
  have hle := h.doy_le
  have hlast : (5 * doy + 2) / 153 ≤ 11 := by split at hle <;> omega
  rw [h.civil_eq, dayNumber_fromMarch era yoe h.year (by omega) hlast, h.day]
  omega

theorem exists_fromMarch {date : Date} (h : 1 ≤ date.month ∧ date.month ≤ 12) :
    ∃ era yoe mp, (0 ≤ yoe ∧ yoe ≤ 399) ∧ (0 ≤ mp ∧ mp ≤ 11)
      ∧ date = fromMarch era yoe mp date.day := by
  obtain ⟨hfirst, hlast⟩ := h
  obtain ⟨year, month, day⟩ := date
  dsimp only at *
  by_cases hearly : month ≤ 2
  · refine ⟨(year - 1) / 400, (year - 1) % 400, month + 9, by omega, by omega, ?_⟩
    have hmonth : monthOf (month + 9) = month := by
      unfold monthOf
      split <;> omega
    rw [fromMarch, hmonth, if_pos hearly]
    congr 1
    omega
  · refine ⟨year / 400, year % 400, month - 3, by omega, by omega, ?_⟩
    have hmonth : monthOf (month - 3) = month := by
      unfold monthOf
      split <;> omega
    rw [fromMarch, hmonth, if_neg hearly]
    congr 1
    omega

/-- The date of the day of a date. -/
theorem civil_dayNumber {date : Date} (h : date.Valid) : civil (dayNumber date) = date := by
  obtain ⟨era, yoe, mp, hyoe, ⟨hlow, hhigh⟩, hdate⟩ := exists_fromMarch h.month
  obtain ⟨hfirst, hlast⟩ := h.day
  have hmonth : date.month = monthOf mp := congrArg Date.month hdate
  have hyear : date.year = yoe + era * 400 + if monthOf mp ≤ 2 then 1 else 0 :=
    congrArg Date.year hdate
  rw [hmonth, hyear, daysInMonth_monthOf hlow hhigh] at hlast
  have hlength := endOf_sub_startOf era hyoe.1 hyoe.2
  have hbound : (153 * mp + 2) / 5 + date.day - 1
      ≤ if IsLeap (yoe + era * 400 + 1) then 365 else 364 := by
    by_cases hfebruary : mp = 11
    · have hearly : monthOf mp ≤ 2 := by
        rw [hfebruary]
        decide
      rw [if_pos hfebruary, if_pos hearly] at hlast
      split_ifs at hlast ⊢ <;> omega
    · rw [if_neg hfebruary] at hlast
      split_ifs <;> omega
  have hday : YearDay era yoe ((153 * mp + 2) / 5 + date.day - 1) (dayNumber date) := by
    refine ⟨hyoe, by omega, ?_, ?_⟩
    · split_ifs at hlength hbound <;> omega
    · rw [hdate, dayNumber_fromMarch era yoe hyoe hlow hhigh]
      show _ = era * 146097 + startOf yoe + ((153 * mp + 2) / 5 + date.day - 1) - 719468
      omega
  have hmp : (5 * ((153 * mp + 2) / 5 + date.day - 1) + 2) / 153 = mp := by
    by_cases hfebruary : mp = 11
    · split_ifs at hbound <;> omega
    · rw [if_neg hfebruary] at hlast
      omega
  rw [hday.civil_eq, hmp]
  have hback : (153 * mp + 2) / 5 + date.day - 1 - (153 * mp + 2) / 5 + 1 = date.day := by omega
  rw [hback, ← hdate]

/-! ## The checks -/

theorem fit_u8 {value : Int} (h : 0 ≤ value ∧ value ≤ 2 ^ 8 - 1) : fit .u8 value = .ok value :=
  if_pos h

theorem yearOfEra_eq {doe : Int} (hlow : 0 ≤ doe) (hhigh : doe < 146097) :
    yearOfEra doe = .ok (yearOf doe) := by
  have hfirst := @fit_u32 (doe - doe / 1460) (by omega)
  have hsecond := @fit_u32 (doe - doe / 1460 + doe / 36524) (by omega)
  have hthird := @fit_u32 (doe - doe / 1460 + doe / 36524 - doe / 146096) (by omega)
  simp only [yearOfEra, hfirst, hsecond, hthird, Bind.bind, Except.bind]
  rfl

theorem yearStart_eq {yoe : Int} (hlow : 0 ≤ yoe) (hhigh : yoe ≤ 399) :
    yearStart yoe = .ok (startOf yoe) := by
  have hfirst := @fit_u32 (365 * yoe) (by omega)
  have hsecond := @fit_u32 (365 * yoe + yoe / 4) (by omega)
  have hthird := @fit_u32 (365 * yoe + yoe / 4 - yoe / 100) (by omega)
  simp only [yearStart, hfirst, hsecond, hthird, Bind.bind, Except.bind]
  rfl

theorem monthFromMarch_eq {doy : Int} (hlow : 0 ≤ doy) (hhigh : doy ≤ 365) :
    monthFromMarch doy = .ok ((5 * doy + 2) / 153) := by
  have hfirst := @fit_u32 (5 * doy) (by omega)
  have hsecond := @fit_u32 (5 * doy + 2) (by omega)
  simp only [monthFromMarch, hfirst, hsecond, Bind.bind, Except.bind]
  rfl

theorem monthStart_eq {type : IntegerType} (htype : type.low ≤ 0 ∧ 2000 ≤ type.high) {mp : Int}
    (hlow : 0 ≤ mp) (hhigh : mp ≤ 11) : monthStart type mp = .ok ((153 * mp + 2) / 5) := by
  have hfirst := @fit_eq type (153 * mp) (by omega) (by omega)
  have hsecond := @fit_eq type (153 * mp + 2) (by omega) (by omega)
  have hquotient : (153 * mp + 2).tdiv 5 = (153 * mp + 2) / 5 :=
    Int.tdiv_eq_ediv_of_nonneg (by omega)
  simp only [monthStart, hfirst, hsecond, hquotient, Bind.bind, Except.bind]
  rfl

/-- The days whose dates are computed within the types. -/
def DayInRange (z : Int) : Prop := -2 ^ 31 ≤ z ∧ z ≤ 2 ^ 31

theorem civilFromDays_eq {z : Int} (h : DayInRange z) : civilFromDays z = .ok (civil z) := by
  obtain ⟨hlow, hhigh⟩ := h
  obtain ⟨era, yoe, doy, hday⟩ := exists_yearDay z
  have hle := hday.doy_le
  have hdoy : 0 ≤ doy ∧ doy ≤ 365 := ⟨hday.low, by split at hle <;> omega⟩
  obtain ⟨mp, hmp⟩ : ∃ mp, mp = (5 * doy + 2) / 153 := ⟨_, rfl⟩
  have hmpRange : 0 ≤ mp ∧ mp ≤ 11 := by omega
  have hcivil := hday.civil_eq
  rw [← hmp] at hcivil
  obtain ⟨hyoe, -, hend, hz⟩ := hday
  have hdoe : 0 ≤ startOf yoe + doy ∧ startOf yoe + doy < 146097 := by
    unfold endOf startOf at *
    split at hend <;> omega
  have hera : (z + 719468) / 146097 = era := by omega
  have heraRange : -20000 ≤ era ∧ era ≤ 20000 := by omega
  have hyear : yearOf (startOf yoe + doy) = yoe := yearOf_eq hyoe.1 hyoe.2 (by omega) hend
  have hshift := @fit_i64 (z + 719468) (by omega)
  have heraStart := @fit_i64 (era * 146097) (by omega)
  have hoffset := @fit_i64 (startOf yoe + doy) (by omega)
  have hsame : z + 719468 - era * 146097 = startOf yoe + doy := by omega
  have hoffset32 := @fit_u32 (startOf yoe + doy) (by omega)
  have hyoe32 := @fit_i32 yoe (by omega)
  have heraYears := @fit_i64 (era * 400) (by omega)
  have heraYears32 := @fit_i32 (era * 400) (by omega)
  have hsum := @fit_i32 (yoe + era * 400) (by omega)
  have hdoySame : startOf yoe + doy - startOf yoe = doy := by omega
  have hdoy32 := @fit_u32 doy (by omega)
  have hstart := @monthStart_eq .u32 (by decide) mp hmpRange.1 hmpRange.2
  have hfirst := @fit_u32 (doy - (153 * mp + 2) / 5) (by omega)
  have hd := @fit_u32 (doy - (153 * mp + 2) / 5 + 1) (by omega)
  have hm := @fit_u32 (if mp < 10 then mp + 3 else mp - 9) (by split <;> omega)
  have hy := @fit_i32 (yoe + era * 400 + if monthOf mp ≤ 2 then 1 else 0) (by split <;> omega)
  have hmonth := @fit_u8 (monthOf mp) (by unfold monthOf; split <;> omega)
  have hdayOfMonth := @fit_u8 (doy - (153 * mp + 2) / 5 + 1) (by omega)
  have hmonthOf : (if mp < 10 then mp + 3 else mp - 9) = monthOf mp := rfl
  rw [hmonthOf] at hm
  simp only [civilFromDays, hshift, hera, heraStart, hoffset, hsame, hoffset32,
    yearOfEra_eq hdoe.1 hdoe.2, hyear, hyoe32, heraYears, heraYears32, hsum,
    yearStart_eq hyoe.1 hyoe.2, hdoySame, hdoy32, monthFromMarch_eq hdoy.1 hdoy.2, ← hmp, hstart,
    hfirst, hd, hmonthOf, hm, hy, hmonth, hdayOfMonth, Bind.bind, Except.bind]
  rw [hcivil]
  rfl

/-- Only the day in front of the first of March has no number in the year. -/
theorem daysFromCivil_fromMarch {era yoe mp day : Int} (hera : -10000 ≤ era ∧ era ≤ 10000)
    (hyoe : 0 ≤ yoe ∧ yoe ≤ 399) (hmp : 0 ≤ mp ∧ mp ≤ 11) (hday : 0 ≤ day ∧ day ≤ 255) :
    daysFromCivil (fromMarch era yoe mp day).year (fromMarch era yoe mp day).month day
      = if mp = 0 ∧ day = 0 then .error .overflow
        else .ok (dayNumber (fromMarch era yoe mp day)) := by
  have hyear : (fromMarch era yoe mp day).year - (if monthOf mp ≤ 2 then 1 else 0)
      = yoe + era * 400 := Int.add_sub_cancel _ _
  have hmonth : (fromMarch era yoe mp day).month = monthOf mp := rfl
  have hy := @fit_i32 (yoe + era * 400) (by omega)
  have hquotient : (yoe + era * 400) / 400 = era := by omega
  have heraYears := @fit_i32 (era * 400) (by omega)
  have hremainder : yoe + era * 400 - era * 400 = yoe := by omega
  have hyoe32 := @fit_i32 yoe (by omega)
  have hyoeUnsigned := @fit_u32 yoe (by omega)
  have hback : monthOf mp + (if monthOf mp > 2 then -3 else 9) = mp := by
    unfold monthOf
    split_ifs <;> omega
  have hmp32 := @fit_i32 mp (by omega)
  have hstart := @monthStart_eq .i32 (by decide) mp hmp.1 hmp.2
  have hsum := @fit_i32 ((153 * mp + 2) / 5 + day) (by omega)
  have hless := @fit_i32 ((153 * mp + 2) / 5 + day - 1) (by omega)
  rw [hmonth]
  by_cases hzero : mp = 0 ∧ day = 0
  · have hnegative : fit .u32 ((153 * mp + 2) / 5 + day - 1) = .error .overflow := by
      rw [hzero.1, hzero.2]
      rfl
    rw [if_pos hzero]
    simp only [daysFromCivil, hyear, hy, hquotient, heraYears, hremainder, hyoe32, hyoeUnsigned,
      hback, hmp32, hstart, hsum, hless, hnegative, Bind.bind, Except.bind]
  · have hdoy := @fit_u32 ((153 * mp + 2) / 5 + day - 1) (by omega)
    have hbound : 0 ≤ startOf yoe ∧ startOf yoe ≤ 146097 := by
      unfold startOf
      omega
    have hdoe := @fit_u32 (startOf yoe + ((153 * mp + 2) / 5 + day - 1)) (by omega)
    have heraStart := @fit_i32 (era * 146097) (by omega)
    have hdays := @fit_i64 (era * 146097 + (startOf yoe + ((153 * mp + 2) / 5 + day - 1))) (by omega)
    have hlast := @fit_i64 (era * 146097 + (startOf yoe + ((153 * mp + 2) / 5 + day - 1)) - 719468)
      (by omega)
    rw [if_neg hzero, dayNumber_fromMarch era yoe hyoe hmp.1 hmp.2]
    simp only [daysFromCivil, hyear, hy, hquotient, heraYears, hremainder, hyoe32, hyoeUnsigned,
      hback, hmp32, hstart, hsum, hless, hdoy, yearStart_eq hyoe.1 hyoe.2, hdoe, heraStart, hdays,
      hlast, Bind.bind, Except.bind]
    congr 1
    omega

theorem daysFromCivil_eq {year month day : Int} (hyear : -1000000 ≤ year ∧ year ≤ 1000000)
    (hmonth : 1 ≤ month ∧ month ≤ 12) (hday : 0 ≤ day ∧ day ≤ 255) :
    daysFromCivil year month day
      = if month = 3 ∧ day = 0 then .error .overflow
        else .ok (dayNumber { year := year, month := month, day := day }) := by
  obtain ⟨era, yoe, mp, hyoe, hmp, hdate⟩ :=
    @exists_fromMarch { year := year, month := month, day := day } hmonth
  have hyearEq : year = (fromMarch era yoe mp day).year := congrArg Date.year hdate
  have hmonthEq : month = (fromMarch era yoe mp day).month := congrArg Date.month hdate
  have hera : -10000 ≤ era ∧ era ≤ 10000 := by
    unfold fromMarch at hyearEq
    dsimp only at hyearEq
    split at hyearEq <;> omega
  have hmarch : month = 3 ↔ mp = 0 := by
    rw [hmonthEq]
    show monthOf mp = 3 ↔ mp = 0
    unfold monthOf
    split <;> omega
  have hrun := daysFromCivil_fromMarch hera hyoe hmp hday
  rw [← hyearEq, ← hmonthEq] at hrun
  rw [hrun, hdate]
  by_cases hzero : mp = 0 ∧ day = 0
  · rw [if_pos hzero, if_pos ⟨hmarch.mpr hzero.1, hzero.2⟩]
  · rw [if_neg hzero, if_neg (fun h => hzero ⟨hmarch.mp h.1, h.2⟩)]

/-! ## Years -/

/-- The first of January. -/
def newYear (year : Int) : Int := dayNumber { year := year, month := 1, day := 1 }

theorem newYear_eq (year : Int) :
    newYear year = 365 * (year - 1) + (year - 1) / 4 - (year - 1) / 100 + (year - 1) / 400 - 719162 := by
  have hfirst : daysBeforeMonth 1 = 0 := rfl
  have hearly : ¬ (2 < (1 : Int) ∧ IsLeap year) := fun h => absurd h.1 (by decide)
  rw [newYear, dayNumber]
  dsimp only
  rw [hfirst, if_neg hearly]
  omega

theorem newYear_le {year later : Int} (h : year ≤ later) : newYear year ≤ newYear later := by
  rw [newYear_eq, newYear_eq]
  omega

theorem newYear_succ (year : Int) :
    newYear (year + 1) = newYear year + 365 + if IsLeap year then 1 else 0 := by
  rw [newYear_eq, newYear_eq]
  by_cases hleap : IsLeap year
  · rw [if_pos hleap]
    unfold IsLeap at hleap
    omega
  · rw [if_neg hleap]
    unfold IsLeap at hleap
    omega

/-- The months lie within the year. -/
theorem month_within {month : Int} (h : 1 ≤ month ∧ month ≤ 12) (year : Int) :
    0 ≤ daysBeforeMonth month
      ∧ daysBeforeMonth month + (if 2 < month ∧ IsLeap year then 1 else 0) + daysInMonth year month
        ≤ 365 + if IsLeap year then 1 else 0 := by
  have hmonth : month = 1 ∨ month = 2 ∨ month = 3 ∨ month = 4 ∨ month = 5 ∨ month = 6 ∨ month = 7
      ∨ month = 8 ∨ month = 9 ∨ month = 10 ∨ month = 11 ∨ month = 12 := by omega
  by_cases hleap : IsLeap year
  · rcases hmonth with h | h | h | h | h | h | h | h | h | h | h | h <;> subst h <;>
      simp [daysBeforeMonth, daysInMonth, hleap]
  · rcases hmonth with h | h | h | h | h | h | h | h | h | h | h | h <;> subst h <;>
      simp [daysBeforeMonth, daysInMonth, hleap]

/-- A date lies in its year. -/
theorem Date.Valid.dayNumber_bounds {date : Date} (h : date.Valid) :
    newYear date.year ≤ dayNumber date ∧ dayNumber date < newYear (date.year + 1) := by
  obtain ⟨hmonth, hfirst, hlast⟩ := h
  obtain ⟨hbefore, hwithin⟩ := month_within hmonth date.year
  have hsplit : dayNumber date = newYear date.year + daysBeforeMonth date.month
      + (if 2 < date.month ∧ IsLeap date.year then 1 else 0) + date.day - 1 := by
    rw [newYear_eq, dayNumber]
    omega
  rw [newYear_succ, hsplit]
  split_ifs at hwithin ⊢ <;> omega

/-- A day from the first of January of the year 1 to the last of December of the year 9999. -/
def InYears (days : Int) : Prop := newYear 1 ≤ days ∧ days < newYear 10000

theorem inYears_iff {days : Int} : InYears days ↔ -719162 ≤ days ∧ days ≤ 2932896 := by
  have hfirst : newYear 1 = -719162 := by decide
  have hlast : newYear 10000 = 2932897 := by decide
  rw [InYears, hfirst, hlast]
  omega

theorem Date.Valid.inYears_iff {date : Date} (h : date.Valid) :
    InYears (dayNumber date) ↔ 1 ≤ date.year ∧ date.year ≤ 9999 := by
  obtain ⟨hstart, hend⟩ := h.dayNumber_bounds
  unfold InYears
  constructor
  · rintro ⟨hlow, hhigh⟩
    refine ⟨?_, ?_⟩
    · by_contra hearly
      have hle := newYear_le (show date.year + 1 ≤ 1 by omega)
      omega
    · by_contra hlate
      have hle := newYear_le (show 10000 ≤ date.year by omega)
      omega
  · rintro ⟨hlow, hhigh⟩
    have hfirst := newYear_le hlow
    have hlast := newYear_le (show date.year + 1 ≤ 10000 by omega)
    exact ⟨by omega, by omega⟩

/-- The date of a day of those years, and back. -/
theorem civilFromDays_daysFromCivil {days : Int} (h : InYears days) :
    ∃ date : Date, civilFromDays days = .ok date ∧ date.Valid ∧ 1 ≤ date.year ∧ date.year ≤ 9999
      ∧ daysFromCivil date.year date.month date.day = .ok days := by
  obtain ⟨hlow, hhigh⟩ := inYears_iff.mp h
  have hvalid := civil_valid days
  have hyears : 1 ≤ (civil days).year ∧ (civil days).year ≤ 9999 :=
    hvalid.inYears_iff.mp (by rwa [dayNumber_civil])
  have hmonthDays : daysInMonth (civil days).year (civil days).month ≤ 31 := by
    unfold daysInMonth
    split_ifs <;> decide
  obtain ⟨hfirst, hlast⟩ := hvalid.day
  have hback := @daysFromCivil_eq (civil days).year (civil days).month (civil days).day (by omega)
    hvalid.month (by omega)
  rw [if_neg (by omega)] at hback
  exact ⟨civil days, civilFromDays_eq ⟨by omega, by omega⟩, hvalid, hyears.1, hyears.2,
    hback.trans (congrArg Except.ok (dayNumber_civil days))⟩

/-- The day of a date of those years, and back. -/
theorem daysFromCivil_civilFromDays {date : Date} (h : date.Valid)
    (hyear : 1 ≤ date.year ∧ date.year ≤ 9999) :
    ∃ days, daysFromCivil date.year date.month date.day = .ok days ∧ InYears days
      ∧ civilFromDays days = .ok date := by
  have hrange := h.inYears_iff.mpr hyear
  obtain ⟨other, hother, -, -, -, hback⟩ := civilFromDays_daysFromCivil hrange
  obtain ⟨hlow, hhigh⟩ := inYears_iff.mp hrange
  have hcivil : civilFromDays (dayNumber date) = .ok (civil (dayNumber date)) :=
    civilFromDays_eq ⟨by omega, by omega⟩
  rw [civil_dayNumber h] at hcivil
  obtain rfl : other = date := Except.ok.inj (hother.symm.trans hcivil)
  exact ⟨dayNumber other, hback, hrange, hcivil⟩

end Wkt

end Pbz
