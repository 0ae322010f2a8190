import Pbz.Wkt.Timestamp

set_option autoImplicit false

/-! # The parts of a date-time

What the reader of timestamps does with the fields at their positions, with the day, the fraction and
the offset: a value that the part denotes, an error, or the step at which it leaves its integer type.
-/

namespace Pbz

namespace Wkt

namespace Timestamp

/-! ## Positions -/

/-- The fields have their lengths. -/
structure Front.Shaped (front : Front) : Prop where
  year : front.year.length = 4
  month : front.month.length = 2
  day : front.day.length = 2
  hour : front.hour.length = 2
  minute : front.minute.length = 2
  second : front.second.length = 2

/-- A numeral is as long as it is said to be. -/
def Measured (numeral : Nat → Bytes → Int → Prop) : Prop :=
  ∀ length text value, numeral length text value → text.length = length

theorem measured_numeral : Measured Numeral := fun _ _ _ h => h.length

theorem measured_looseNumeral : Measured LooseNumeral := fun _ _ _ h => h.length

section

variable {numeral : Nat → Bytes → Int → Prop} {front : Front} {fields : Fields}

theorem Front.Reads.shaped (hnumeral : Measured numeral) (h : front.Reads numeral fields) :
    front.Shaped where
  year := hnumeral _ _ _ h.year
  month := hnumeral _ _ _ h.month
  day := hnumeral _ _ _ h.day
  hour := hnumeral _ _ _ h.hour
  minute := hnumeral _ _ _ h.minute
  second := hnumeral _ _ _ h.second

end

theorem exists_of_length_two {text : Bytes} (h : text.length = 2) : ∃ a b, text = [a, b] :=
  List.length_eq_two.mp h

theorem exists_of_length_four {text : Bytes} (h : text.length = 4) :
    ∃ a b c d, text = [a, b, c, d] := by
  rcases text with _ | ⟨a, _ | ⟨b, _ | ⟨c, _ | ⟨d, _ | ⟨e, rest⟩⟩⟩⟩⟩
  · cases h
  · cases h
  · cases h
  · cases h
  · exact ⟨a, b, c, d, rfl⟩
  · simp at h

/-- Where the reader finds the fields and what separates them. -/
structure Positions (text : Bytes) (front : Front) (rest : Bytes) : Prop where
  length : text.length = 19 + rest.length
  separators : text[4]? = some 0x2d ∧ text[7]? = some 0x2d ∧ text[10]? = some 0x54
    ∧ text[13]? = some 0x3a ∧ text[16]? = some 0x3a
  year : slice text 0 4 = front.year
  month : slice text 5 7 = front.month
  day : slice text 8 10 = front.day
  hour : slice text 11 13 = front.hour
  minute : slice text 14 16 = front.minute
  second : slice text 17 19 = front.second
  rest : text.drop 19 = rest

theorem Front.Shaped.positions {front : Front} (h : front.Shaped) (rest : Bytes) :
    Positions (front.text rest) front rest := by
  obtain ⟨year, month, day, hour, minute, second⟩ := front
  obtain ⟨hyear, hmonth, hday, hhour, hminute, hsecond⟩ := h
  obtain ⟨a, b, c, d, rfl⟩ := exists_of_length_four hyear
  obtain ⟨e, f, rfl⟩ := exists_of_length_two hmonth
  obtain ⟨g, i, rfl⟩ := exists_of_length_two hday
  obtain ⟨j, k, rfl⟩ := exists_of_length_two hhour
  obtain ⟨l, m, rfl⟩ := exists_of_length_two hminute
  obtain ⟨n, o, rfl⟩ := exists_of_length_two hsecond
  refine ⟨?_, ⟨rfl, rfl, rfl, rfl, rfl⟩, rfl, rfl, rfl, rfl, rfl, rfl, rfl⟩
  simp only [Front.text, List.length_append, List.length_cons, List.length_nil]
  omega

/-- A text is split at a character. -/
theorem drop_split {text : Bytes} {start length : Nat} {c : UInt8}
    (h : text[start + length]? = some c) :
    text.drop start = slice text start (start + length) ++ c :: text.drop (start + length + 1) := by
  obtain ⟨hlt, rfl⟩ := List.getElem?_eq_some_iff.mp h
  rw [slice, Nat.add_sub_cancel_left, ← List.drop_eq_getElem_cons hlt, ← List.drop_drop,
    List.take_append_drop]

/-- A text with the separators in their positions is a date-time in front of its rest. -/
theorem exists_front {text : Bytes} (hlength : 20 ≤ text.length)
    (hyear : text[4]? = some 0x2d) (hmonth : text[7]? = some 0x2d) (hday : text[10]? = some 0x54)
    (hhour : text[13]? = some 0x3a) (hminute : text[16]? = some 0x3a) :
    ∃ (front : Front) (rest : Bytes), front.Shaped ∧ rest ≠ [] ∧ text = front.text rest := by
  have hslice {start stop : Nat} (hle : start ≤ stop) (hstop : stop ≤ 20) :
      (slice text start stop).length = stop - start := by
    rw [slice, List.length_take, List.length_drop]
    omega
  refine ⟨⟨slice text 0 4, slice text 5 7, slice text 8 10, slice text 11 13, slice text 14 16,
    slice text 17 19⟩, text.drop 19, ⟨?_, ?_, ?_, ?_, ?_, ?_⟩, ?_, ?_⟩
  · exact hslice (by decide) (by decide)
  · exact hslice (by decide) (by decide)
  · exact hslice (by decide) (by decide)
  · exact hslice (by decide) (by decide)
  · exact hslice (by decide) (by decide)
  · exact hslice (by decide) (by decide)
  · rw [← List.length_pos_iff, List.length_drop]
    omega
  · have hyearSplit := @drop_split text 0 4 _ hyear
    have hmonthSplit := @drop_split text 5 2 _ hmonth
    have hdaySplit := @drop_split text 8 2 _ hday
    have hhourSplit := @drop_split text 11 2 _ hhour
    have hminuteSplit := @drop_split text 14 2 _ hminute
    have hsecondSplit : text.drop 17 = slice text 17 19 ++ text.drop 19 := by
      have happend := List.take_append_drop 2 (text.drop 17)
      rw [List.drop_drop] at happend
      exact happend.symm
    unfold Front.text
    rw [← hsecondSplit, ← hminuteSplit, ← hhourSplit, ← hdaySplit, ← hmonthSplit, ← hyearSplit]
    rfl

/-! ## The fields -/

theorem contains_u8 {value : Int} : IntegerType.u8.Contains value ↔ 0 ≤ value ∧ value ≤ 255 :=
  Iff.rfl

theorem parseField_two {text : Bytes} {value : Int} (h : LooseNumeral 2 text value)
    (hlow : 0 ≤ value) : parseField .invalidTimestamp .u8 text = .ok value := by
  obtain ⟨-, hhigh⟩ := h.bounds
  exact (parseField_iff ⟨by decide, by decide⟩).mpr ⟨h.signed, contains_u8.mpr (by omega)⟩

theorem parseField_four {text : Bytes} {value : Int} (h : LooseNumeral 4 text value) :
    parseField .invalidTimestamp .i32 text = .ok value := by
  obtain ⟨hlow, hhigh⟩ := h.bounds
  have hcontains : IntegerType.i32.Contains value := by
    show -2 ^ 31 ≤ value ∧ value ≤ 2 ^ 31 - 1
    omega
  exact (parseField_iff ⟨by decide, by decide⟩).mpr ⟨h.signed, hcontains⟩

theorem parseField_outcome_two {text : Bytes} (hlength : text.length = 2) :
    (∃ value, parseField .invalidTimestamp .u8 text = .ok value ∧ LooseNumeral 2 text value
        ∧ 0 ≤ value)
      ∨ parseField .invalidTimestamp .u8 text = .error (.error .invalidTimestamp) := by
  rcases parseField_outcome .invalidTimestamp .u8 text with ⟨value, hvalue⟩ | herror
  · obtain ⟨hsigned, hcontains⟩ := (parseField_iff ⟨by decide, by decide⟩).mp hvalue
    exact .inl ⟨value, hvalue, ⟨hlength, hsigned⟩, (contains_u8.mp hcontains).1⟩
  · exact .inr herror

theorem parseField_outcome_four {text : Bytes} (hlength : text.length = 4) :
    (∃ value, parseField .invalidTimestamp .i32 text = .ok value ∧ LooseNumeral 4 text value)
      ∨ parseField .invalidTimestamp .i32 text = .error (.error .invalidTimestamp) := by
  rcases parseField_outcome .invalidTimestamp .i32 text with ⟨value, hvalue⟩ | herror
  · obtain ⟨hsigned, -⟩ := (parseField_iff ⟨by decide, by decide⟩).mp hvalue
    exact .inl ⟨value, hvalue, hlength, hsigned⟩
  · exact .inr herror

/-- The range check of the reader on fields that are not negative. -/
theorem rangeCheck {fields : Fields} :
    (decide (fields.month < 1) || decide (fields.month > 12) || decide (fields.hour > 23)
        || decide (fields.minute > 59) || decide (fields.second > 59)) = false
      ↔ (1 ≤ fields.month ∧ fields.month ≤ 12) ∧ fields.hour ≤ 23 ∧ fields.minute ≤ 59
        ∧ fields.second ≤ 59 := by
  simp only [Bool.or_eq_false_iff, decide_eq_false_iff_not]
  omega

section

variable {front : Front} {fields : Fields} {rest : Bytes}

/-- With the separators in place, the fields are read one after the other. -/
theorem parseFields_eq {text : Bytes} (h : Positions text front rest) (hrest : rest ≠ []) :
    parseFields text = do
      let year ← parseField .invalidTimestamp .i32 front.year
      let month ← parseField .invalidTimestamp .u8 front.month
      let day ← parseField .invalidTimestamp .u8 front.day
      let hour ← parseField .invalidTimestamp .u8 front.hour
      let minute ← parseField .invalidTimestamp .u8 front.minute
      let second ← parseField .invalidTimestamp .u8 front.second
      if month < 1 || month > 12 || hour > 23 || minute > 59 || second > 59 then
        .error (.error .invalidTimestamp)
      else return { year, month, day, hour, minute, second } := by
  obtain ⟨hyear, hmonth, hday, hhour, hminute⟩ := h.separators
  have hpos := List.length_pos_iff.mpr hrest
  have hlength : ¬ text.length < 20 := by
    rw [h.length]
    omega
  have hcheck : (decide (text.length < 20) || text[4]? != some 0x2d || text[7]? != some 0x2d
      || text[10]? != some 0x54 || text[13]? != some 0x3a || text[16]? != some 0x3a) = false := by
    rw [decide_eq_false hlength, hyear, hmonth, hday, hhour, hminute]
    rfl
  rw [parseFields, hcheck, h.year, h.month, h.day, h.hour, h.minute, h.second]
  rfl

theorem parseFields_reads (h : front.Reads LooseNumeral fields) (hrest : rest ≠ []) :
    parseFields (front.text rest) = .ok fields := by
  have hcheck := rangeCheck.mpr ⟨h.monthRange, h.hourRange.2, h.minuteRange.2, h.secondRange.2⟩
  rw [parseFields_eq ((h.shaped measured_looseNumeral).positions rest) hrest,
    parseField_four h.year, parseField_two h.month (by have := h.monthRange; omega),
    parseField_two h.day h.dayRange, parseField_two h.hour h.hourRange.1,
    parseField_two h.minute h.minuteRange.1, parseField_two h.second h.secondRange.1]
  simp only [Bind.bind, Except.bind, hcheck]
  rfl

end

theorem parseFields_outcome (text : Bytes) :
    (∃ (front : Front) (fields : Fields) (rest : Bytes), front.Reads LooseNumeral fields ∧ rest ≠ []
        ∧ text = front.text rest)
      ∨ parseFields text = .error (.error .invalidTimestamp) := by
  by_cases hcheck : (decide (text.length < 20) || text[4]? != some 0x2d || text[7]? != some 0x2d
      || text[10]? != some 0x54 || text[13]? != some 0x3a || text[16]? != some 0x3a) = true
  · exact .inr (by rw [parseFields, if_pos hcheck])
  · simp only [Bool.or_eq_true, decide_eq_true_eq, bne_iff_ne, not_or, not_not, Nat.not_lt]
      at hcheck
    obtain ⟨⟨⟨⟨⟨hlength, hyear⟩, hmonth⟩, hday⟩, hhour⟩, hminute⟩ := hcheck
    obtain ⟨front, rest, hshaped, hrest, rfl⟩ :=
      exists_front hlength hyear hmonth hday hhour hminute
    rw [parseFields_eq (hshaped.positions rest) hrest]
    rcases parseField_outcome_four hshaped.year with ⟨year, hyearValue, hyearRead⟩ | herror
    swap
    · exact .inr (by rw [herror]; rfl)
    rcases parseField_outcome_two hshaped.month with ⟨month, hmonthValue, hmonthRead, -⟩ | herror
    swap
    · exact .inr (by rw [hyearValue, herror]; rfl)
    rcases parseField_outcome_two hshaped.day with ⟨day, hdayValue, hdayRead, hdayLow⟩ | herror
    swap
    · exact .inr (by rw [hyearValue, hmonthValue, herror]; rfl)
    rcases parseField_outcome_two hshaped.hour with ⟨hour, hhourValue, hhourRead, hhourLow⟩ | herror
    swap
    · exact .inr (by rw [hyearValue, hmonthValue, hdayValue, herror]; rfl)
    rcases parseField_outcome_two hshaped.minute with
      ⟨minute, hminuteValue, hminuteRead, hminuteLow⟩ | herror
    swap
    · exact .inr (by rw [hyearValue, hmonthValue, hdayValue, hhourValue, herror]; rfl)
    rcases parseField_outcome_two hshaped.second with
      ⟨second, hsecondValue, hsecondRead, hsecondLow⟩ | herror
    swap
    · exact .inr (by rw [hyearValue, hmonthValue, hdayValue, hhourValue, hminuteValue, herror]; rfl)
    have hrange := @rangeCheck { year, month, day, hour, minute, second }
    dsimp only at hrange
    rw [hyearValue, hmonthValue, hdayValue, hhourValue, hminuteValue, hsecondValue]
    by_cases hok : (1 ≤ month ∧ month ≤ 12) ∧ hour ≤ 23 ∧ minute ≤ 59 ∧ second ≤ 59
    · exact .inl ⟨front, { year, month, day, hour, minute, second }, rest,
        { year := hyearRead, month := hmonthRead, day := hdayRead, hour := hhourRead,
          minute := hminuteRead, second := hsecondRead, monthRange := hok.1, dayRange := hdayLow,
          hourRange := ⟨hhourLow, hok.2.1⟩, minuteRange := ⟨hminuteLow, hok.2.2.1⟩,
          secondRange := ⟨hsecondLow, hok.2.2.2⟩ }, hrest, rfl⟩
    · refine .inr ?_
      have hbad := Bool.eq_true_of_not_eq_false (mt hrange.mp hok)
      simp only [Bind.bind, Except.bind, hbad]
      rfl

/-! ## The day -/

/-- The fields are those of four and two characters. -/
structure Fields.Bounded (fields : Fields) : Prop where
  year : -10 ^ 4 < fields.year ∧ fields.year < 10 ^ 4
  month : 1 ≤ fields.month ∧ fields.month ≤ 12
  day : 0 ≤ fields.day ∧ fields.day < 10 ^ 2
  hour : 0 ≤ fields.hour ∧ fields.hour ≤ 23
  minute : 0 ≤ fields.minute ∧ fields.minute ≤ 59
  second : 0 ≤ fields.second ∧ fields.second ≤ 59

theorem Front.Reads.bounded {front : Front} {fields : Fields}
    (h : front.Reads LooseNumeral fields) : fields.Bounded where
  year := h.year.bounds
  month := h.monthRange
  day := ⟨h.dayRange, h.day.bounds.2⟩
  hour := h.hourRange
  minute := h.minuteRange
  second := h.secondRange

section

variable {fields : Fields}

/-- The number of a day of the year 9999 at most. -/
theorem Fields.Bounded.dayNumber_range (h : fields.Bounded) :
    -5000000 ≤ dayNumber fields.date ∧ dayNumber fields.date ≤ 5000000 := by
  obtain ⟨⟨hyearLow, hyearHigh⟩, hmonth, ⟨hdayLow, hdayHigh⟩, -⟩ := h
  obtain ⟨era, yoe, mp, hyoe, hmp, hdate⟩ := @exists_fromMarch fields.date hmonth
  have hyear : fields.year = yoe + era * 400 + if monthOf mp ≤ 2 then 1 else 0 :=
    congrArg Date.year hdate
  have hstart : 0 ≤ startOf yoe ∧ startOf yoe ≤ 146097 := by
    unfold startOf
    omega
  have hera : -30 ≤ era ∧ era ≤ 30 := by split at hyear <;> omega
  have hday : fields.date.day = fields.day := rfl
  rw [hdate, dayNumber_fromMarch era yoe hyoe hmp.1 hmp.2, hday]
  omega

theorem parseDays_zeroMarch (h : fields.Bounded) (hzero : fields.month = 3 ∧ fields.day = 0) :
    parseDays fields = .error .overflow := by
  obtain ⟨hyear, hmonth, hday, -⟩ := h
  have hdays := @daysFromCivil_eq fields.year fields.month fields.day (by omega) hmonth (by omega)
  rw [if_pos hzero] at hdays
  rw [parseDays, hdays]
  rfl

theorem parseDays_eq (h : fields.Bounded) (hzero : ¬ (fields.month = 3 ∧ fields.day = 0)) :
    (fields.date.Valid ∧ parseDays fields = .ok (dayNumber fields.date))
      ∨ (¬ fields.date.Valid ∧ parseDays fields = .error (.error .invalidTimestamp)) := by
  obtain ⟨hlow, hhigh⟩ := h.dayNumber_range
  obtain ⟨hyear, hmonth, hday, -⟩ := h
  have hdays : daysFromCivil fields.year fields.month fields.day
      = .ok (dayNumber fields.date) :=
    (daysFromCivil_eq (by omega) hmonth (by omega)).trans (if_neg hzero)
  have hback : civilFromDays (dayNumber fields.date) = .ok (civil (dayNumber fields.date)) :=
    civilFromDays_eq ⟨by omega, by omega⟩
  have hcheck : ((civil (dayNumber fields.date)).year != fields.year
      || (civil (dayNumber fields.date)).month != fields.month
      || (civil (dayNumber fields.date)).day != fields.day) = true
        ↔ civil (dayNumber fields.date) ≠ fields.date := by
    simp only [Bool.or_eq_true, bne_iff_ne, ne_eq, Fields.date, Date.ext_iff]
    tauto
  by_cases hvalid : fields.date.Valid
  · refine .inl ⟨hvalid, ?_⟩
    have hsame := mt hcheck.mp (not_not.mpr (civil_dayNumber hvalid))
    simp only [parseDays, hdays, hback, Bind.bind, Except.bind, if_neg hsame]
    rfl
  · refine .inr ⟨hvalid, ?_⟩
    have hother : civil (dayNumber fields.date) ≠ fields.date :=
      fun heq => hvalid (heq ▸ civil_valid _)
    simp only [parseDays, hdays, hback, Bind.bind, Except.bind, if_pos (hcheck.mpr hother)]

end

/-! ## Fractions and offsets -/

/-- A fraction in front of a text that begins with no digit. -/
theorem parseFraction_reads {fraction : Option Bytes} {nanos : Int} (h : ReadsFraction fraction nanos)
    {rest : Bytes} (hrest : ∀ c ∈ rest.head?, isDigit c = false ∧ c ≠ 0x2e) :
    parseFraction (fractionText fraction ++ rest) = .ok (nanos, rest) := by
  cases h with
  | none =>
      have hpoint : ¬ (rest.head? == some 0x2e) = true := by
        intro heq
        exact (hrest 0x2e (beq_iff_eq.mp heq)).2 rfl
      show parseFraction rest = _
      rw [parseFraction, if_neg hpoint]
      rfl
  | @some digits nanos h =>
      have htake : (digits ++ rest).takeWhile isDigit = digits := by
        rw [List.takeWhile_append_of_pos (fun c hc => (isDigit_iff c).mpr (h.all c hc))]
        have hnone : rest.takeWhile isDigit = [] := by
          cases rest with
          | nil => rfl
          | cons c more => exact List.takeWhile_cons_of_neg (by simp [(hrest c rfl).1])
        rw [hnone, List.append_nil]
      have hpos := List.length_pos_iff.mpr h.nonempty
      have hcheck : (digits.length == 0 || decide (digits.length > 9)) = false := by
        rw [Bool.or_eq_false_iff, beq_eq_false_iff_ne, decide_eq_false_iff_not]
        exact ⟨by omega, Nat.not_lt.mpr h.within⟩
      have hnanos := fractionNanos_digits h.all h.within
      rw [← h.value] at hnanos
      show parseFraction (0x2e :: (digits ++ rest)) = _
      have hdrop : (0x2e :: (digits ++ rest)).drop (1 + digits.length) = rest := by
        rw [Nat.add_comm, List.drop_succ_cons, List.drop_left]
      simp only [parseFraction, List.head?_cons, beq_self_eq_true, if_true, List.drop_succ_cons,
        List.drop_zero, htake, hcheck, hnanos, Bind.bind, Except.bind]
      rw [hdrop]
      rfl

/-- The fraction is followed by no digit. -/
theorem parseFraction_outcome (text : Bytes) :
    (∃ fraction nanos rest, ReadsFraction fraction nanos ∧ text = fractionText fraction ++ rest
        ∧ parseFraction text = .ok (nanos, rest))
      ∨ parseFraction text = .error (.error .invalidTimestamp) := by
  by_cases hpoint : (text.head? == some 0x2e) = true
  · obtain ⟨more, rfl⟩ : ∃ more, text = 0x2e :: more := by
      cases text with
      | nil => cases hpoint
      | cons c more => exact ⟨more, congrArg (· :: more) (Option.some.inj (beq_iff_eq.mp hpoint))⟩
    have hsplit := List.takeWhile_append_dropWhile (p := isDigit) (l := more)
    obtain ⟨digits, hdigits⟩ : ∃ digits, digits = more.takeWhile isDigit := ⟨_, rfl⟩
    rw [← hdigits] at hsplit
    have hall : ∀ c ∈ digits, IsDigitOf 10 c := fun c hc =>
      (isDigit_iff c).mp (List.mem_takeWhile_imp (hdigits ▸ hc))
    by_cases hcheck : (digits.length == 0 || decide (digits.length > 9)) = true
    · refine .inr ?_
      simp only [parseFraction, List.head?_cons, beq_self_eq_true, if_true, List.drop_succ_cons,
        List.drop_zero, ← hdigits, hcheck]
    · have hlength : digits.length ≠ 0 ∧ digits.length ≤ 9 := by
        simpa using hcheck
      have hnanos := fractionNanos_digits hall hlength.2
      have hdrop : (0x2e :: more).drop (1 + digits.length) = more.dropWhile isDigit := by
        rw [Nat.add_comm, List.drop_succ_cons, ← hsplit, List.drop_left]
        rw [hsplit]
      refine .inl ⟨some digits, fractionValue digits, more.dropWhile isDigit,
        .some ⟨List.length_pos_iff.mp (Nat.pos_of_ne_zero hlength.1), hlength.2, hall, rfl⟩,
        congrArg (0x2e :: ·) hsplit.symm, ?_⟩
      simp only [parseFraction, List.head?_cons, beq_self_eq_true, if_true, List.drop_succ_cons,
        List.drop_zero, ← hdigits, if_neg hcheck, hnanos, Bind.bind, Except.bind]
      rw [hdrop]
      rfl
  · exact .inl ⟨none, 0, text, .none, rfl, by rw [parseFraction, if_neg hpoint]; rfl⟩

/-- The sign of an offset. -/
def offsetSign (c : UInt8) : Int := if c = 0x2b then 1 else -1

/-- The seconds that are computed for an offset. -/
theorem offsetSeconds (c : UInt8) {hour minute : Int} (hhour : 0 ≤ hour ∧ hour ≤ 23)
    (hminute : 0 ≤ minute ∧ minute ≤ 59) :
    fit .i64 (hour * 3600) = .ok (hour * 3600) ∧ fit .i64 (minute * 60) = .ok (minute * 60)
      ∧ fit .i64 (hour * 3600 + minute * 60) = .ok (hour * 3600 + minute * 60)
      ∧ fit .i64 (offsetSign c * (hour * 3600 + minute * 60))
        = .ok (offsetSign c * (hour * 3600 + minute * 60)) := by
  refine ⟨fit_i64 (by omega), fit_i64 (by omega), fit_i64 (by omega), fit_i64 ?_⟩
  unfold offsetSign
  split <;> omega

/-- Hours and minutes of an offset in their positions. -/
theorem parseOffset_numeric {sign : UInt8} (hsign : sign = 0x2b ∨ sign = 0x2d) {a b x c d : UInt8}
    (rest : Bytes) :
    parseOffset (sign :: a :: b :: x :: c :: d :: rest) = do
      let offsetHour ← parseField .invalidTimestamp .u8 [a, b]
      if x != 0x3a then .error (.error .invalidTimestamp)
      else do
        let offsetMinute ← parseField .invalidTimestamp .u8 [c, d]
        if offsetHour > 23 || offsetMinute > 59 then .error (.error .invalidTimestamp)
        else do
          let hours ← fit .i64 (offsetHour * 3600)
          let minutes ← fit .i64 (offsetMinute * 60)
          let sum ← fit .i64 (hours + minutes)
          let offset ← fit .i64 (offsetSign sign * sum)
          return (offset, rest) := by
  rcases hsign with rfl | rfl
  · rfl
  · rfl

theorem parseOffset_reads {offset : Offset} {seconds : Int} (h : offset.Reads LooseNumeral seconds)
    (rest : Bytes) : parseOffset (offset.text ++ rest) = .ok (seconds, rest) := by
  have hnumeric {sign : UInt8} (hsign : sign = 0x2b ∨ sign = 0x2d) {hourText minuteText : Bytes}
      {hour minute : Int} (hhour : LooseNumeral 2 hourText hour)
      (hminute : LooseNumeral 2 minuteText minute) (hhourRange : 0 ≤ hour ∧ hour ≤ 23)
      (hminuteRange : 0 ≤ minute ∧ minute ≤ 59) :
      parseOffset ((Offset.numeric sign hourText minuteText).text ++ rest)
        = .ok (offsetSign sign * (hour * 3600 + minute * 60), rest) := by
    have hhourValue := parseField_two hhour hhourRange.1
    have hminuteValue := parseField_two hminute hminuteRange.1
    obtain ⟨a, b, rfl⟩ := exists_of_length_two hhour.length
    obtain ⟨c, d, rfl⟩ := exists_of_length_two hminute.length
    obtain ⟨hhours, hminutes, hsum, hproduct⟩ := offsetSeconds sign hhourRange hminuteRange
    have hcheck : (decide (hour > 23) || decide (minute > 59)) = false := by
      rw [decide_eq_false (by omega), decide_eq_false (by omega)]
      rfl
    refine (parseOffset_numeric hsign rest).trans ?_
    simp only [hhourValue, hminuteValue, hcheck, hhours, hminutes, hsum, hproduct, Bind.bind,
      Except.bind]
    rfl
  cases h with
  | utc => rfl
  | @plus hourText minuteText hour minute hhour hminute hhourRange hminuteRange =>
      rw [hnumeric (.inl rfl) hhour hminute hhourRange hminuteRange]
      show Except.ok (1 * _, rest) = _
      rw [Int.one_mul]
  | @minus hourText minuteText hour minute hhour hminute hhourRange hminuteRange =>
      rw [hnumeric (.inr rfl) hhour hminute hhourRange hminuteRange]
      show Except.ok (-1 * _, rest) = _
      rw [Int.neg_one_mul]

theorem parseOffset_outcome (text : Bytes) :
    (∃ (offset : Offset) (seconds : Int) (rest : Bytes), offset.Reads LooseNumeral seconds
        ∧ text = offset.text ++ rest)
      ∨ parseOffset text = .error (.error .invalidTimestamp) := by
  by_cases hutc : (text.head? == some 0x5a) = true
  · cases text with
    | nil => cases hutc
    | cons c rest =>
        have hc : c = 0x5a := Option.some.inj (beq_iff_eq.mp hutc)
        exact .inl ⟨.utc, 0, rest, .utc, by rw [hc]; rfl⟩
  by_cases hnumeric : (decide (6 ≤ text.length)
      && (text.head? == some 0x2b || text.head? == some 0x2d)) = true
  swap
  · exact .inr (by rw [parseOffset, if_neg hutc, if_neg hnumeric])
  rcases text with _ | ⟨sign, _ | ⟨a, _ | ⟨b, _ | ⟨x, _ | ⟨c, _ | ⟨d, rest⟩⟩⟩⟩⟩⟩
  · cases hnumeric
  · simp at hnumeric
  · simp at hnumeric
  · simp at hnumeric
  · simp at hnumeric
  · simp at hnumeric
  have hsign : sign = 0x2b ∨ sign = 0x2d := by
    have hhead := (Bool.and_eq_true _ _ ▸ hnumeric).2
    simpa using hhead
  rw [parseOffset_numeric hsign]
  rcases @parseField_outcome_two [a, b] rfl with ⟨hour, hhourValue, hhourRead, hhourLow⟩ | herror
  swap
  · exact .inr (by rw [herror]; rfl)
  by_cases hcolon : x = 0x3a
  swap
  · refine .inr ?_
    simp only [hhourValue, Bind.bind, Except.bind, if_pos (bne_iff_ne.mpr hcolon)]
  rcases @parseField_outcome_two [c, d] rfl with
    ⟨minute, hminuteValue, hminuteRead, hminuteLow⟩ | herror
  swap
  · refine .inr ?_
    rw [hcolon]
    simp only [hhourValue, herror, Bind.bind, Except.bind]
    rfl
  by_cases hrange : hour ≤ 23 ∧ minute ≤ 59
  · rw [hcolon]
    rcases hsign with rfl | rfl
    · exact .inl ⟨.numeric 0x2b [a, b] [c, d], _, rest,
        .plus hhourRead hminuteRead ⟨hhourLow, hrange.1⟩ ⟨hminuteLow, hrange.2⟩, rfl⟩
    · exact .inl ⟨.numeric 0x2d [a, b] [c, d], _, rest,
        .minus hhourRead hminuteRead ⟨hhourLow, hrange.1⟩ ⟨hminuteLow, hrange.2⟩, rfl⟩
  · refine .inr ?_
    have hcheck : (decide (hour > 23) || decide (minute > 59)) = true := by
      rw [Bool.or_eq_true, decide_eq_true_eq, decide_eq_true_eq]
      omega
    rw [hcolon]
    simp only [hhourValue, hminuteValue, hcheck, Bind.bind, Except.bind]
    rfl

theorem Offset.Reads.bounds {offset : Offset} {seconds : Int}
    (h : offset.Reads LooseNumeral seconds) : -86400 < seconds ∧ seconds < 86400 := by
  cases h <;> omega

/-! ## The instant -/

theorem instantSeconds_eq {fields : Fields} (h : fields.Bounded) {offset : Int}
    (hoffset : -86400 < offset ∧ offset < 86400) (nanos : Int) :
    instantSeconds (dayNumber fields.date) fields offset
      = .ok (Values.mk fields nanos offset).instant.seconds := by
  obtain ⟨hlow, hhigh⟩ := h.dayNumber_range
  obtain ⟨-, -, -, hhour, hminute, hsecond⟩ := h
  have hday := @fit_i64 (dayNumber fields.date * 86400) (by omega)
  have hhours := @fit_i64 (fields.hour * 3600) (by omega)
  have hfirst := @fit_i64 (dayNumber fields.date * 86400 + fields.hour * 3600) (by omega)
  have hminutes := @fit_i64 (fields.minute * 60) (by omega)
  have hsum := @fit_i64
    (dayNumber fields.date * 86400 + fields.hour * 3600 + fields.minute * 60) (by omega)
  have hthird := @fit_i64
    (dayNumber fields.date * 86400 + fields.hour * 3600 + fields.minute * 60 + fields.second)
    (by omega)
  have hlast := @fit_i64 (Values.mk fields nanos offset).instant.seconds (by
    unfold Values.instant
    dsimp only
    omega)
  simp only [instantSeconds, hday, hhours, hfirst, hminutes, hsum, hthird, Bind.bind, Except.bind]
  exact hlast

theorem validate_eq {self : Timestamp} (hnanos : 0 ≤ self.nanos ∧ self.nanos ≤ 999999999) :
    (InRange self.seconds ∧ self.validate = .ok ())
      ∨ (¬ InRange self.seconds ∧ self.validate = .error (.error .timestampOutOfRange)) := by
  have hnanosCheck : (decide (self.nanos < 0) || decide (self.nanos > 999999999)) = false := by
    rw [decide_eq_false (by omega), decide_eq_false (by omega)]
    rfl
  by_cases hrange : InRange self.seconds
  · refine .inl ⟨hrange, ?_⟩
    obtain ⟨hlow, hhigh⟩ := inRange_iff.mp hrange
    have hcheck : (decide (self.seconds < -62135596800) || decide (self.seconds > 253402300799))
        = false := by
      rw [decide_eq_false (by omega), decide_eq_false (by omega)]
      rfl
    simp only [validate, hcheck, hnanosCheck]
    rfl
  · refine .inr ⟨hrange, ?_⟩
    have hout := mt inRange_iff.mpr hrange
    have hcheck : (decide (self.seconds < -62135596800) || decide (self.seconds > 253402300799))
        = true := by
      rw [Bool.or_eq_true, decide_eq_true_eq, decide_eq_true_eq]
      omega
    simp only [validate, hcheck]
    rfl

end Timestamp

end Wkt

end Pbz
