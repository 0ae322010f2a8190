import Pbz.Wkt.TimestampParts

set_option autoImplicit false

/-! # What is read as a timestamp

The reader takes date-times, and the numbers of theirs may have signs and underscores. What is printed
for a timestamp is a date-time of it.
-/

namespace Pbz

namespace Wkt

namespace Timestamp

/-! ## The payload -/

theorem Offset.text_head (offset : Offset) {seconds : Int}
    (h : offset.Reads LooseNumeral seconds) :
    ∀ c ∈ offset.text.head?, isDigit c = false ∧ c ≠ 0x2e := by
  cases h with
  | utc => exact fun c hc => by cases hc; decide
  | plus => exact fun c hc => by cases hc; decide
  | minus => exact fun c hc => by cases hc; decide

theorem Offset.text_ne_nil (offset : Offset) : offset.text ≠ [] := by
  cases offset <;> exact List.cons_ne_nil _ _

/-- A date-time is read, and its instant is checked. -/
theorem parsePayload_dateTime {parts : Parts} {values : Values}
    (h : DateTime LooseNumeral parts values) :
    parsePayload parts.text
      = (do
        values.instant.validate
        return values.instant) := by
  obtain ⟨hfront, hdate, hfraction, hoffset⟩ := h
  have hbounded := hfront.bounded
  have hrest : fractionText parts.fraction ++ parts.offset.text ≠ [] :=
    List.append_ne_nil_of_right_ne_nil _ parts.offset.text_ne_nil
  have hfields := parseFields_reads hfront hrest
  have hdrop := ((hfront.shaped measured_looseNumeral).positions
    (fractionText parts.fraction ++ parts.offset.text)).rest
  have hzero : ¬ (values.fields.month = 3 ∧ values.fields.day = 0) := by
    rintro ⟨-, hday⟩
    have hlow : 1 ≤ values.fields.day := hdate.day.1
    omega
  have hdays : parseDays values.fields = .ok (dayNumber values.fields.date) := by
    rcases parseDays_eq hbounded hzero with ⟨-, hdays⟩ | ⟨hinvalid, -⟩
    · exact hdays
    · exact absurd hdate hinvalid
  have hnanos := parseFraction_reads hfraction (parts.offset.text_head hoffset)
  have hseconds := parseOffset_reads hoffset []
  rw [List.append_nil] at hseconds
  have hinstant := instantSeconds_eq hbounded hoffset.bounds values.nanos
  rw [Parts.text]
  simp only [parsePayload, hfields, hdays, hdrop, hnanos, hseconds, hinstant, Bind.bind,
    Except.bind]
  rfl

/-- In front of anything, the fields of a third month and a day 0 stop the reader. -/
theorem parsePayload_zeroMarch {front : Front} {fields : Fields} {rest : Bytes}
    (h : front.Reads LooseNumeral fields) (hrest : rest ≠ [])
    (hzero : fields.month = 3 ∧ fields.day = 0) :
    parsePayload (front.text rest) = .error .overflow := by
  simp only [parsePayload, parseFields_reads h hrest, parseDays_zeroMarch h.bounded hzero, Bind.bind,
    Except.bind]

/-- A payload is a date-time in range, or an error is reported, unless its fields name the third
month and a day 0. -/
theorem parsePayload_outcome (text : Bytes) :
    (∃ (front : Front) (fields : Fields) (rest : Bytes), front.Reads LooseNumeral fields ∧ rest ≠ []
        ∧ text = front.text rest ∧ fields.month = 3 ∧ fields.day = 0)
      ∨ (∃ e, parsePayload text = .error (.error e))
      ∨ ∃ parts values, DateTime LooseNumeral parts values ∧ text = parts.text
        ∧ InRange values.instant.seconds ∧ parsePayload text = .ok values.instant := by
  rcases parseFields_outcome text with ⟨front, fields, rest, hfront, hrest, rfl⟩ | herror
  swap
  · exact .inr (.inl ⟨.invalidTimestamp, by rw [parsePayload, herror]; rfl⟩)
  by_cases hzero : fields.month = 3 ∧ fields.day = 0
  · exact .inl ⟨front, fields, rest, hfront, hrest, rfl, hzero⟩
  have hfields := parseFields_reads hfront hrest
  have hdrop := ((hfront.shaped measured_looseNumeral).positions rest).rest
  rcases parseDays_eq hfront.bounded hzero with ⟨hdate, hdays⟩ | ⟨-, herror⟩
  swap
  · refine .inr (.inl ⟨.invalidTimestamp, ?_⟩)
    simp only [parsePayload, hfields, herror, Bind.bind, Except.bind]
  rcases parseFraction_outcome rest with ⟨fraction, nanos, more, hfraction, rfl, hnanos⟩ | herror
  swap
  · refine .inr (.inl ⟨.invalidTimestamp, ?_⟩)
    simp only [parsePayload, hfields, hdays, hdrop, herror, Bind.bind, Except.bind]
  rcases parseOffset_outcome more with ⟨offset, seconds, left, hoffset, rfl⟩ | herror
  swap
  · refine .inr (.inl ⟨.invalidTimestamp, ?_⟩)
    simp only [parsePayload, hfields, hdays, hdrop, hnanos, herror, Bind.bind, Except.bind]
  have hseconds := parseOffset_reads hoffset left
  by_cases hleft : left = []
  · have hdateTime : DateTime LooseNumeral ⟨front, fraction, offset⟩ ⟨fields, nanos, seconds⟩ :=
      ⟨hfront, hdate, hfraction, hoffset⟩
    have htext : front.text (fractionText fraction ++ (offset.text ++ left))
        = (Parts.mk front fraction offset).text := by rw [hleft, List.append_nil]; rfl
    have hrun := parsePayload_dateTime hdateTime
    rw [htext]
    rcases @validate_eq (Values.mk fields nanos seconds).instant hfraction.bounds with
      ⟨hrange, hvalid⟩ | ⟨-, hinvalid⟩
    · rw [hvalid] at hrun
      exact .inr (.inr ⟨_, _, hdateTime, rfl, hrange, hrun⟩)
    · rw [hinvalid] at hrun
      exact .inr (.inl ⟨.timestampOutOfRange, hrun⟩)
  · refine .inr (.inl ⟨.invalidTimestamp, ?_⟩)
    have hlength : (left.length != 0) = true := by simp [hleft]
    simp only [parsePayload, hfields, hdays, hdrop, hnanos, hseconds, if_pos hlength, Bind.bind,
      Except.bind]

theorem parsePayload_denotes {text : Bytes} {self : Timestamp} :
    parsePayload text = .ok self ↔ Denotes LooseNumeral text self := by
  constructor
  · intro h
    rcases parsePayload_outcome text with
      ⟨front, fields, rest, hfront, hrest, rfl, hzero⟩ | ⟨e, herror⟩ |
      ⟨parts, values, hdateTime, htext, hrange, hrun⟩
    · rw [parsePayload_zeroMarch hfront hrest hzero] at h
      cases h
    · rw [herror] at h
      cases h
    · rw [hrun] at h
      cases h
      exact ⟨parts, values, hdateTime, htext, rfl, hrange⟩
  · rintro ⟨parts, values, hdateTime, rfl, rfl, hrange⟩
    rw [parsePayload_dateTime hdateTime]
    rcases @validate_eq values.instant hdateTime.fraction.bounds with ⟨-, hvalid⟩ | ⟨hout, -⟩
    · rw [hvalid]
      rfl
    · exact absurd hrange hout

/-! ## No trap -/

/-- The reader returns a value or reports an error. -/
def Returns (text : Bytes) : Prop :=
  (∃ self, jsonParse text = .ok self) ∨ ∃ e, jsonParse text = .error (.error e)

/-- The payload begins with fields that are in range but for a day 0 in March. -/
def ZeroMarch (text : Bytes) : Prop :=
  ∃ (front : Front) (fields : Fields) (rest : Bytes),
    jsonStringPayload .invalidTimestamp text = .ok (front.text rest) ∧ rest ≠ []
      ∧ front.Reads LooseNumeral fields ∧ fields.month = 3 ∧ fields.day = 0

theorem jsonParse_zeroMarch {text : Bytes} (h : ZeroMarch text) :
    jsonParse text = .error .overflow := by
  obtain ⟨front, fields, rest, hpayload, hrest, hfront, hzero⟩ := h
  rw [jsonParse, hpayload]
  exact parsePayload_zeroMarch hfront hrest hzero

/-- The reader leaves its integer types on a day 0 in March, and nowhere else. -/
theorem jsonParse_returns_iff (text : Bytes) : Returns text ↔ ¬ ZeroMarch text := by
  constructor
  · rintro (⟨self, hself⟩ | ⟨e, herror⟩) hzero
    · cases (jsonParse_zeroMarch hzero).symm.trans hself
    · cases (jsonParse_zeroMarch hzero).symm.trans herror
  · intro hcondition
    rcases jsonStringPayload_outcome .invalidTimestamp text with ⟨payload, hpayload⟩ | herror
    swap
    · exact .inr ⟨.invalidTimestamp, by rw [jsonParse, herror]; rfl⟩
    have hrun : jsonParse text = parsePayload payload := by
      rw [jsonParse, hpayload]
      rfl
    rcases parsePayload_outcome payload with
      ⟨front, fields, rest, hfront, hrest, rfl, hzero⟩ | ⟨e, herror⟩ |
      ⟨parts, values, -, -, -, hvalue⟩
    · exact absurd ⟨front, fields, rest, hpayload, hrest, hfront, hzero⟩ hcondition
    · exact .inr ⟨e, hrun.trans herror⟩
    · exact .inl ⟨_, hrun.trans hvalue⟩

/-- The day 0 of March 2020. -/
theorem not_returns_zeroMarch : ¬ Returns (ascii "\"2020-03-00T00:00:00Z\"") := by
  have hrun : jsonParse (ascii "\"2020-03-00T00:00:00Z\"") = .error .overflow := by decide
  rintro (⟨self, hself⟩ | ⟨e, herror⟩)
  · cases hrun.symm.trans hself
  · cases hrun.symm.trans herror

/-! ## The grammar -/

def Front.numerals (front : Front) : List Bytes :=
  [front.year, front.month, front.day, front.hour, front.minute, front.second]

def Offset.numerals : Offset → List Bytes
  | .utc => []
  | .numeric _ hour minute => [hour, minute]

/-- The numbers of a date-time as they are spelled. -/
def Parts.numerals (parts : Parts) : List Bytes := parts.front.numerals ++ parts.offset.numerals

theorem numeral_two {text : Bytes} {value : Int} :
    Numeral 2 text value ↔ LooseNumeral 2 text value ∧ ¬ HasSign text := numeral_iff (by decide)

theorem Front.reads_iff {front : Front} {fields : Fields} :
    front.Reads Numeral fields ↔
      front.Reads LooseNumeral fields ∧ ∀ text ∈ front.numerals, ¬ HasSign text := by
  have hfour := @numeral_iff 4 (by decide) front.year fields.year
  simp only [Front.numerals, List.forall_mem_cons, List.not_mem_nil, false_implies, implies_true,
    and_true]
  constructor
  · intro h
    exact ⟨{ year := (hfour.mp h.year).1, month := (numeral_two.mp h.month).1,
             day := (numeral_two.mp h.day).1, hour := (numeral_two.mp h.hour).1,
             minute := (numeral_two.mp h.minute).1, second := (numeral_two.mp h.second).1,
             monthRange := h.monthRange, dayRange := h.dayRange, hourRange := h.hourRange,
             minuteRange := h.minuteRange, secondRange := h.secondRange },
      (hfour.mp h.year).2, (numeral_two.mp h.month).2, (numeral_two.mp h.day).2,
      (numeral_two.mp h.hour).2, (numeral_two.mp h.minute).2, (numeral_two.mp h.second).2⟩
  · rintro ⟨h, hyear, hmonth, hday, hhour, hminute, hsecond⟩
    exact { year := hfour.mpr ⟨h.year, hyear⟩, month := numeral_two.mpr ⟨h.month, hmonth⟩,
            day := numeral_two.mpr ⟨h.day, hday⟩, hour := numeral_two.mpr ⟨h.hour, hhour⟩,
            minute := numeral_two.mpr ⟨h.minute, hminute⟩,
            second := numeral_two.mpr ⟨h.second, hsecond⟩,
            monthRange := h.monthRange, dayRange := h.dayRange, hourRange := h.hourRange,
            minuteRange := h.minuteRange, secondRange := h.secondRange }

theorem Offset.reads_iff {offset : Offset} {seconds : Int} :
    offset.Reads Numeral seconds ↔
      offset.Reads LooseNumeral seconds ∧ ∀ text ∈ offset.numerals, ¬ HasSign text := by
  constructor
  · intro h
    cases h with
    | utc => exact ⟨.utc, by simp [Offset.numerals]⟩
    | plus hhour hminute hhourRange hminuteRange =>
        obtain ⟨hhour, hhourSign⟩ := numeral_two.mp hhour
        obtain ⟨hminute, hminuteSign⟩ := numeral_two.mp hminute
        exact ⟨.plus hhour hminute hhourRange hminuteRange,
          List.forall_mem_cons.mpr ⟨hhourSign, List.forall_mem_singleton.mpr hminuteSign⟩⟩
    | minus hhour hminute hhourRange hminuteRange =>
        obtain ⟨hhour, hhourSign⟩ := numeral_two.mp hhour
        obtain ⟨hminute, hminuteSign⟩ := numeral_two.mp hminute
        exact ⟨.minus hhour hminute hhourRange hminuteRange,
          List.forall_mem_cons.mpr ⟨hhourSign, List.forall_mem_singleton.mpr hminuteSign⟩⟩
  · rintro ⟨h, hsign⟩
    cases h with
    | utc => exact .utc
    | plus hhour hminute hhourRange hminuteRange =>
        obtain ⟨hhourSign, hminuteSign⟩ := List.forall_mem_cons.mp hsign
        exact .plus (numeral_two.mpr ⟨hhour, hhourSign⟩)
          (numeral_two.mpr ⟨hminute, hminuteSign _ (List.mem_singleton.mpr rfl)⟩) hhourRange
          hminuteRange
    | minus hhour hminute hhourRange hminuteRange =>
        obtain ⟨hhourSign, hminuteSign⟩ := List.forall_mem_cons.mp hsign
        exact .minus (numeral_two.mpr ⟨hhour, hhourSign⟩)
          (numeral_two.mpr ⟨hminute, hminuteSign _ (List.mem_singleton.mpr rfl)⟩) hhourRange
          hminuteRange

/-- A date-time with digits for numbers is one that the reader takes, without signs and underscores
in its numbers. -/
theorem dateTime_iff {parts : Parts} {values : Values} :
    DateTime Numeral parts values ↔
      DateTime LooseNumeral parts values ∧ ∀ text ∈ parts.numerals, ¬ HasSign text := by
  constructor
  · rintro ⟨hfront, hdate, hfraction, hoffset⟩
    obtain ⟨hfront, hfrontSign⟩ := Front.reads_iff.mp hfront
    obtain ⟨hoffset, hoffsetSign⟩ := Offset.reads_iff.mp hoffset
    exact ⟨⟨hfront, hdate, hfraction, hoffset⟩,
      List.forall_mem_append.mpr ⟨hfrontSign, hoffsetSign⟩⟩
  · rintro ⟨⟨hfront, hdate, hfraction, hoffset⟩, hsign⟩
    obtain ⟨hfrontSign, hoffsetSign⟩ := List.forall_mem_append.mp hsign
    exact ⟨Front.reads_iff.mpr ⟨hfront, hfrontSign⟩, hdate, hfraction,
      Offset.reads_iff.mpr ⟨hoffset, hoffsetSign⟩⟩

theorem Offset.text_injective {offset other : Offset} {seconds otherSeconds : Int}
    (h : offset.Reads LooseNumeral seconds) (hother : other.Reads LooseNumeral otherSeconds)
    (htext : offset.text = other.text) : offset = other := by
  have hshape {offset : Offset} {seconds : Int} (h : offset.Reads LooseNumeral seconds) :
      offset = .utc ∨ ∃ sign a b c d, sign ≠ 0x5a ∧ offset = .numeric sign [a, b] [c, d] := by
    cases h with
    | utc => exact .inl rfl
    | plus hhour hminute =>
        obtain ⟨a, b, rfl⟩ := exists_of_length_two hhour.length
        obtain ⟨c, d, rfl⟩ := exists_of_length_two hminute.length
        exact .inr ⟨_, a, b, c, d, by decide, rfl⟩
    | minus hhour hminute =>
        obtain ⟨a, b, rfl⟩ := exists_of_length_two hhour.length
        obtain ⟨c, d, rfl⟩ := exists_of_length_two hminute.length
        exact .inr ⟨_, a, b, c, d, by decide, rfl⟩
  rcases hshape h with rfl | ⟨sign, a, b, c, d, -, rfl⟩
  · rcases hshape hother with rfl | ⟨sign, a, b, c, d, -, rfl⟩
    · rfl
    · cases htext
  · rcases hshape hother with rfl | ⟨sign', a', b', c', d', -, rfl⟩
    · cases htext
    · simp only [Offset.text, List.cons_append, List.nil_append, List.cons.injEq, and_true,
        true_and] at htext
      obtain ⟨rfl, rfl, rfl, rfl, rfl⟩ := htext
      rfl

/-- A text is one date-time at most. -/
theorem parts_unique {parts others : Parts} {values otherValues : Values}
    (h : DateTime LooseNumeral parts values) (hothers : DateTime LooseNumeral others otherValues)
    (htext : parts.text = others.text) : parts = others := by
  obtain ⟨front, fraction, offset⟩ := parts
  obtain ⟨otherFront, otherFraction, otherOffset⟩ := others
  have hpositions := (h.front.shaped measured_looseNumeral).positions
    (fractionText fraction ++ offset.text)
  have hotherPositions := (hothers.front.shaped measured_looseNumeral).positions
    (fractionText otherFraction ++ otherOffset.text)
  rw [show otherFront.text (fractionText otherFraction ++ otherOffset.text)
    = front.text (fractionText fraction ++ offset.text) from htext.symm] at hotherPositions
  have hfront : front = otherFront := by
    obtain ⟨year, month, day, hour, minute, second⟩ := front
    obtain ⟨year', month', day', hour', minute', second'⟩ := otherFront
    have hyear : year = year' := hpositions.year.symm.trans hotherPositions.year
    have hmonth : month = month' := hpositions.month.symm.trans hotherPositions.month
    have hday : day = day' := hpositions.day.symm.trans hotherPositions.day
    have hhour : hour = hour' := hpositions.hour.symm.trans hotherPositions.hour
    have hminute : minute = minute' := hpositions.minute.symm.trans hotherPositions.minute
    have hsecond : second = second' := hpositions.second.symm.trans hotherPositions.second
    rw [hyear, hmonth, hday, hhour, hminute, hsecond]
  have hrest : fractionText fraction ++ offset.text = fractionText otherFraction ++ otherOffset.text :=
    hpositions.rest.symm.trans hotherPositions.rest
  -- the reader of fractions finds one end of them
  have hread := parseFraction_reads h.fraction (offset.text_head h.offset)
  have hotherRead := parseFraction_reads hothers.fraction (otherOffset.text_head hothers.offset)
  rw [hrest, hotherRead] at hread
  have hoffsetText : otherOffset.text = offset.text := (Prod.mk.inj (Except.ok.inj hread)).2
  have hoffset : otherOffset = offset :=
    Offset.text_injective hothers.offset h.offset hoffsetText
  have hfractionText : fractionText fraction = fractionText otherFraction := by
    rw [hoffset] at hrest
    exact List.append_cancel_right hrest
  have hfraction : fraction = otherFraction := by
    cases fraction with
    | none =>
        cases otherFraction with
        | none => rfl
        | some digits => cases hfractionText
    | some digits =>
        cases otherFraction with
        | none => cases hfractionText
        | some other => exact congrArg some (List.cons.inj hfractionText).2
  rw [hfront, hfraction, hoffset]

/-- The text is taken for a date-time although one of its numbers has a sign or an underscore. -/
def LooselyDenotes (text : Bytes) : Prop :=
  ∃ parts values, DateTime LooseNumeral parts values ∧ text = parts.text
    ∧ InRange values.instant.seconds ∧ ∃ numeral ∈ parts.numerals, HasSign numeral

/-- The reader accepts the text just if its payload is a date-time, and returns the instant. -/
def AcceptsExactly (text : Bytes) : Prop :=
  ∀ self, jsonParse text = .ok self ↔
    ∃ payload, jsonStringPayload .invalidTimestamp text = .ok payload ∧ Denotes Numeral payload self

theorem jsonParse_denotes {text : Bytes} {self : Timestamp} :
    jsonParse text = .ok self ↔
      ∃ payload, jsonStringPayload .invalidTimestamp text = .ok payload
        ∧ Denotes LooseNumeral payload self := by
  rw [jsonParse]
  cases hpayload : jsonStringPayload .invalidTimestamp text with
  | error e =>
      constructor
      · intro h
        cases h
      · rintro ⟨payload, h, -⟩
        cases h
  | ok payload =>
      constructor
      · exact fun h => ⟨payload, rfl, parsePayload_denotes.mp h⟩
      · rintro ⟨other, h, hdenotes⟩
        cases h
        exact parsePayload_denotes.mpr hdenotes

theorem not_acceptsExactly_of_loose {text payload : Bytes}
    (hpayload : jsonStringPayload .invalidTimestamp text = .ok payload)
    (h : LooselyDenotes payload) : ¬ AcceptsExactly text := by
  obtain ⟨parts, values, hdateTime, htext, hrange, numeral, hmem, hsign⟩ := h
  intro hexact
  obtain ⟨other, hother, others, otherValues, hstrict, hothersText, -⟩ := (hexact _).mp
    (jsonParse_denotes.mpr ⟨payload, hpayload, parts, values, hdateTime, htext, rfl, hrange⟩)
  obtain rfl : payload = other := Except.ok.inj (hpayload.symm.trans hother)
  obtain ⟨hloose, hnone⟩ := dateTime_iff.mp hstrict
  have hsame := parts_unique hdateTime hloose (htext.symm.trans hothersText)
  exact hnone numeral (hsame ▸ hmem) hsign

/-- The reader accepts just the date-times, unless it takes a sign or an underscore in a number. -/
theorem jsonParse_acceptsExactly_iff (text : Bytes) :
    AcceptsExactly text ↔
      ¬ ∃ payload, jsonStringPayload .invalidTimestamp text = .ok payload
        ∧ LooselyDenotes payload := by
  constructor
  · rintro hexact ⟨payload, hpayload, hloose⟩
    exact not_acceptsExactly_of_loose hpayload hloose hexact
  · intro hcondition self
    rw [jsonParse_denotes]
    constructor
    · rintro ⟨payload, hpayload, parts, values, hdateTime, htext, rfl, hrange⟩
      have hstrict : DateTime Numeral parts values := dateTime_iff.mpr ⟨hdateTime,
        fun numeral hmem hsign => hcondition ⟨payload, hpayload, parts, values, hdateTime, htext,
          hrange, numeral, hmem, hsign⟩⟩
      exact ⟨payload, hpayload, parts, values, hstrict, htext, rfl, hrange⟩
    · rintro ⟨payload, hpayload, parts, values, hdateTime, htext, hself, hrange⟩
      exact ⟨payload, hpayload, parts, values, (dateTime_iff.mp hdateTime).1, htext, hself, hrange⟩

/-- The second `+1` is taken for one. -/
theorem not_acceptsExactly_plus :
    jsonParse (ascii "\"2020-01-01T00:00:+1Z\"") = .ok { seconds := 1577836801, nanos := 0 }
      ∧ ¬ AcceptsExactly (ascii "\"2020-01-01T00:00:+1Z\"") := by
  have hrun : jsonParse (ascii "\"2020-01-01T00:00:+1Z\"")
      = .ok { seconds := 1577836801, nanos := 0 } := by decide
  refine ⟨hrun, fun hexact => ?_⟩
  obtain ⟨payload, hpayload, parts, values, hdateTime, htext, -⟩ := (hexact _).mp hrun
  have hsame : jsonStringPayload .invalidTimestamp (ascii "\"2020-01-01T00:00:+1Z\"")
      = .ok (ascii "2020-01-01T00:00:+1Z") := by decide
  obtain rfl : payload = ascii "2020-01-01T00:00:+1Z" :=
    Except.ok.inj (hpayload.symm.trans hsame)
  have hpositions := (hdateTime.front.shaped measured_numeral).positions
    (fractionText parts.fraction ++ parts.offset.text)
  have hsecond : slice parts.text 17 19 = parts.front.second := hpositions.second
  rw [← htext] at hsecond
  have hdigit := hdateTime.front.second.digits 0x2b (hsecond ▸ by decide)
  exact absurd hdigit (by decide)

/-! ## The round trip -/

theorem Parts.not_mem_backslash {parts : Parts} {values : Values}
    (h : DateTime Numeral parts values) : 0x5c ∉ parts.text := by
  have hfraction : 0x5c ∉ fractionText parts.fraction := h.fraction.not_mem_backslash
  have hoffset : 0x5c ∉ parts.offset.text := by
    obtain ⟨front, fraction, offset⟩ := parts
    obtain ⟨fields, nanos, seconds⟩ := values
    cases h.offset with
    | utc =>
        show 0x5c ∉ [0x5a]
        decide
    | plus hhour hminute =>
        simp [Offset.text, hhour.not_mem_backslash, hminute.not_mem_backslash]
    | minus hhour hminute =>
        simp [Offset.text, hhour.not_mem_backslash, hminute.not_mem_backslash]
  have hfront := h.front
  simp [Parts.text, Front.text, hfront.year.not_mem_backslash, hfront.month.not_mem_backslash,
    hfront.day.not_mem_backslash, hfront.hour.not_mem_backslash, hfront.minute.not_mem_backslash,
    hfront.second.not_mem_backslash, hfraction, hoffset]

/-- The fraction that is printed, if there is one. -/
theorem exists_fraction {nanos : Int} (h : 0 ≤ nanos ∧ nanos ≤ 999999999) :
    ∃ fraction, ReadsFraction fraction nanos ∧ writeFraction nanos = .ok (fractionText fraction) := by
  by_cases hzero : nanos = 0
  · exact ⟨none, hzero ▸ .none, by rw [hzero]; rfl⟩
  · obtain ⟨digits, hdigits, hwrite⟩ := castFraction_eq ⟨by omega, h.2⟩
    exact ⟨some digits, .some hdigits, by rw [writeFraction, if_pos (bne_iff_ne.mpr hzero), hwrite]; rfl⟩

theorem validate_ok {self : Timestamp} (h : self.validate = .ok ()) :
    InRange self.seconds ∧ 0 ≤ self.nanos ∧ self.nanos ≤ 999999999 := by
  have hnanos : 0 ≤ self.nanos ∧ self.nanos ≤ 999999999 := by
    unfold validate at h
    split at h
    · cases h
    · split at h
      · cases h
      · next hcheck =>
        rw [Bool.or_eq_true, decide_eq_true_eq, decide_eq_true_eq] at hcheck
        omega
  refine ⟨?_, hnanos⟩
  rcases validate_eq hnanos with ⟨hrange, -⟩ | ⟨-, hinvalid⟩
  · exact hrange
  · cases h.symm.trans hinvalid

/-- The text of a timestamp is a date-time of it between quotes. -/
theorem jsonStringify_eq {self : Timestamp} (h : self.validate = .ok ()) :
    ∃ parts values, DateTime Numeral parts values ∧ values.instant = self
      ∧ self.jsonStringify = .ok (0x22 :: (parts.text ++ [0x22])) := by
  obtain ⟨hrange, hnanos⟩ := validate_ok h
  obtain ⟨hlow, hhigh⟩ := inRange_iff.mp hrange
  have hdays : InYears (self.seconds / 86400) := inYears_iff.mpr (by omega)
  obtain ⟨date, hdate, hvalid, hyearLow, hyearHigh, -⟩ := civilFromDays_daysFromCivil hdays
  have hnumber : dayNumber date = self.seconds / 86400 := by
    have hcivil : civilFromDays (self.seconds / 86400) = .ok (civil (self.seconds / 86400)) :=
      civilFromDays_eq ⟨by omega, by omega⟩
    obtain rfl : date = civil (self.seconds / 86400) := Except.ok.inj (hdate.symm.trans hcivil)
    exact dayNumber_civil _
  obtain ⟨fraction, hfraction, hwrite⟩ := exists_fraction hnanos
  obtain ⟨hmonth, hdayLow, hdayHigh⟩ := hvalid
  have hlength : daysInMonth date.year date.month ≤ 31 := by
    unfold daysInMonth
    split_ifs <;> decide
  have hhourRange : 0 ≤ self.seconds % 86400 / 3600 ∧ self.seconds % 86400 / 3600 ≤ 23 := by omega
  have hminuteRange : 0 ≤ self.seconds % 86400 % 3600 / 60
      ∧ self.seconds % 86400 % 3600 / 60 ≤ 59 := by omega
  have hsecondRange : 0 ≤ self.seconds % 86400 % 60 ∧ self.seconds % 86400 % 60 ≤ 59 := by omega
  have hyear := @padded_int 4 (by decide) date.year (by omega) (by omega)
  have hmonthText := @padded_int 2 (by decide) date.month (by omega) (by omega)
  have hdayText := @padded_int 2 (by decide) date.day (by omega) (by omega)
  have hhour := @padded_int 2 (by decide) (self.seconds % 86400 / 3600) (by omega) (by omega)
  have hminute := @padded_int 2 (by decide) (self.seconds % 86400 % 3600 / 60) (by omega) (by omega)
  have hsecond := @padded_int 2 (by decide) (self.seconds % 86400 % 60) (by omega) (by omega)
  refine ⟨⟨⟨padded 4 date.year.toNat, padded 2 date.month.toNat, padded 2 date.day.toNat,
      padded 2 (self.seconds % 86400 / 3600).toNat,
      padded 2 (self.seconds % 86400 % 3600 / 60).toNat,
      padded 2 (self.seconds % 86400 % 60).toNat⟩, fraction, .utc⟩,
    ⟨⟨date.year, date.month, date.day, self.seconds % 86400 / 3600,
      self.seconds % 86400 % 3600 / 60, self.seconds % 86400 % 60⟩, self.nanos, 0⟩,
    ⟨⟨hyear, hmonthText, hdayText, hhour, hminute, hsecond, hmonth,
      Int.le_trans (by decide) hdayLow, hhourRange, hminuteRange, hsecondRange⟩,
      ⟨hmonth, hdayLow, hdayHigh⟩, hfraction, .utc⟩, ?_, ?_⟩
  · have hseconds : dayNumber date * 86400 + self.seconds % 86400 / 3600 * 3600
        + self.seconds % 86400 % 3600 / 60 * 60 + self.seconds % 86400 % 60 - 0 = self.seconds := by
      rw [hnumber]
      omega
    exact congrArg (fun seconds => Timestamp.mk seconds self.nanos) hseconds
  · have hsecondsOfDay := @fit_u32 (self.seconds % 86400) (by omega)
    have hyearFit := @fit_u32 date.year (by omega)
    simp only [jsonStringify, h, hsecondsOfDay, hdate, hyearFit, hwrite, Bind.bind, Except.bind,
      Parts.text, Front.text, Offset.text, timeText, List.append_assoc, List.cons_append,
      List.nil_append]
    rfl

/-- What is printed for a timestamp is read as that timestamp; days and dates of the years 1 to 9999
are in one-to-one correspondence. -/
theorem jsonStringify_roundTrip :
    (∀ self : Timestamp, self.validate = .ok () →
        ∃ text, self.jsonStringify = .ok text ∧ jsonParse text = .ok self)
      ∧ (∀ days, InYears days → ∃ date : Date, civilFromDays days = .ok date ∧ date.Valid
        ∧ 1 ≤ date.year ∧ date.year ≤ 9999
        ∧ daysFromCivil date.year date.month date.day = .ok days)
      ∧ ∀ date : Date, date.Valid → 1 ≤ date.year ∧ date.year ≤ 9999 →
        ∃ days, daysFromCivil date.year date.month date.day = .ok days ∧ InYears days
          ∧ civilFromDays days = .ok date := by
  refine ⟨fun self h => ?_, fun _ => civilFromDays_daysFromCivil,
    fun _ => daysFromCivil_civilFromDays⟩
  obtain ⟨parts, values, hdateTime, rfl, htext⟩ := jsonStringify_eq h
  have hpayload := jsonStringPayload_quoted .invalidTimestamp (Parts.not_mem_backslash hdateTime)
  exact ⟨_, htext, jsonParse_denotes.mpr ⟨parts.text, hpayload, parts, values,
    (dateTime_iff.mp hdateTime).1, rfl, rfl, (validate_ok h).1⟩⟩

/-- The last nanosecond of 1969. -/
theorem jsonStringify_roundTrip_1969 :
    (∃ text, (Timestamp.mk (-1) 999999999).jsonStringify = .ok text
        ∧ jsonParse text = .ok (Timestamp.mk (-1) 999999999))
      ∧ (∃ date : Date, civilFromDays (-1) = .ok date ∧ date.Valid ∧ 1 ≤ date.year
        ∧ date.year ≤ 9999 ∧ daysFromCivil date.year date.month date.day = .ok (-1))
      ∧ ∃ days, daysFromCivil 2000 2 29 = .ok days ∧ InYears days
        ∧ civilFromDays days = .ok { year := 2000, month := 2, day := 29 } :=
  ⟨jsonStringify_roundTrip.1 (Timestamp.mk (-1) 999999999) (by decide),
    jsonStringify_roundTrip.2.1 (-1) (inYears_iff.mpr (by decide)),
    jsonStringify_roundTrip.2.2 { year := 2000, month := 2, day := 29 } ⟨by decide, by decide⟩
      (by decide)⟩

end Timestamp

end Wkt

end Pbz
