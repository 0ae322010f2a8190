import Pbz.Wkt.Calendar

set_option autoImplicit false

/-! # Timestamps in JSON

A `Timestamp` is printed as a date-time of RFC 3339 in UTC. The reader takes the fields from their
positions with `std.fmt.parseInt`, and then finds out whether there is such a day by going to its
number and back.
-/

namespace Pbz

namespace Wkt

structure Timestamp where
  seconds : Int := 0
  nanos : Int := 0
  deriving DecidableEq, Repr

namespace Timestamp

def validate (self : Timestamp) : Except WktStop Unit :=
  if self.seconds < -62135596800 || self.seconds > 253402300799 then
    .error (.error .timestampOutOfRange)
  else if self.nanos < 0 || self.nanos > 999999999 then .error (.error .invalidNanos)
  else .ok ()

/-! ## Printing -/

/-- What is printed between the day and the `Z`. -/
def timeText (hour minute second : Nat) : Bytes :=
  0x54 :: (padded 2 hour ++ 0x3a :: (padded 2 minute ++ 0x3a :: padded 2 second))

/-- The fraction of a second, unless there is none. -/
def writeFraction (nanos : Int) : Except WktStop Bytes :=
  if nanos != 0 then castFraction nanos else .ok []

/-- `@divFloor` and `@mod` by a positive divisor are the operations of `Int`. -/
def jsonStringify (self : Timestamp) : Except WktStop Bytes := do
  self.validate
  let days := self.seconds / 86400
  let secondsOfDay ← fit .u32 (self.seconds % 86400)
  let date ← civilFromDays days
  let hour := secondsOfDay / 3600
  let minute := secondsOfDay % 3600 / 60
  let second := secondsOfDay % 60
  let year ← fit .u32 date.year
  let fraction ← writeFraction self.nanos
  return 0x22 :: (padded 4 year.toNat ++ 0x2d :: (padded 2 date.month.toNat
    ++ 0x2d :: (padded 2 date.day.toNat
    ++ (timeText hour.toNat minute.toNat second.toNat ++ (fraction ++ [0x5a, 0x22])))))

/-! ## Reading -/

def slice (text : Bytes) (start stop : Nat) : Bytes := (text.drop start).take (stop - start)

structure Fields where
  year : Int
  month : Int
  day : Int
  hour : Int
  minute : Int
  second : Int

/-- The fields at their positions. -/
def parseFields (unquoted : Bytes) : Except WktStop Fields :=
  if unquoted.length < 20 || unquoted[4]? != some 0x2d || unquoted[7]? != some 0x2d
      || unquoted[10]? != some 0x54 || unquoted[13]? != some 0x3a || unquoted[16]? != some 0x3a then
    .error (.error .invalidTimestamp)
  else do
    let year ← parseField .invalidTimestamp .i32 (slice unquoted 0 4)
    let month ← parseField .invalidTimestamp .u8 (slice unquoted 5 7)
    let day ← parseField .invalidTimestamp .u8 (slice unquoted 8 10)
    let hour ← parseField .invalidTimestamp .u8 (slice unquoted 11 13)
    let minute ← parseField .invalidTimestamp .u8 (slice unquoted 14 16)
    let second ← parseField .invalidTimestamp .u8 (slice unquoted 17 19)
    if month < 1 || month > 12 || hour > 23 || minute > 59 || second > 59 then
      .error (.error .invalidTimestamp)
    else return { year, month, day, hour, minute, second }

/-- The number of the day, if there is such a day. -/
def parseDays (fields : Fields) : Except WktStop Int := do
  let days ← daysFromCivil fields.year fields.month fields.day
  let normalized ← civilFromDays days
  if normalized.year != fields.year || normalized.month != fields.month
      || normalized.day != fields.day then .error (.error .invalidTimestamp)
  else return days

/-- The nanoseconds of a fraction, and the text behind it. -/
def parseFraction (text : Bytes) : Except WktStop (Int × Bytes) :=
  if text.head? == some 0x2e then
    let digits := (text.drop 1).takeWhile isDigit
    if digits.length == 0 || digits.length > 9 then .error (.error .invalidTimestamp)
    else do
      let nanos ← fractionNanos 100000000 0 digits
      return (nanos, text.drop (1 + digits.length))
  else return (0, text)

/-- The seconds of an offset, and the text behind it. -/
def parseOffset (text : Bytes) : Except WktStop (Int × Bytes) :=
  if text.head? == some 0x5a then return (0, text.drop 1)
  else if 6 ≤ text.length && (text.head? == some 0x2b || text.head? == some 0x2d) then do
    let sign : Int := if text.head? == some 0x2b then 1 else -1
    let offsetHour ← parseField .invalidTimestamp .u8 (slice text 1 3)
    if text[3]? != some 0x3a then .error (.error .invalidTimestamp)
    else do
      let offsetMinute ← parseField .invalidTimestamp .u8 (slice text 4 6)
      if offsetHour > 23 || offsetMinute > 59 then .error (.error .invalidTimestamp)
      else do
        let hours ← fit .i64 (offsetHour * 3600)
        let minutes ← fit .i64 (offsetMinute * 60)
        let sum ← fit .i64 (hours + minutes)
        let offset ← fit .i64 (sign * sum)
        return (offset, text.drop 6)
  else .error (.error .invalidTimestamp)

/-- `days * 86_400 + hour * 3600 + minute * 60 + second - offset_seconds`. -/
def instantSeconds (days : Int) (fields : Fields) (offset : Int) : Except WktStop Int := do
  let seconds ← fit .i64 (days * 86400)
  let hours ← fit .i64 (fields.hour * 3600)
  let seconds ← fit .i64 (seconds + hours)
  let minutes ← fit .i64 (fields.minute * 60)
  let seconds ← fit .i64 (seconds + minutes)
  let seconds ← fit .i64 (seconds + fields.second)
  fit .i64 (seconds - offset)

def parsePayload (unquoted : Bytes) : Except WktStop Timestamp := do
  let fields ← parseFields unquoted
  let days ← parseDays fields
  let (nanos, rest) ← parseFraction (unquoted.drop 19)
  let (offset, rest) ← parseOffset rest
  if rest.length != 0 then .error (.error .invalidTimestamp)
  else do
    let seconds ← instantSeconds days fields offset
    let out : Timestamp := { seconds := seconds, nanos := nanos }
    out.validate
    return out

def jsonParse (text : Bytes) : Except WktStop Timestamp := do
  let unquoted ← jsonStringPayload .invalidTimestamp text
  parsePayload unquoted

/-! ## Date-times -/

/-- The fields of a date-time as they are spelled. -/
structure Front where
  year : Bytes
  month : Bytes
  day : Bytes
  hour : Bytes
  minute : Bytes
  second : Bytes

/-- The date-time in front of the rest. -/
def Front.text (front : Front) (rest : Bytes) : Bytes :=
  front.year ++ 0x2d :: (front.month ++ 0x2d :: (front.day ++ 0x54 :: (front.hour
    ++ 0x3a :: (front.minute ++ 0x3a :: (front.second ++ rest)))))

/-- What the fields are, as the numerals spell them. -/
structure Front.Reads (numeral : Nat → Bytes → Int → Prop) (front : Front) (fields : Fields) :
    Prop where
  year : numeral 4 front.year fields.year
  month : numeral 2 front.month fields.month
  day : numeral 2 front.day fields.day
  hour : numeral 2 front.hour fields.hour
  minute : numeral 2 front.minute fields.minute
  second : numeral 2 front.second fields.second
  monthRange : 1 ≤ fields.month ∧ fields.month ≤ 12
  dayRange : 0 ≤ fields.day
  hourRange : 0 ≤ fields.hour ∧ fields.hour ≤ 23
  minuteRange : 0 ≤ fields.minute ∧ fields.minute ≤ 59
  secondRange : 0 ≤ fields.second ∧ fields.second ≤ 59

/-- The offset from UTC, as it is spelled. -/
inductive Offset where
  | utc
  | numeric (sign : UInt8) (hour minute : Bytes)

def Offset.text : Offset → Bytes
  | .utc => [0x5a]
  | .numeric sign hour minute => sign :: (hour ++ 0x3a :: minute)

/-- The seconds of an offset. -/
inductive Offset.Reads (numeral : Nat → Bytes → Int → Prop) : Offset → Int → Prop where
  | utc : Offset.Reads numeral .utc 0
  | plus {hourText minuteText : Bytes} {hour minute : Int} (hhour : numeral 2 hourText hour)
      (hminute : numeral 2 minuteText minute) (hhourRange : 0 ≤ hour ∧ hour ≤ 23)
      (hminuteRange : 0 ≤ minute ∧ minute ≤ 59) :
      Offset.Reads numeral (.numeric 0x2b hourText minuteText) (hour * 3600 + minute * 60)
  | minus {hourText minuteText : Bytes} {hour minute : Int} (hhour : numeral 2 hourText hour)
      (hminute : numeral 2 minuteText minute) (hhourRange : 0 ≤ hour ∧ hour ≤ 23)
      (hminuteRange : 0 ≤ minute ∧ minute ≤ 59) :
      Offset.Reads numeral (.numeric 0x2d hourText minuteText) (-(hour * 3600 + minute * 60))

structure Parts where
  front : Front
  fraction : Option Bytes
  offset : Offset

def Parts.text (parts : Parts) : Bytes :=
  parts.front.text (fractionText parts.fraction ++ parts.offset.text)

structure Values where
  fields : Fields
  nanos : Int
  offset : Int

def Fields.date (fields : Fields) : Date :=
  { year := fields.year, month := fields.month, day := fields.day }

def Values.instant (values : Values) : Timestamp where
  seconds := dayNumber values.fields.date * 86400 + values.fields.hour * 3600
    + values.fields.minute * 60 + values.fields.second - values.offset
  nanos := values.nanos

/-- A date-time of RFC 3339 whose numbers are spelled as the numerals have it. -/
structure DateTime (numeral : Nat → Bytes → Int → Prop) (parts : Parts) (values : Values) : Prop where
  front : parts.front.Reads numeral values.fields
  date : values.fields.date.Valid
  fraction : ReadsFraction parts.fraction values.nanos
  offset : parts.offset.Reads numeral values.offset

/-- From the first of January of the year 1 to the end of the year 9999. -/
def InRange (seconds : Int) : Prop :=
  newYear 1 * 86400 ≤ seconds ∧ seconds < newYear 10000 * 86400

/-- The text is a date-time of the instant. -/
def Denotes (numeral : Nat → Bytes → Int → Prop) (text : Bytes) (self : Timestamp) : Prop :=
  ∃ parts values, DateTime numeral parts values ∧ text = parts.text ∧ self = values.instant
    ∧ InRange self.seconds

theorem inRange_iff {seconds : Int} :
    InRange seconds ↔ -62135596800 ≤ seconds ∧ seconds ≤ 253402300799 := by
  have hfirst : newYear 1 = -719162 := by decide
  have hlast : newYear 10000 = 2932897 := by decide
  rw [InRange, hfirst, hlast]
  omega

end Timestamp

end Wkt

end Pbz
