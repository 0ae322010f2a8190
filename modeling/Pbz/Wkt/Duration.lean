import Pbz.Wkt.Decimals

set_option autoImplicit false

/-! # Durations in JSON

A `Duration` is read from a sign, seconds in decimal digits, a fraction and the letter `s`. The sign
is taken off first and negates both numbers in the end.
-/

namespace Pbz

namespace Wkt

structure Duration where
  seconds : Int := 0
  nanos : Int := 0
  deriving DecidableEq, Repr

namespace Duration

def validate (self : Duration) : Except WktStop Unit :=
  if self.seconds < -315576000000 || self.seconds > 315576000000 then
    .error (.error .durationOutOfRange)
  else if self.nanos ≤ -1000000000 || self.nanos ≥ 1000000000 then .error (.error .invalidNanos)
  else if (self.seconds < 0 && self.nanos > 0) || (self.seconds > 0 && self.nanos < 0) then
    .error (.error .durationSignMismatch)
  else .ok ()

/-! ## Printing -/

/-- The fraction of a second, unless there is none. -/
def writeFraction (nanos : Int) : Except WktStop Bytes :=
  if nanos != 0 then castFraction nanos.natAbs else .ok []

def jsonStringify (self : Duration) : Except WktStop Bytes := do
  self.validate
  let sign := if self.seconds < 0 || self.nanos < 0 then [0x2d] else []
  let fraction ← writeFraction self.nanos
  return 0x22 :: (sign ++ (decimalDigits self.seconds.natAbs ++ (fraction ++ [0x73, 0x22])))

/-! ## Reading -/

/-- The loop over the characters of a fraction. -/
def durationNanos : Int → Int → Bytes → Except WktStop Int
  | _, nanos, [] => .ok nanos
  | scale, nanos, c :: rest =>
      if !isDigit c then .error (.error .invalidDuration)
      else do
        let part ← fit .i32 (((c.toNat - 0x30 : Nat) : Int) * scale)
        let nanos ← fit .i32 (nanos + part)
        durationNanos (scale.tdiv 10) nanos rest

/-- What stands behind the point, if there is one. -/
def behindPoint (body : Bytes) : Option Bytes :=
  match body.dropWhile (· != 0x2e) with
  | [] => none
  | _ :: frac => some frac

def parseFraction (frac : Option Bytes) : Except WktStop Int :=
  match frac with
  | none => .ok 0
  | some frac =>
      if frac.length == 0 || frac.length > 9 then .error (.error .invalidDuration)
      else durationNanos 100000000 0 frac

def negateIf (type : IntegerType) (negative : Bool) (value : Int) : Except WktStop Int :=
  if negative then fit type (-value) else .ok value

/-- The two numbers behind the sign. -/
def parseNumbers (negative : Bool) (secText : Bytes) (frac : Option Bytes) :
    Except WktStop Duration := do
  let seconds ← parseField .invalidDuration .i64 secText
  let nanos ← parseFraction frac
  let seconds ← negateIf .i64 negative seconds
  let nanos ← negateIf .i32 negative nanos
  let out : Duration := { seconds := seconds, nanos := nanos }
  out.validate
  return out

def parseBody (negative : Bool) (body : Bytes) : Except WktStop Duration :=
  if body.length == 0 then .error (.error .invalidDuration)
  else
    let secText := body.takeWhile (· != 0x2e)
    if secText.length == 0 then .error (.error .invalidDuration)
    else parseNumbers negative secText (behindPoint body)

/-- What stands behind the sign, if there is one. -/
def behindSign (text : Bytes) : Bytes :=
  if text.head? == some 0x2d || text.head? == some 0x2b then text.drop 1 else text

def parsePayload (unquoted : Bytes) : Except WktStop Duration :=
  if unquoted.length < 2 || unquoted.getLast? != some 0x73 then .error (.error .invalidDuration)
  else
    let body := unquoted.dropLast
    parseBody (body.head? == some 0x2d) (behindSign body)

def jsonParse (text : Bytes) : Except WktStop Duration := do
  let unquoted ← jsonStringPayload .invalidDuration text
  parsePayload unquoted

/-! ## What a duration is -/

/-- The numbers are in their ranges, and none of them is negative when the other is positive. -/
structure Valid (duration : Duration) : Prop where
  seconds : -315576000000 ≤ duration.seconds ∧ duration.seconds ≤ 315576000000
  nanos : -999999999 ≤ duration.nanos ∧ duration.nanos ≤ 999999999
  sign : ¬ (duration.seconds < 0 ∧ 0 < duration.nanos)
    ∧ ¬ (0 < duration.seconds ∧ duration.nanos < 0)

inductive Sign where
  | none
  | plus
  | minus
  deriving DecidableEq

def Sign.text : Sign → Bytes
  | .none => []
  | .plus => [0x2b]
  | .minus => [0x2d]

/-- The number behind the sign. -/
def Sign.apply (sign : Sign) (value : Int) : Int := if sign = .minus then -value else value

structure Parts where
  sign : Sign
  seconds : Bytes
  fraction : Option Bytes

def Parts.text (parts : Parts) : Bytes :=
  parts.sign.text ++ (parts.seconds ++ fractionText parts.fraction) ++ [0x73]

/-- The seconds are decimal digits, and the fraction has one to nine of them. -/
structure Parts.Reads (parts : Parts) (number nanos : Int) : Prop where
  nonempty : parts.seconds ≠ []
  seconds : Numeral parts.seconds.length parts.seconds number
  fraction : ReadsFraction parts.fraction nanos

/-- The text is a duration of that value. -/
def Denotes (text : Bytes) (self : Duration) : Prop :=
  ∃ (parts : Parts) (number nanos : Int), parts.Reads number nanos ∧ text = parts.text
    ∧ self = { seconds := parts.sign.apply number, nanos := parts.sign.apply nanos } ∧ self.Valid

theorem validate_outcome (self : Duration) :
    (self.Valid ∧ self.validate = .ok ())
      ∨ (¬ self.Valid ∧ ∃ e, self.validate = .error (.error e)) := by
  unfold validate
  split_ifs with hseconds hnanos hsign
  · simp only [Bool.or_eq_true, decide_eq_true_eq] at hseconds
    refine .inr ⟨fun h => ?_, _, rfl⟩
    have hrange := h.seconds
    omega
  · simp only [Bool.or_eq_true, decide_eq_true_eq] at hnanos
    refine .inr ⟨fun h => ?_, _, rfl⟩
    have hrange := h.nanos
    omega
  · simp only [Bool.or_eq_true, Bool.and_eq_true, decide_eq_true_eq] at hsign
    refine .inr ⟨fun h => ?_, _, rfl⟩
    have hmatch := h.sign
    omega
  · simp only [Bool.or_eq_true, Bool.and_eq_true, decide_eq_true_eq] at hseconds hnanos hsign
    exact .inl ⟨⟨by omega, by omega, by omega⟩, rfl⟩

/-! ## The fraction -/

/-- On digits the loop is that of a timestamp. -/
theorem durationNanos_digits {digits : Bytes} (h : ∀ c ∈ digits, IsDigitOf 10 c)
    (scale nanos : Int) : durationNanos scale nanos digits = fractionNanos scale nanos digits := by
  induction digits generalizing scale nanos with
  | nil => rfl
  | cons c rest ih =>
      obtain ⟨hc, hrest⟩ := List.forall_mem_cons.mp h
      have hdigit : (!isDigit c) = false := by rw [(isDigit_iff c).mpr hc, Bool.not_true]
      simp only [durationNanos, fractionNanos, hdigit, ih hrest, Bool.false_eq_true, if_false]

/-- The loop stays in its integer type up to the character that is no digit. -/
theorem durationNanos_error {room value : Nat} {digits : Bytes}
    (h : ¬ ∀ c ∈ digits, IsDigitOf 10 c) (hlength : digits.length ≤ room)
    (hroom : (value + 1) * 10 ^ room ≤ 10 ^ 9) :
    durationNanos ((10 ^ room / 10 : Nat) : Int) ((value * 10 ^ room : Nat) : Int) digits
      = .error (.error .invalidDuration) := by
  induction digits generalizing room value with
  | nil => exact absurd (fun c hc => absurd hc List.not_mem_nil) h
  | cons c rest ih =>
      obtain ⟨room, rfl⟩ : ∃ n, room = n + 1 :=
        Nat.exists_eq_add_one.mpr (Nat.lt_of_lt_of_le (Nat.succ_pos _) hlength)
      by_cases hdigit : isDigit c = true
      · have hc := (isDigit_iff c).mp hdigit
        have hrest : ¬ ∀ c ∈ rest, IsDigitOf 10 c :=
          fun hrest => h (List.forall_mem_cons.mpr ⟨hc, hrest⟩)
        obtain ⟨hpart, hnanos, hscale, hnext⟩ := fraction_step hc hroom
        simp only [durationNanos, hdigit, hpart, hnanos, hscale, Bind.bind, Except.bind,
          Bool.not_true, Bool.false_eq_true, if_false]
        exact ih hrest (Nat.le_of_succ_le_succ hlength) hnext
      · simp [durationNanos, hdigit]

theorem parseFraction_reads {fraction : Option Bytes} {nanos : Int}
    (h : ReadsFraction fraction nanos) : parseFraction fraction = .ok nanos := by
  cases h with
  | none => rfl
  | @some digits nanos h =>
      have hcheck : ¬ (digits.length == 0 || decide (digits.length > 9)) = true := by
        have hpos := List.length_pos_iff.mpr h.nonempty
        have hwithin := h.within
        simp only [Bool.or_eq_true, beq_iff_eq, decide_eq_true_eq]
        omega
      rw [parseFraction, if_neg hcheck, durationNanos_digits h.all,
        fractionNanos_digits h.all h.within, h.value]

theorem parseFraction_outcome (fraction : Option Bytes) :
    (∃ nanos, ReadsFraction fraction nanos)
      ∨ parseFraction fraction = .error (.error .invalidDuration) := by
  cases fraction with
  | none => exact .inl ⟨0, .none⟩
  | some digits =>
      by_cases hcheck : (digits.length == 0 || decide (digits.length > 9)) = true
      · exact .inr (by rw [parseFraction, if_pos hcheck])
      · obtain ⟨hne, hwithin⟩ : digits.length ≠ 0 ∧ digits.length ≤ 9 := by simpa using hcheck
        by_cases hall : ∀ c ∈ digits, IsDigitOf 10 c
        · exact .inl ⟨_, .some ⟨List.length_pos_iff.mp (Nat.pos_of_ne_zero hne), hwithin, hall, rfl⟩⟩
        · refine .inr ?_
          rw [parseFraction, if_neg hcheck]
          exact @durationNanos_error 9 0 digits hall hwithin (by decide)

/-! ## The numbers -/

theorem negateIf_apply {type : IntegerType} (sign : Sign) {value : Int}
    (hlow : type.low ≤ -value) (hhigh : -value ≤ type.high) :
    negateIf type (decide (sign = .minus)) value = .ok (sign.apply value) := by
  rw [negateIf, Sign.apply]
  by_cases hminus : sign = .minus
  · rw [if_pos (decide_eq_true hminus), if_pos hminus, fit_eq hlow hhigh]
  · rw [if_neg (by simpa using hminus), if_neg hminus]

/-- The duration of the parts, if it is one. -/
theorem parseNumbers_reads {parts : Parts} {number nanos : Int} (h : parts.Reads number nanos)
    (hnumber : number ≤ 2 ^ 63 - 1) :
    parseNumbers (decide (parts.sign = .minus)) parts.seconds parts.fraction = (do
      let out : Duration :=
        { seconds := parts.sign.apply number, nanos := parts.sign.apply nanos }
      out.validate
      return out) := by
  have hbounds := h.fraction.bounds
  have hnonneg : 0 ≤ number := by
    rw [h.seconds.value]
    exact Int.natCast_nonneg _
  have hlength : parts.seconds.length ≠ 0 := fun heq => h.nonempty (List.length_eq_zero_iff.mp heq)
  have hseconds : parseField .invalidDuration .i64 parts.seconds = .ok number :=
    (parseField_iff ⟨by decide, by decide⟩).mpr ⟨((numeral_iff hlength).mp h.seconds).1.signed,
      ⟨Int.le_trans (by decide) hnonneg, hnumber⟩⟩
  have hnanos := parseFraction_reads h.fraction
  have hlow : IntegerType.i64.low ≤ -number := by
    show -2 ^ 63 ≤ -number
    omega
  have hhigh : -number ≤ IntegerType.i64.high := by
    show -number ≤ 2 ^ 63 - 1
    omega
  have hlowNanos : IntegerType.i32.low ≤ -nanos := by
    show -2 ^ 31 ≤ -nanos
    omega
  have hhighNanos : -nanos ≤ IntegerType.i32.high := by
    show -nanos ≤ 2 ^ 31 - 1
    omega
  have hnegated := negateIf_apply parts.sign hlow hhigh
  have hnegatedNanos := negateIf_apply parts.sign hlowNanos hhighNanos
  simp only [parseNumbers, hseconds, hnanos, hnegated, hnegatedNanos, Bind.bind, Except.bind]

theorem parseNumbers_outcome (negative : Bool) {secText : Bytes} (hne : secText ≠ [])
    (hsign : ¬ HasSign secText) (frac : Option Bytes) :
    (∃ number nanos, Numeral secText.length secText number ∧ ReadsFraction frac nanos
        ∧ number ≤ 2 ^ 63 - 1)
      ∨ parseNumbers negative secText frac = .error (.error .invalidDuration) := by
  rcases parseField_outcome .invalidDuration .i64 secText with ⟨number, hnumber⟩ | herror
  swap
  · exact .inr (by rw [parseNumbers, herror]; rfl)
  rcases parseFraction_outcome frac with ⟨nanos, hnanos⟩ | herror
  swap
  · exact .inr (by rw [parseNumbers, hnumber, herror]; rfl)
  obtain ⟨hsigned, hcontains⟩ := (parseField_iff ⟨by decide, by decide⟩).mp hnumber
  have hlength : secText.length ≠ 0 := fun heq => hne (List.length_eq_zero_iff.mp heq)
  exact .inl ⟨number, nanos, (numeral_iff hlength).mpr ⟨⟨rfl, hsigned⟩, hsign⟩, hnanos,
    hcontains.2⟩

/-! ## The payload -/

/-- What is read as the seconds. -/
def secondsText (unquoted : Bytes) : Bytes :=
  (behindSign unquoted.dropLast).takeWhile (· != 0x2e)

theorem takeWhile_append_behindPoint (body : Bytes) :
    body.takeWhile (· != 0x2e) ++ fractionText (behindPoint body) = body := by
  induction body with
  | nil => rfl
  | cons c rest ih =>
      by_cases hpoint : c = 0x2e
      · subst hpoint
        rfl
      · have hc : (c != 0x2e) = true := bne_iff_ne.mpr hpoint
        have hbehind : behindPoint (c :: rest) = behindPoint rest := by
          rw [behindPoint, List.dropWhile_cons, if_pos hc, behindPoint]
        rw [List.takeWhile_cons, if_pos hc, hbehind, List.cons_append, ih]

/-- The point is the first one. -/
theorem splitPoint {seconds : Bytes} (h : ∀ c ∈ seconds, IsDigitOf 10 c) (fraction : Option Bytes) :
    (seconds ++ fractionText fraction).takeWhile (· != 0x2e) = seconds
      ∧ behindPoint (seconds ++ fractionText fraction) = fraction := by
  have hall : ∀ c ∈ seconds, (c != 0x2e) = true := by
    intro c hc
    refine bne_iff_ne.mpr fun heq => ?_
    exact absurd (heq ▸ h c hc) (by decide)
  rw [List.takeWhile_append_of_pos hall, behindPoint, List.dropWhile_append_of_pos hall]
  cases fraction with
  | none => exact ⟨List.append_nil _, rfl⟩
  | some digits => exact ⟨List.append_nil _, rfl⟩

theorem exists_sign (body : Bytes) :
    ∃ sign : Sign, body = sign.text ++ behindSign body
      ∧ (body.head? == some 0x2d) = decide (sign = .minus) := by
  cases body with
  | nil => exact ⟨.none, rfl, rfl⟩
  | cons c rest =>
      by_cases hminus : c = 0x2d
      · exact ⟨.minus, by subst hminus; rfl, by subst hminus; rfl⟩
      · by_cases hplus : c = 0x2b
        · exact ⟨.plus, by subst hplus; rfl, by subst hplus; rfl⟩
        · exact ⟨.none, by simp [Sign.text, behindSign, hminus, hplus], by simp [hminus]⟩

theorem behindSign_append (sign : Sign) {rest : Bytes}
    (h : ∀ c ∈ rest.head?, c ≠ 0x2b ∧ c ≠ 0x2d) :
    behindSign (sign.text ++ rest) = rest
      ∧ ((sign.text ++ rest).head? == some 0x2d) = decide (sign = .minus) := by
  cases sign with
  | none =>
      cases rest with
      | nil => exact ⟨rfl, rfl⟩
      | cons c rest =>
          obtain ⟨hplus, hminus⟩ := h c rfl
          exact ⟨by simp [Sign.text, behindSign, hminus, hplus], by simp [Sign.text, hminus]⟩
  | plus => exact ⟨rfl, rfl⟩
  | minus => exact ⟨rfl, rfl⟩

theorem parsePayload_parts {parts : Parts} {number nanos : Int} (h : parts.Reads number nanos) :
    parsePayload parts.text
      = parseNumbers (decide (parts.sign = .minus)) parts.seconds parts.fraction := by
  obtain ⟨htake, hbehind⟩ := splitPoint h.seconds.digits parts.fraction
  obtain ⟨c, rest, hseconds⟩ := List.exists_cons_of_ne_nil h.nonempty
  have hhead : ∀ d ∈ (parts.seconds ++ fractionText parts.fraction).head?, d ≠ 0x2b ∧ d ≠ 0x2d := by
    intro d hd
    rw [hseconds, List.cons_append, List.head?_cons] at hd
    obtain rfl : c = d := Option.some.inj hd
    have hc : IsDigitOf 10 c := h.seconds.digits c (hseconds ▸ List.mem_cons_self)
    exact (hc.mono (by decide)).ne_sign
  obtain ⟨hsign, hminus⟩ := behindSign_append parts.sign hhead
  have hlength : ¬ (decide (parts.text.length < 2) || parts.text.getLast? != some 0x73) = true := by
    rw [Parts.text, List.getLast?_concat, hseconds]
    simp only [List.length_append, List.length_cons, bne_self_eq_false, Bool.or_false,
      decide_eq_true_eq]
    omega
  have hbody : parts.text.dropLast
      = parts.sign.text ++ (parts.seconds ++ fractionText parts.fraction) := List.dropLast_concat
  have hnonempty : ¬ ((parts.seconds ++ fractionText parts.fraction).length == 0) = true := by
    rw [hseconds]
    simp
  have hsecondsLength : ¬ (parts.seconds.length == 0) = true := by
    rw [hseconds]
    simp
  rw [parsePayload, if_neg hlength]
  dsimp only
  rw [hbody, hsign, hminus, parseBody, if_neg hnonempty]
  dsimp only
  rw [htake, if_neg hsecondsLength, hbehind]

/-- A payload without a second sign and without underscores. -/
theorem parsePayload_outcome {text : Bytes} (h : ¬ HasSign (secondsText text)) :
    (∃ self, parsePayload text = .ok self ∧ Denotes text self)
      ∨ ∃ e, parsePayload text = .error (.error e) := by
  by_cases hlength : (decide (text.length < 2) || text.getLast? != some 0x73) = true
  · exact .inr ⟨_, by rw [parsePayload, if_pos hlength]⟩
  obtain ⟨sign, hbody, hminus⟩ := exists_sign text.dropLast
  have hrun : parsePayload text = parseBody (decide (sign = .minus)) (behindSign text.dropLast) := by
    rw [parsePayload, if_neg hlength]
    dsimp only
    rw [hminus]
  by_cases hempty : ((behindSign text.dropLast).length == 0) = true
  · exact .inr ⟨_, by rw [hrun, parseBody, if_pos hempty]⟩
  by_cases hseconds : ((secondsText text).length == 0) = true
  · exact .inr ⟨_, by rw [hrun, parseBody, if_neg hempty]; exact if_pos hseconds⟩
  have hnumbers : parsePayload text = parseNumbers (decide (sign = .minus)) (secondsText text)
      (behindPoint (behindSign text.dropLast)) := by
    rw [hrun, parseBody, if_neg hempty]
    exact if_neg hseconds
  have hne : secondsText text ≠ [] := by simpa using hseconds
  rcases parseNumbers_outcome (decide (sign = .minus)) hne h (behindPoint (behindSign text.dropLast))
    with ⟨number, nanos, hnumber, hnanos, hrange⟩ | herror
  swap
  · exact .inr ⟨_, hnumbers.trans herror⟩
  have hreads : (Parts.mk sign (secondsText text) (behindPoint (behindSign text.dropLast))).Reads
      number nanos := ⟨hne, hnumber, hnanos⟩
  have hlast : text.getLast? = some 0x73 := by
    simp only [Bool.or_eq_true, bne_iff_ne, not_or, not_not] at hlength
    exact hlength.2
  have htext : text = (Parts.mk sign (secondsText text) (behindPoint (behindSign text.dropLast))).text := by
    rw [Parts.text, secondsText, takeWhile_append_behindPoint, ← hbody]
    exact (List.dropLast_append_getLast? _ hlast).symm
  rw [hnumbers]
  rw [parseNumbers_reads hreads hrange]
  rcases validate_outcome { seconds := sign.apply number, nanos := sign.apply nanos } with
    ⟨hvalid, hok⟩ | ⟨-, e, herror⟩
  · exact .inl ⟨_, by simp only [hok, Bind.bind, Except.bind]; rfl, _, number, nanos, hreads, htext,
      rfl, hvalid⟩
  · exact .inr ⟨e, by simp only [herror, Bind.bind, Except.bind]⟩

theorem parsePayload_denotes {text : Bytes} {self : Duration} (h : Denotes text self) :
    parsePayload text = .ok self := by
  obtain ⟨parts, number, nanos, hreads, rfl, hself, hvalid⟩ := h
  have hrange : number ≤ 2 ^ 63 - 1 := by
    have hseconds := hvalid.seconds
    rw [hself] at hseconds
    dsimp only [Sign.apply] at hseconds
    split_ifs at hseconds <;> omega
  have hok : self.validate = .ok () := by
    rcases validate_outcome self with ⟨-, hok⟩ | ⟨hinvalid, -⟩
    · exact hok
    · exact absurd hvalid hinvalid
  rw [parsePayload_parts hreads, parseNumbers_reads hreads hrange]
  dsimp only
  rw [← hself, hok]
  rfl

/-! ## The grammar -/

/-- The reader returns a value or reports an error. -/
def Returns (text : Bytes) : Prop :=
  (∃ self, jsonParse text = .ok self) ∨ ∃ e, jsonParse text = .error (.error e)

/-- The reader accepts the text just if its payload is a duration, and returns that. -/
def AcceptsExactly (text : Bytes) : Prop :=
  ∀ self, jsonParse text = .ok self ↔
    ∃ payload, jsonStringPayload .invalidDuration text = .ok payload ∧ Denotes payload self

/-- Behind its first sign the seconds of the payload have no sign and no underscore. -/
def Plain (text : Bytes) : Prop :=
  ∀ payload, jsonStringPayload .invalidDuration text = .ok payload → ¬ HasSign (secondsText payload)

theorem jsonParse_denotes {text : Bytes} {self : Duration}
    (h : ∃ payload, jsonStringPayload .invalidDuration text = .ok payload ∧ Denotes payload self) :
    jsonParse text = .ok self := by
  obtain ⟨payload, hpayload, hdenotes⟩ := h
  rw [jsonParse, hpayload]
  exact parsePayload_denotes hdenotes

theorem jsonParse_plain {text : Bytes} (h : Plain text) : Returns text ∧ AcceptsExactly text := by
  rcases jsonStringPayload_outcome .invalidDuration text with ⟨payload, hpayload⟩ | herror
  swap
  · have hrun : jsonParse text = .error (.error .invalidDuration) := by
      rw [jsonParse, herror]
      rfl
    refine ⟨.inr ⟨_, hrun⟩, fun self => ⟨fun hself => ?_, jsonParse_denotes⟩⟩
    cases hrun.symm.trans hself
  have hrun : jsonParse text = parsePayload payload := by
    rw [jsonParse, hpayload]
    rfl
  rcases parsePayload_outcome (h payload hpayload) with ⟨self, hself, hdenotes⟩ | ⟨e, herror⟩
  · refine ⟨.inl ⟨self, hrun.trans hself⟩, fun other => ⟨fun hother => ?_, jsonParse_denotes⟩⟩
    obtain rfl : self = other := Except.ok.inj ((hrun.trans hself).symm.trans hother)
    exact ⟨payload, hpayload, hdenotes⟩
  · refine ⟨.inr ⟨e, hrun.trans herror⟩, fun self => ⟨fun hself => ?_, jsonParse_denotes⟩⟩
    cases (hrun.trans herror).symm.trans hself

/-- A plus sign is taken as well. -/
theorem plus_accepted :
    jsonParse (ascii "\"+3.250s\"") = .ok { seconds := 3, nanos := 250000000 }
      ∧ ¬ ∀ (text : Bytes) (self : Duration), jsonParse text = .ok self →
        ∃ (payload : Bytes) (parts : Parts) (number nanos : Int),
          jsonStringPayload .invalidDuration text = .ok payload ∧ payload = parts.text
            ∧ parts.Reads number nanos ∧ parts.sign ≠ .plus := by
  have hrun : jsonParse (ascii "\"+3.250s\"") = .ok { seconds := 3, nanos := 250000000 } := by
    decide
  refine ⟨hrun, fun hall => ?_⟩
  obtain ⟨payload, parts, number, nanos, hpayload, htext, hreads, hsign⟩ := hall _ _ hrun
  have hsame : jsonStringPayload .invalidDuration (ascii "\"+3.250s\"") = .ok (ascii "+3.250s") := by
    decide
  obtain rfl : payload = ascii "+3.250s" := Except.ok.inj (hpayload.symm.trans hsame)
  -- the seconds would begin with the plus sign
  have hhead : (ascii "+3.250s").head? = some 0x2b := by decide
  obtain ⟨c, rest, hseconds⟩ := List.exists_cons_of_ne_nil hreads.nonempty
  have hc : IsDigitOf 10 c := hreads.seconds.digits c (hseconds ▸ List.mem_cons_self)
  rw [htext, Parts.text, hseconds] at hhead
  cases hcase : parts.sign with
  | none =>
      rw [hcase] at hhead
      obtain rfl : c = 0x2b := Option.some.inj hhead
      exact absurd hc (by decide)
  | plus => exact hsign hcase
  | minus =>
      rw [hcase] at hhead
      cases hhead

/-! ## The round trip -/

theorem exists_fraction {nanos : Int} (h : -999999999 ≤ nanos ∧ nanos ≤ 999999999) :
    ∃ fraction, ReadsFraction fraction nanos.natAbs
      ∧ writeFraction nanos = .ok (fractionText fraction) := by
  by_cases hzero : nanos = 0
  · exact ⟨none, by rw [hzero]; exact .none, by rw [hzero]; rfl⟩
  · obtain ⟨digits, hdigits, hwrite⟩ := @castFraction_eq nanos.natAbs (by omega)
    exact ⟨some digits, .some hdigits, by rw [writeFraction, if_pos (bne_iff_ne.mpr hzero), hwrite]; rfl⟩

theorem Parts.Reads.not_mem_backslash {parts : Parts} {number nanos : Int}
    (h : parts.Reads number nanos) : 0x5c ∉ parts.text := by
  have hsign : 0x5c ∉ parts.sign.text := by
    cases parts.sign <;> decide
  simp [Parts.text, hsign, h.seconds.not_mem_backslash, h.fraction.not_mem_backslash]

/-- The text of a duration is a spelling of it between quotes. -/
theorem jsonStringify_eq {self : Duration} (h : self.Valid) :
    ∃ payload, self.jsonStringify = .ok (0x22 :: (payload ++ [0x22])) ∧ 0x5c ∉ payload
      ∧ Denotes payload self := by
  obtain ⟨fraction, hfraction, hwrite⟩ := exists_fraction h.nanos
  have hok : self.validate = .ok () := by
    rcases validate_outcome self with ⟨-, hok⟩ | ⟨hinvalid, -⟩
    · exact hok
    · exact absurd h hinvalid
  have hdigits := decimalDigits_numeral self.seconds.natAbs
  have hne : decimalDigits self.seconds.natAbs ≠ [] :=
    List.map_eq_nil_iff.not.mpr (Nat.toDigits_ne_nil)
  obtain ⟨sign, hsign⟩ : ∃ sign : Sign,
      sign = if self.seconds < 0 ∨ self.nanos < 0 then .minus else .none := ⟨_, rfl⟩
  have hreads : (Parts.mk sign (decimalDigits self.seconds.natAbs) fraction).Reads
      self.seconds.natAbs self.nanos.natAbs := ⟨hne, hdigits, hfraction⟩
  have hsignText : (if self.seconds < 0 || self.nanos < 0 then [0x2d] else []) = sign.text := by
    rw [hsign]
    by_cases hnegative : self.seconds < 0 ∨ self.nanos < 0
    · rw [if_pos hnegative, if_pos (by simpa using hnegative)]
      rfl
    · rw [if_neg hnegative, if_neg (by simpa using hnegative)]
      rfl
  have hself : self
      = Duration.mk (sign.apply self.seconds.natAbs) (sign.apply self.nanos.natAbs) := by
    have hmatch := h.sign
    have hboth : self.seconds = sign.apply self.seconds.natAbs
        ∧ self.nanos = sign.apply self.nanos.natAbs := by
      rw [hsign]
      by_cases hnegative : self.seconds < 0 ∨ self.nanos < 0
      · rw [if_pos hnegative]
        simp only [Sign.apply, if_true]
        omega
      · rw [if_neg hnegative]
        simp only [Sign.apply, reduceCtorEq, if_false]
        omega
    calc self = Duration.mk self.seconds self.nanos := rfl
      _ = Duration.mk (sign.apply self.seconds.natAbs) (sign.apply self.nanos.natAbs) :=
          congrArg₂ Duration.mk hboth.1 hboth.2
  refine ⟨_, ?_, hreads.not_mem_backslash, _, _, _, hreads, rfl, hself, h⟩
  rw [jsonStringify, hok]
  simp only [hsignText, hwrite, Bind.bind, Except.bind, Parts.text, List.append_assoc]
  rfl

/-- What is printed for a duration is read as that duration; unless there is a second sign or an
underscore, the reader takes just the durations with at most one sign, which may be a plus. -/
theorem jsonParse_exact :
    (∀ self : Duration, self.Valid → ∃ text, self.jsonStringify = .ok text ∧ jsonParse text = .ok self)
      ∧ ∀ text, Plain text → Returns text ∧ AcceptsExactly text := by
  refine ⟨fun self h => ?_, fun text => jsonParse_plain⟩
  obtain ⟨payload, htext, hslash, hdenotes⟩ := jsonStringify_eq h
  exact ⟨_, htext,
    jsonParse_denotes ⟨payload, jsonStringPayload_quoted .invalidDuration hslash, hdenotes⟩⟩

/-- Minus a quarter of a second, and a sign in the fraction. -/
theorem jsonParse_exact_quarter :
    (∃ text, (Duration.mk 0 (-250000000)).jsonStringify = .ok text
        ∧ jsonParse text = .ok (Duration.mk 0 (-250000000)))
      ∧ Returns (ascii "\"1.-5s\"") ∧ AcceptsExactly (ascii "\"1.-5s\"") := by
  refine ⟨jsonParse_exact.1 (Duration.mk 0 (-250000000)) ⟨by decide, by decide, by decide⟩,
    jsonParse_exact.2 (ascii "\"1.-5s\"") fun payload hpayload => ?_⟩
  have hsame : jsonStringPayload .invalidDuration (ascii "\"1.-5s\"") = .ok (ascii "1.-5s") := by
    decide
  obtain rfl : payload = ascii "1.-5s" := Except.ok.inj (hpayload.symm.trans hsame)
  have hseconds : secondsText (ascii "1.-5s") = ascii "1" := by decide
  rw [hseconds, HasSign]
  decide

end Duration

end Wkt

end Pbz
