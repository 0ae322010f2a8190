import Pbz.Json.Scalars

set_option autoImplicit false

/-! # Integers in JSON strings

A JSON string stands for an integer if it is an optional minus sign followed by decimal digits.
`std.fmt.parseInt` also takes a plus sign, and underscores between the digits. What it accepts is
found by following the magnitude: it never shrinks, so a step that leaves the type is never made
good by a later one.
-/

namespace Pbz

namespace Json

/-- The text is an optional minus sign and at least one decimal digit, and denotes the integer. -/
inductive DecimalInteger : Bytes → Int → Prop where
  | natural {digits : Bytes} (hne : digits ≠ []) (hdigits : ∀ c ∈ digits, IsDigitOf 10 c) :
      DecimalInteger digits (digitsNumber 10 0 digits)
  | negative {digits : Bytes} (hne : digits ≠ []) (hdigits : ∀ c ∈ digits, IsDigitOf 10 c) :
      DecimalInteger (0x2d :: digits) (-digitsNumber 10 0 digits)

/-- Decimal digits with underscores between them. -/
structure SeparatedDigits (body : Bytes) : Prop where
  nonempty : body ≠ []
  head : body.head? ≠ some 0x5f
  last : body.getLast? ≠ some 0x5f
  digits : ∀ c ∈ body, c = 0x5f ∨ IsDigitOf 10 c

/-- The number that the digits write, without the underscores. -/
def separatedNumber (body : Bytes) : Nat := digitsNumber 10 0 (body.filter (· != 0x5f))

/-- A decimal integer with a sign of either kind and underscores between its digits. -/
inductive SignedDigits : Bytes → Int → Prop where
  | plain {body : Bytes} (h : SeparatedDigits body) : SignedDigits body (separatedNumber body)
  | plus {body : Bytes} (h : SeparatedDigits body) :
      SignedDigits (0x2b :: body) (separatedNumber body)
  | minus {body : Bytes} (h : SeparatedDigits body) :
      SignedDigits (0x2d :: body) (-separatedNumber body)

/-! ## What `parseInt` accepts -/

variable {type : IntegerType} {negative : Bool}

/-- The integer of a magnitude. -/
def withSign (negative : Bool) (magnitude : Nat) : Int :=
  if negative then -magnitude else magnitude

theorem withSign_step (negative : Bool) (magnitude digit : Nat) :
    (if negative then withSign negative magnitude * 10 - digit
      else withSign negative magnitude * 10 + digit)
      = withSign negative (magnitude * 10 + digit) := by
  cases negative
  · simp [withSign]
  · simp [withSign]
    omega

theorem isDigitOf_of_charToDigit : ∀ {c : UInt8} {digit : Nat},
    charToDigit c 10 = some digit → IsDigitOf 10 c := by
  have h : ∀ c : UInt8, (charToDigit c 10).isSome → IsDigitOf 10 c :=
    forall_byte (by decide)
  exact fun {c _} hchar => h c (by rw [hchar]; rfl)

/-- A type that holds a magnitude under a sign holds every smaller one. -/
theorem contains_of_le {smaller magnitude : Nat} (hzero : type.Contains 0)
    (h : type.Contains (withSign negative magnitude)) (hle : smaller ≤ magnitude) :
    type.Contains (withSign negative smaller) := by
  obtain ⟨hlow, hhigh⟩ := h
  obtain ⟨hzeroLow, hzeroHigh⟩ := hzero
  cases negative
  · simp only [withSign, Bool.false_eq_true, if_false] at *
    exact ⟨by omega, by omega⟩
  · simp only [withSign, if_true] at *
    exact ⟨by omega, by omega⟩

/-- A digit is appended just if the type holds the new magnitude: when the product fits already
and the sum does not, the sum is what fails. -/
theorem appendDecimal_eq (hzero : type.Contains 0) (magnitude digit : Nat) :
    appendDecimal type negative (withSign negative magnitude) digit
      = type.cast (withSign negative (magnitude * 10 + digit)) := by
  unfold appendDecimal
  by_cases hmagnitude : withSign negative magnitude = 0
  · rw [← withSign_step, hmagnitude]
    simp
  · rw [if_pos (bne_iff_ne.mpr hmagnitude)]
    by_cases hcontains : type.Contains (withSign negative (magnitude * 10 + digit))
    · have hten : withSign negative magnitude * 10 = withSign negative (magnitude * 10) := by
        cases negative
        · simp [withSign]
        · simp [withSign]
      have hproduct : type.cast (withSign negative magnitude * 10)
          = some (withSign negative magnitude * 10) :=
        cast_eq_some_iff.mpr ⟨hten ▸ contains_of_le hzero hcontains (Nat.le_add_right _ _), rfl⟩
      rw [hproduct, Option.bind_some, withSign_step]
    · have hsum : type.cast (withSign negative (magnitude * 10 + digit)) = none := if_neg hcontains
      cases hcast : type.cast (withSign negative magnitude * 10) with
      | none => rw [hsum]; rfl
      | some value =>
          obtain ⟨-, rfl⟩ := cast_eq_some_iff.mp hcast
          rw [Option.bind_some, withSign_step]

/-- The loop goes on behind a digit if the type holds the new magnitude. -/
theorem accumulateDecimal_digit (hzero : type.Contains 0) {magnitude : Nat} {c : UInt8}
    (hunderscore : c ≠ 0x5f) (hdigit : IsDigitOf 10 c)
    (hcontains : type.Contains (withSign negative (magnitude * 10 + digitValue c)))
    (rest : Bytes) :
    accumulateDecimal type negative (withSign negative magnitude) (c :: rest)
      = accumulateDecimal type negative (withSign negative (magnitude * 10 + digitValue c))
          rest := by
  have hchar : charToDigit c 10 = some (digitValue c) := hdigit
  rw [accumulateDecimal, if_neg (mt beq_iff_eq.mp hunderscore), hchar]
  simp [appendDecimal_eq hzero, cast_eq_some_iff.mpr ⟨hcontains, rfl⟩]

theorem accumulateDecimal_overflow (hzero : type.Contains 0) {magnitude : Nat} {c : UInt8}
    (hunderscore : c ≠ 0x5f) (hdigit : IsDigitOf 10 c)
    (hcontains : ¬ type.Contains (withSign negative (magnitude * 10 + digitValue c)))
    (rest : Bytes) :
    accumulateDecimal type negative (withSign negative magnitude) (c :: rest)
      = .error .overflow := by
  have hchar : charToDigit c 10 = some (digitValue c) := hdigit
  have hnone : type.cast (withSign negative (magnitude * 10 + digitValue c)) = none :=
    if_neg hcontains
  rw [accumulateDecimal, if_neg (mt beq_iff_eq.mp hunderscore), hchar]
  simp [appendDecimal_eq hzero, hnone]

/-- The loop succeeds just if every character is a digit or an underscore and the type holds the
number that the digits write behind the ones read. -/
theorem accumulateDecimal_iff (hzero : type.Contains 0) {magnitude : Nat} {body : Bytes}
    {result : Int} (hmagnitude : type.Contains (withSign negative magnitude)) :
    accumulateDecimal type negative (withSign negative magnitude) body = .ok result ↔
      (∀ c ∈ body, c = 0x5f ∨ IsDigitOf 10 c) ∧
        type.Contains (withSign negative (digitsNumber 10 magnitude (body.filter (· != 0x5f)))) ∧
        result = withSign negative (digitsNumber 10 magnitude (body.filter (· != 0x5f))) := by
  induction body generalizing magnitude with
  | nil =>
      show Except.ok _ = Except.ok result ↔ _
      simp [digitsNumber, hmagnitude, eq_comm]
  | cons c rest ih =>
      by_cases hc : c = 0x5f
      · subst hc
        have hstep : accumulateDecimal type negative (withSign negative magnitude) (0x5f :: rest)
            = accumulateDecimal type negative (withSign negative magnitude) rest := rfl
        rw [hstep, ih hmagnitude]
        simp
      · have hkeep : (c :: rest).filter (· != 0x5f) = c :: rest.filter (· != 0x5f) := by
          simp [hc]
        by_cases hdigit : IsDigitOf 10 c
        · have hnumber : digitsNumber 10 magnitude (c :: rest.filter (· != 0x5f))
              = digitsNumber 10 (magnitude * 10 + digitValue c) (rest.filter (· != 0x5f)) := rfl
          rw [hkeep, hnumber, List.forall_mem_cons]
          by_cases hcontains : type.Contains (withSign negative (magnitude * 10 + digitValue c))
          · rw [accumulateDecimal_digit hzero hc hdigit hcontains, ih hcontains]
            simp [hdigit]
          · -- the magnitude only grows, so the whole number is out of range too
            rw [accumulateDecimal_overflow hzero hc hdigit hcontains]
            constructor
            · intro h
              cases h
            · rintro ⟨-, hall, -⟩
              exact absurd (contains_of_le hzero hall (le_digitsNumber (by decide))) hcontains
        · have hnone : charToDigit c 10 = none := by
            cases hchar : charToDigit c 10 with
            | none => rfl
            | some digit => exact absurd (isDigitOf_of_charToDigit hchar) hdigit
          have hstep : accumulateDecimal type negative (withSign negative magnitude) (c :: rest)
              = .error .invalidCharacter := by
            rw [accumulateDecimal, if_neg (mt beq_iff_eq.mp hc), hnone]
          rw [hstep, List.forall_mem_cons]
          simp [hc, hdigit]

theorem parseDecimalWithSign_iff (hzero : type.Contains 0) {body : Bytes} {result : Int} :
    parseDecimalWithSign type negative body = .ok result ↔
      SeparatedDigits body ∧ type.Contains (withSign negative (separatedNumber body)) ∧
        result = withSign negative (separatedNumber body) := by
  have hstart : withSign negative 0 = 0 := by cases negative <;> rfl
  have hloop : accumulateDecimal type negative (withSign negative 0) body = .ok result ↔
      (∀ c ∈ body, c = 0x5f ∨ IsDigitOf 10 c)
        ∧ type.Contains (withSign negative (separatedNumber body))
        ∧ result = withSign negative (separatedNumber body) :=
    accumulateDecimal_iff hzero (by rw [hstart]; exact hzero)
  rw [hstart] at hloop
  unfold parseDecimalWithSign
  by_cases hempty : body = []
  · subst hempty
    constructor
    · intro h
      cases h
    · exact fun h => absurd rfl h.1.nonempty
  · rw [if_neg (by simpa using hempty)]
    by_cases hends : body.head? = some 0x5f ∨ body.getLast? = some 0x5f
    · rw [if_pos (by simpa using hends)]
      constructor
      · intro h
        cases h
      · exact fun h => absurd hends (not_or.mpr ⟨h.1.head, h.1.last⟩)
    · rw [if_neg (by simpa using hends), hloop]
      obtain ⟨hhead, hlast⟩ := not_or.mp hends
      constructor
      · exact fun ⟨hdigits, hvalue⟩ => ⟨⟨hempty, hhead, hlast, hdigits⟩, hvalue⟩
      · exact fun ⟨hbody, hvalue⟩ => ⟨hbody.digits, hvalue⟩

theorem SeparatedDigits.ne_sign {c : UInt8} {rest : Bytes} (h : SeparatedDigits (c :: rest)) :
    c ≠ 0x2b ∧ c ≠ 0x2d := by
  rcases h.digits c List.mem_cons_self with rfl | hc
  · decide
  · exact (hc.mono (by decide)).ne_sign

/-- `parseInt` accepts the signed digits whose integer the type holds, and returns it. -/
theorem parseDecimal_iff (hzero : type.Contains 0) {text : Bytes} {result : Int} :
    parseDecimal type text = .ok result ↔ SignedDigits text result ∧ type.Contains result := by
  have hsigned (negative : Bool) (body : Bytes) :
      parseDecimalWithSign type negative body = .ok result ↔
        (SeparatedDigits body ∧ result = withSign negative (separatedNumber body)) ∧
          type.Contains result := by
    rw [parseDecimalWithSign_iff hzero]
    constructor
    · rintro ⟨hbody, hcontains, rfl⟩
      exact ⟨⟨hbody, rfl⟩, hcontains⟩
    · rintro ⟨⟨hbody, rfl⟩, hcontains⟩
      exact ⟨hbody, hcontains, rfl⟩
  unfold parseDecimal
  split
  · next rest =>
    rw [hsigned]
    refine and_congr_left fun _ => ⟨fun ⟨hbody, hresult⟩ => hresult ▸ .plus hbody, fun h => ?_⟩
    cases h with
    | plain h => exact absurd rfl h.ne_sign.1
    | plus h => exact ⟨h, rfl⟩
  · next rest =>
    rw [hsigned]
    refine and_congr_left fun _ => ⟨fun ⟨hbody, hresult⟩ => hresult ▸ .minus hbody, fun h => ?_⟩
    cases h with
    | plain h => exact absurd rfl h.ne_sign.2
    | minus h => exact ⟨h, rfl⟩
  · next hplus hminus =>
    rw [hsigned]
    refine and_congr_left fun _ => ⟨fun ⟨hbody, hresult⟩ => hresult ▸ .plain hbody, fun h => ?_⟩
    cases h with
    | plain h => exact ⟨h, rfl⟩
    | plus h => exact absurd rfl (hplus _)
    | minus h => exact absurd rfl (hminus _)

/-! ## Strict integers -/

theorem separatedDigits_iff {body : Bytes} (h : 0x5f ∉ body) :
    SeparatedDigits body ↔ body ≠ [] ∧ ∀ c ∈ body, IsDigitOf 10 c := by
  constructor
  · exact fun hbody => ⟨hbody.nonempty, fun c hc =>
      (hbody.digits c hc).resolve_left (fun heq => h (heq ▸ hc))⟩
  · rintro ⟨hne, hdigits⟩
    exact ⟨hne, fun hhead => h (List.mem_of_head? hhead), fun hlast => h (List.mem_of_getLast? hlast),
      fun c hc => .inr (hdigits c hc)⟩

theorem separatedNumber_eq {body : Bytes} (h : 0x5f ∉ body) :
    separatedNumber body = digitsNumber 10 0 body := by
  have hfilter : body.filter (· != 0x5f) = body :=
    List.filter_eq_self.mpr (fun c hc => bne_iff_ne.mpr (fun heq => h (heq ▸ hc)))
  rw [separatedNumber, hfilter]

/-- The text has a plus sign in front, or an underscore. -/
def SpelledLoosely (text : Bytes) : Prop := text.head? = some 0x2b ∨ 0x5f ∈ text

/-- A decimal integer is a text of signed digits that is not spelled loosely. -/
theorem decimalInteger_iff {text : Bytes} {value : Int} :
    DecimalInteger text value ↔ SignedDigits text value ∧ ¬ SpelledLoosely text := by
  have hnone {digits : Bytes} (h : ∀ c ∈ digits, IsDigitOf 10 c) : 0x5f ∉ digits :=
    fun hmem => (h _ hmem).ne_underscore rfl
  constructor
  · intro h
    cases h with
    | @natural digits hne hdigits =>
        have hbody := (separatedDigits_iff (hnone hdigits)).mpr ⟨hne, hdigits⟩
        refine ⟨separatedNumber_eq (hnone hdigits) ▸ .plain hbody, ?_⟩
        rintro (hplus | hmem)
        · exact ((hdigits _ (List.mem_of_head? hplus)).mono (by decide)).ne_sign.1 rfl
        · exact hnone hdigits hmem
    | @negative digits hne hdigits =>
        have hbody := (separatedDigits_iff (hnone hdigits)).mpr ⟨hne, hdigits⟩
        refine ⟨separatedNumber_eq (hnone hdigits) ▸ .minus hbody, ?_⟩
        rintro (hplus | hmem)
        · cases hplus
        · exact hnone hdigits (by simpa using hmem)
  · rintro ⟨h, hstrict⟩
    have hunderscore : 0x5f ∉ text := fun hmem => hstrict (.inr hmem)
    cases h with
    | plain h =>
        obtain ⟨hne, hdigits⟩ := (separatedDigits_iff hunderscore).mp h
        exact separatedNumber_eq hunderscore ▸ .natural hne hdigits
    | plus h => exact absurd (.inl rfl) hstrict
    | @minus body h =>
        have hbody : 0x5f ∉ body := fun hmem => hunderscore (List.mem_cons_of_mem _ hmem)
        obtain ⟨hne, hdigits⟩ := (separatedDigits_iff hbody).mp h
        exact separatedNumber_eq hbody ▸ .negative hne hdigits

/-! ## The two entry points -/

theorem contains_zero {scalar : ScalarType} {type : IntegerType}
    (h : scalar.integerType = some type) : type.Contains 0 := by
  obtain ⟨-, hlow, hhigh, -⟩ := Parser.integerType_within h
  exact ⟨hlow, hhigh⟩

section

variable [Conversions]

/-- Where a string is read as an integer: as the value of a field or as the key of a map. -/
inductive IntegerEntry where
  | fieldValue
  | mapKey
  deriving DecidableEq, Repr

def IntegerEntry.parse (entry : IntegerEntry) (scalar : ScalarType) (text : Bytes) :
    Except Failure Value :=
  match entry with
  | .fieldValue => parseScalar scalar (.string text)
  | .mapKey => parseMapKey scalar text

/-- Both entry points read the string with `parseInt`. -/
theorem IntegerEntry.parse_eq {scalar : ScalarType} {type : IntegerType}
    (h : scalar.integerType = some type) (entry : IntegerEntry) (text : Bytes) :
    entry.parse scalar text = (parseDecimal type text).map (integerValue scalar) := by
  cases scalar <;> cases h <;> cases entry <;> rfl

/-- The string is accepted just if it is a decimal integer that the type holds, and then the value
is that integer. -/
def ReadsStrictly (entry : IntegerEntry) (scalar : ScalarType) (type : IntegerType)
    (text : Bytes) : Prop :=
  ∀ value, entry.parse scalar text = .ok value ↔
    ∃ integer, DecimalInteger text integer ∧ type.Contains integer
      ∧ value = integerValue scalar integer

/-- A string is read strictly unless it has a plus sign or an underscore and is an integer of the
type but for these. -/
theorem readsStrictly_iff {scalar : ScalarType} {type : IntegerType}
    (h : scalar.integerType = some type) (entry : IntegerEntry) (text : Bytes) :
    ReadsStrictly entry scalar type text ↔
      ¬ (SpelledLoosely text ∧ ∃ integer, SignedDigits text integer ∧ type.Contains integer) := by
  have hzero := contains_zero h
  have haccepts (value : Value) : entry.parse scalar text = .ok value ↔
      ∃ integer, (SignedDigits text integer ∧ type.Contains integer)
        ∧ value = integerValue scalar integer := by
    rw [IntegerEntry.parse_eq h]
    cases hparse : parseDecimal type text with
    | error e =>
        constructor
        · intro hvalue
          cases hvalue
        · rintro ⟨integer, hinteger, -⟩
          cases hparse.symm.trans ((parseDecimal_iff hzero).mpr hinteger)
    | ok result =>
        constructor
        · intro hvalue
          exact ⟨result, (parseDecimal_iff hzero).mp hparse, (Except.ok.inj hvalue).symm⟩
        · rintro ⟨integer, hinteger, rfl⟩
          cases hparse.symm.trans ((parseDecimal_iff hzero).mpr hinteger)
          rfl
  constructor
  · rintro hstrict ⟨hloose, integer, hinteger⟩
    obtain ⟨other, hother, -⟩ := (hstrict _).mp ((haccepts _).mpr ⟨integer, hinteger, rfl⟩)
    exact (decimalInteger_iff.mp hother).2 hloose
  · intro hcondition value
    rw [haccepts]
    constructor
    · rintro ⟨integer, ⟨hdigits, hcontains⟩, hvalue⟩
      have hstrict : ¬ SpelledLoosely text :=
        fun hloose => hcondition ⟨hloose, integer, hdigits, hcontains⟩
      exact ⟨integer, decimalInteger_iff.mpr ⟨hdigits, hstrict⟩, hcontains, hvalue⟩
    · rintro ⟨integer, hinteger, hcontains, hvalue⟩
      exact ⟨integer, ⟨(decimalInteger_iff.mp hinteger).1, hcontains⟩, hvalue⟩

end

/-- Conversions for runs that meet no float. -/
abbrev noConversions : Conversions where
  parseDouble _ := none
  parseSingle _ := none
  doubleFromInt _ := 0
  singleFromInt _ := 0
  singleFromDouble _ := 0

/-- `"1_0"` is ten and `"+5"` is five, as a field value and as a key. -/
theorem exists_loose_integer :
    @IntegerEntry.parse noConversions .fieldValue .int32 (ascii "1_0") = .ok (.int32 10) ∧
    @IntegerEntry.parse noConversions .mapKey .int32 (ascii "1_0") = .ok (.int32 10) ∧
    @IntegerEntry.parse noConversions .fieldValue .uint64 (ascii "+5") = .ok (.uint64 5) ∧
    ¬ @ReadsStrictly noConversions .fieldValue .int32 .i32 (ascii "1_0") ∧
    ¬ @ReadsStrictly noConversions .mapKey .int32 .i32 (ascii "1_0") ∧
    ¬ @ReadsStrictly noConversions .fieldValue .uint64 .u64 (ascii "+5") := by
  have htenLoose : SpelledLoosely (ascii "1_0") := .inr (by decide)
  have hten : SignedDigits (ascii "1_0") 10 ∧ IntegerType.i32.Contains 10 :=
    (parseDecimal_iff (@contains_zero .int32 _ rfl)).mp (by decide)
  have hfiveLoose : SpelledLoosely (ascii "+5") := .inl (by decide)
  have hfive : SignedDigits (ascii "+5") 5 ∧ IntegerType.u64.Contains 5 :=
    (parseDecimal_iff (@contains_zero .uint64 _ rfl)).mp (by decide)
  refine ⟨rfl, rfl, rfl, ?_, ?_, ?_⟩
  · rw [@readsStrictly_iff noConversions _ _ rfl, not_not]
    exact ⟨htenLoose, 10, hten⟩
  · rw [@readsStrictly_iff noConversions _ _ rfl, not_not]
    exact ⟨htenLoose, 10, hten⟩
  · rw [@readsStrictly_iff noConversions _ _ rfl, not_not]
    exact ⟨hfiveLoose, 5, hfive⟩

/-- A plain decimal integer is read strictly. -/
theorem readsStrictly_iff_minusFortyTwo :
    @ReadsStrictly noConversions .mapKey .sint32 .i32 (ascii "-42") ↔
      ¬ (SpelledLoosely (ascii "-42") ∧
        ∃ integer, SignedDigits (ascii "-42") integer ∧ IntegerType.i32.Contains integer) :=
  @readsStrictly_iff noConversions .sint32 .i32 rfl .mapKey (ascii "-42")

end Json

end Pbz
