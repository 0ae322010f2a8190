import Pbz.Parser.IntegerLiterals
import Pbz.Parser.Runs
import Pbz.Parser.ValidateFile

set_option autoImplicit false

/-! # Integer defaults

From the literal behind `default =` to the descriptor: how the parser reads it, what the field
records and what the check of the defaults makes of it.
-/

namespace Pbz

open Check Program

/-- The type of the values of an integer field. -/
def ScalarType.integerType : ScalarType → Option IntegerType
  | .int32 | .sint32 | .sfixed32 => some .i32
  | .int64 | .sint64 | .sfixed64 => some .i64
  | .uint32 | .fixed32 => some .u32
  | .uint64 | .fixed64 => some .u64
  | _ => none

/-- The integer that an option value is. -/
def OptionValue.toInteger : OptionValue → Option Int
  | .integer v => some v
  | .unsignedInteger v => some v
  | _ => none

def IntegerType.Contains (type : IntegerType) (value : Int) : Prop :=
  type.low ≤ value ∧ value ≤ type.high

theorem cast_eq_some_iff {type : IntegerType} {value result : Int} :
    type.cast value = some result ↔ type.Contains value ∧ result = value := by
  unfold IntegerType.cast IntegerType.Contains
  split
  · next h => simp [h, eq_comm]
  · next h => simp [h]

namespace Parser

/-! ## Reading the literal -/

/-- What makes the parser read a number as a float. -/
def isFloatMark (c : UInt8) : Bool := c == 0x2e || c == 0x65 || c == 0x45

/-- The integer that the parser reads off a number behind an optional minus sign. -/
def readInteger (negative : Bool) (text : Bytes) : Option Int :=
  if text.any isFloatMark then none
  else if negative then (parseI64 text).map (-·)
  else (parseU64 text).or (parseI64 text)

/-- What the literal denotes behind its sign. -/
def signedValue (negative : Bool) (value : Nat) : Int := if negative then -value else value

/-- The parser gets the literal wrong: it takes the digit `e` of a hexadecimal literal for an
exponent, it has no negation of `2 ^ 63`, or it reads an octal literal as a decimal one. -/
def Misread (form : LiteralForm) (negative : Bool) (text : Bytes) (value : Nat) : Prop :=
  (0x65 ∈ text ∨ 0x45 ∈ text) ∨
    negative = true ∧ (value = 2 ^ 63 ∨ form = .octal ∧ 8 ≤ value)

variable {form : LiteralForm} {negative : Bool} {text : Bytes} {value : Nat} {type : IntegerType}
  {scalar : ScalarType}

theorem integerType_within (h : scalar.integerType = some type) :
    -2 ^ 63 ≤ type.low ∧ type.low ≤ 0 ∧ 0 ≤ type.high ∧ type.high ≤ 2 ^ 64 - 1 := by
  cases scalar <;> cases h <;> decide

theorem any_isFloatMark_iff (h : Denotes form text value) :
    text.any isFloatMark = true ↔ 0x65 ∈ text ∨ 0x45 ∈ text := by
  have hpoint : 0x2e ∉ text := by
    intro hmem
    cases h with
    | decimal hfirst hdigit hrest =>
        exact absurd (List.forall_mem_cons.mpr ⟨hdigit, hrest⟩ _ hmem) (by decide)
    | octal hrest =>
        rcases List.mem_cons.mp hmem with heq | hmem
        · exact nomatch heq
        · exact absurd (hrest _ hmem) (by decide)
    | hexadecimal hx hdigit hrest =>
        rcases List.mem_cons.mp hmem with heq | hmem
        · exact nomatch heq
        · rcases List.mem_cons.mp hmem with heq | hmem
          · rw [← heq] at hx
            exact nomatch hx
          · exact absurd (List.forall_mem_cons.mpr ⟨hdigit, hrest⟩ _ hmem) (by decide)
  rw [List.any_eq_true]
  constructor
  · rintro ⟨c, hmem, hmark⟩
    rw [isFloatMark, Bool.or_eq_true, Bool.or_eq_true, beq_iff_eq, beq_iff_eq, beq_iff_eq] at hmark
    rcases hmark with (rfl | rfl) | rfl
    · exact absurd hmem hpoint
    · exact .inl hmem
    · exact .inr hmem
  · rintro (hmem | hmem)
    · exact ⟨_, hmem, rfl⟩
    · exact ⟨_, hmem, rfl⟩

theorem eq_of_cast {read : Int} (h : type.cast value = some read) : read = value := by
  unfold IntegerType.cast at h
  split at h
  · exact (Option.some.inj h).symm
  · exact nomatch h

theorem cast_natCast {value : Nat} (hlow : type.low ≤ 0) :
    type.cast (value : Int) = if (value : Int) ≤ type.high then some (value : Int) else none := by
  have hzero : type.low ≤ (value : Int) := by omega
  unfold IntegerType.cast
  simp only [hzero, true_and]

/-- What `parseI64` reads is the value, or more than that where it reads octal digits as decimal
ones. -/
theorem parseI64_reads (h : Denotes form text value) :
    ∃ read : Nat, parseI64 text = IntegerType.i64.cast read ∧ value ≤ read ∧
      (read = value ↔ ¬ (form = .octal ∧ 8 ≤ value)) := by
  by_cases hform : form = .octal
  · subst hform
    refine ⟨_, parseI64_of_octal h, ?_⟩
    obtain ⟨hsmall, hlarge⟩ := octal_read_decimal h
    by_cases hvalue : value < 8
    · have hread := hsmall hvalue
      exact ⟨Nat.le_of_eq hread.symm, iff_of_true hread (fun hlt => by omega)⟩
    · have hread := hlarge (by omega)
      exact ⟨Nat.le_of_lt hread, iff_of_false (by omega) (not_not.mpr ⟨rfl, by omega⟩)⟩
  · exact ⟨value, parseI64_of_not_octal h hform, Nat.le_refl value,
      iff_of_true rfl (fun hboth => hform hboth.1)⟩

/-- Where the literal is in the range of the type, that is what the parser reads exactly if it
does not misread it. -/
theorem readInteger_right_iff (h : Denotes form text value)
    (htype : scalar.integerType = some type) (hrange : type.Contains (signedValue negative value)) :
    readInteger negative text = some (signedValue negative value) ↔
      ¬ Misread form negative text value := by
  obtain ⟨hlow, -, -, hhigh⟩ := integerType_within htype
  unfold readInteger Misread
  by_cases hmark : text.any isFloatMark = true
  · rw [if_pos hmark]
    exact iff_of_false (fun h => nomatch h)
      (not_not.mpr (.inl ((any_isFloatMark_iff h).mp hmark)))
  rw [if_neg hmark, or_iff_right (mt (any_isFloatMark_iff h).mpr hmark)]
  cases negative with
  | false =>
      have hvalue : (value : Int) ≤ IntegerType.u64.high := Int.le_trans hrange.2 hhigh
      rw [if_neg Bool.false_ne_true, parseU64_of_denotes h, cast_natCast (by decide), if_pos hvalue]
      exact iff_of_true rfl (fun h => nomatch h.1)
  | true =>
      obtain ⟨read, hparse, hle, hread⟩ := parseI64_reads h
      have hvalue : -2 ^ 63 ≤ -(value : Int) := Int.le_trans hlow hrange.1
      rw [if_pos rfl, hparse, cast_natCast (by decide), and_iff_right rfl, not_or, ← hread]
      by_cases hfits : (read : Int) ≤ IntegerType.i64.high
      · rw [if_pos hfits]
        have hlt : (read : Int) ≤ 2 ^ 63 - 1 := hfits
        show some (-(read : Int)) = some (-(value : Int)) ↔ _
        rw [Option.some.injEq]
        omega
      · rw [if_neg hfits]
        have hlt : ¬ (read : Int) ≤ 2 ^ 63 - 1 := hfits
        exact iff_of_false (fun h => nomatch h) (by omega)

/-- Where the literal is out of the range of the type, so is what the parser reads. -/
theorem readInteger_out_of_range (h : Denotes form text value)
    (htype : scalar.integerType = some type)
    (hrange : ¬ type.Contains (signedValue negative value)) {read : Int}
    (hread : readInteger negative text = some read) : ¬ type.Contains read := by
  obtain ⟨-, hlow, hpos, hhigh⟩ := integerType_within htype
  obtain ⟨number, hparse, hle, -⟩ := parseI64_reads h
  unfold readInteger at hread
  split at hread
  · exact nomatch hread
  cases negative with
  | false =>
      have hvalue : ¬ (value : Int) ≤ type.high := fun hle => hrange ⟨by
        show type.low ≤ (value : Int)
        omega, hle⟩
      rw [if_neg Bool.false_ne_true, parseU64_of_denotes h, hparse, cast_natCast (by decide),
        cast_natCast (by decide)] at hread
      have hge : (value : Int) ≤ read := by
        split at hread
        · exact Int.le_of_eq (Option.some.inj hread)
        · split at hread
          · have := Option.some.inj hread
            omega
          · exact nomatch hread
      exact fun hcontains => hvalue (Int.le_trans hge hcontains.2)
  | true =>
      have hvalue : ¬ type.low ≤ -(value : Int) := fun hle => hrange ⟨hle, by
        show -(value : Int) ≤ type.high
        omega⟩
      rw [if_pos rfl, hparse, cast_natCast (by decide)] at hread
      have hge : read ≤ -(value : Int) := by
        split at hread
        · have : -(number : Int) = read := Option.some.inj hread
          omega
        · exact nomatch hread
      exact fun hcontains => hvalue (Int.le_trans hcontains.1 hge)

theorem optionInt_of_integer {result : OptionValue} {read : Int}
    (h : result.toInteger = some read) : optionInt type result = type.cast read := by
  cases result with
  | integer v =>
      cases h
      rfl
  | unsignedInteger v =>
      cases h
      rfl
  | identifier _ | string _ | float _ | boolean _ | aggregate _ => exact nomatch h

theorem cast_isNone_iff {read : Int} : (type.cast read).isNone = false ↔ type.Contains read := by
  rw [Option.isNone_eq_false_iff, Option.isSome_iff_exists]
  constructor
  · rintro ⟨result, h⟩
    exact (cast_eq_some_iff.mp h).1
  · exact fun h => ⟨read, cast_eq_some_iff.mpr ⟨h, rfl⟩⟩

/-! ## The option -/

variable {s s' : Parser}

/-- The name of an option and an equals sign stand at `s`, and `s'` is behind them. -/
def WritesOption (name : Bytes) (s s' : Parser) : Prop :=
  ∃ s₁, Takes (·.tag == .identifier) s s₁ ∧ Takes (·.isSymbol 0x3d) s₁ s' ∧
    trimSpace (s₁.slice s.current.start s₁.current.start) = name

theorem optionName_of_writes {name : Bytes} (rounds : Nat) (h : WritesOption name s s') :
    ∃ s₁, optionName 0x5d (rounds + 2) 0 s = .ok ((), s₁) ∧ Takes (·.isSymbol 0x3d) s₁ s' ∧
      trimSpace (s₁.slice s.current.start s₁.current.start) = name := by
  obtain ⟨s₁, hname, hequals, htext⟩ := h
  refine ⟨s₁, ?_, hequals, htext⟩
  have hget : ∀ s, (get : Parse Parser) s = .ok (s, s) := fun _ => rfl
  have htag : s.current.tag = .identifier := hname.tag
  have hnone : ∀ symbol, s.current.isSymbol symbol = false := fun symbol =>
    isSymbol_of_tag_ne (by rw [htag]; decide)
  have heof : ¬ (s.current.tag == .eof) = true := by
    rw [htag]
    decide
  have hstop : optionName 0x5d (rounds + 1) 0 s₁ = .ok ((), s₁) := by
    have heof : ¬ (s₁.current.tag == .eof) = true := by
      rw [(tag_of_isSymbol hequals.isSymbol).1]
      decide
    rw [optionName, bind_of_ok (hget s₁), if_neg heof, if_pos (by rw [hequals.isSymbol]; rfl)]
    rfl
  rw [optionName, bind_of_ok (hget s), if_neg heof, hnone 0x3d, hnone 0x5d, hnone 0x2c,
    hnone 0x28, hnone 0x29]
  exact (bind_of_ok hname.2).trans hstop

/-- The option `default` of a field. -/
def defaultOption (value : OptionValue) : FieldOption := { name := ascii "default", value := value }

/-- Applying the default records it. -/
theorem applyOptions_default (s : Parser) (field : FieldDescriptor) (value : OptionValue)
    (hnone : field.defaultValue = none) :
    applyOptions applyFieldOption [defaultOption value] field s =
      .ok ({ field with defaultValue := some value }, s) := by
  have hget : (get : Parse Parser) s = .ok (s, s) := rfl
  have hleaf : optionLeaf (defaultOption value).name = ascii "default" := by
    show optionLeaf (ascii "default") = ascii "default"
    decide
  have hnamed : applyNamedFieldOption s.file.fileSyntax field (defaultOption value) s =
      .ok ({ field with defaultValue := some value }, s) := by
    unfold applyNamedFieldOption
    rw [hleaf, if_pos (by decide), hnone]
    rfl
  have hfeatures : ∀ target, applyFeatureOption target (defaultOption value) s =
      .ok (target, s) := by
    intro target
    have hfeature : (!isFeatureOption (defaultOption value).name) = true := by
      show (!isFeatureOption (ascii "default")) = true
      decide
    unfold applyFeatureOption
    rw [if_pos hfeature]
    rfl
  have hencoding : ∀ field, encodingOverride field (defaultOption value) = field.packedOverride := by
    intro field
    unfold encodingOverride
    rw [hleaf, if_neg (by decide)]
  have happly : applyFieldOption field (defaultOption value) s =
      .ok ({ field with defaultValue := some value }, s) := by
    unfold applyFieldOption
    rw [bind_of_ok hget, bind_of_ok hnamed, bind_of_ok (hfeatures _), hencoding]
    rfl
  unfold applyOptions
  rw [bind_of_ok happly]
  rfl

variable [FloatConversions]

/-- A number stands at `s`, behind a minus sign if `negative` says so, and `s'` is behind it. -/
inductive WritesInteger : Parser → Bool → Bytes → Parser → Prop where
  | plain {s s' : Parser} (hnumber : Takes (·.tag == .number) s s') :
      WritesInteger s false s.current.text s'
  | minus {s s₁ s' : Parser} (hminus : Takes (·.isSymbol 0x2d) s s₁)
      (hnumber : Takes (·.tag == .number) s₁ s') : WritesInteger s true s₁.current.text s'

/-- `numberValue` behind the sign and the number. -/
def valueOfNumber (negative : Bool) (text : Bytes) : Parse OptionValue :=
  if text.any isFloatMark then do return .float (← liftError (signedFloat negative text))
  else integerValue negative text

theorem numberValue_eq (h : WritesInteger s negative text s') :
    numberValue s = valueOfNumber negative text s' := by
  have hbehind : ∀ {s : Parser} (negative : Bool), Takes (·.tag == .number) s s' →
      (do
        let self ← get
        if self.current.tag == .identifier then
          advanceVoid
          return .float (← liftError (parseSpecialFloat self.current.text negative))
        else
          let numberText ← expectNumber
          valueOfNumber negative numberText : Parse OptionValue) s =
        valueOfNumber negative s.current.text s' := by
    intro s negative hnumber
    have hget : (get : Parse Parser) s = .ok (s, s) := rfl
    have htag : s.current.tag = .number := hnumber.tag
    have hidentifier : ¬ (s.current.tag == .identifier) = true := by
      rw [htag]
      decide
    rw [bind_of_ok hget, if_neg hidentifier]
    exact bind_of_ok hnumber.expectTag
  cases h with
  | plain hnumber =>
      have htag : s.current.tag ≠ .symbol := by
        rw [hnumber.tag]
        decide
      have hsign : consumeSign s = .ok (false, s) := by
        unfold consumeSign
        rw [bind_of_ok (consumeSymbol_of_ne (isSymbol_of_tag_ne htag)),
          if_neg Bool.false_ne_true,
          bind_of_ok (consumeSymbol_of_ne (isSymbol_of_tag_ne htag))]
        rfl
      exact (bind_of_ok hsign).trans (hbehind false hnumber)
  | @minus s₁ _ hminus hnumber =>
      have hsign : consumeSign s = .ok (true, s₁) := by
        unfold consumeSign
        rw [bind_of_ok hminus.consumeSymbol]
        rfl
      exact (bind_of_ok hsign).trans (hbehind true hnumber)

/-- The value behind the sign and the number is the integer that is read, or else a float. -/
theorem valueOfNumber_cases (h : Denotes form text value) :
    (∃ read result, readInteger negative text = some read ∧ result.toInteger = some read ∧
      ∀ s, valueOfNumber negative text s = .ok (result, s)) ∨
    readInteger negative text = none ∧ ∀ s, valueOfNumber negative text s =
      (do return .float (← liftError (signedFloat negative text)) : Parse OptionValue) s := by
  unfold valueOfNumber readInteger
  by_cases hmark : text.any isFloatMark = true
  · rw [if_pos hmark, if_pos hmark]
    exact .inr ⟨rfl, fun _ => rfl⟩
  rw [if_neg hmark, if_neg hmark]
  obtain ⟨number, hparse, -⟩ := parseI64_reads h
  unfold integerValue
  cases negative with
  | false =>
      rw [if_neg Bool.false_ne_true, if_neg Bool.false_ne_true]
      cases hunsigned : parseU64 text with
      | some read =>
          have hread : read = value := eq_of_cast ((parseU64_of_denotes h).symm.trans hunsigned)
          by_cases hlarge : read > 2 ^ 63 - 1
          · refine .inl ⟨read, .unsignedInteger read.toNat, rfl, ?_, fun s => ?_⟩
            · show some ((read.toNat : Nat) : Int) = some read
              rw [Int.toNat_of_nonneg (by omega)]
            · dsimp only
              rw [if_pos hlarge]
              rfl
          · refine .inl ⟨read, .integer read, rfl, rfl, fun s => ?_⟩
            dsimp only
            rw [if_neg hlarge]
            rfl
      | none =>
          cases hsigned : parseI64 text with
          | some read => exact .inl ⟨read, .integer read, rfl, rfl, fun _ => rfl⟩
          | none => exact .inr ⟨rfl, fun _ => rfl⟩
  | true =>
      rw [if_pos rfl, if_pos rfl]
      cases hsigned : parseI64 text with
      | some read =>
          have hread : read = number := eq_of_cast (hparse.symm.trans hsigned)
          have hfits : FitsI64 (-read) := by
            have hle := (fitsI64_iff.mp (fits_of_parseI64 hsigned)).2
            exact fitsI64_iff.mpr ⟨by omega, by omega⟩
          exact .inl ⟨-read, .integer (-read), rfl, rfl,
            fun _ => bind_of_ok (checkedI64_of_fits hfits)⟩
      | none => exact .inr ⟨rfl, fun _ => rfl⟩

theorem parseOptionValue_eq {rounds : Nat} (h : WritesInteger s negative text s') :
    parseOptionValue rounds s = valueOfNumber negative text s' := by
  have hget : (get : Parse Parser) s = .ok (s, s) := rfl
  have htag : s.current.tag ≠ .stringLiteral ∧ s.current.tag ≠ .identifier ∧
      (s.current.tag == .number || s.current.isSymbol 0x2d || s.current.isSymbol 0x2b) = true := by
    cases h with
    | plain hnumber =>
        rw [hnumber.tag]
        exact ⟨by decide, by decide, rfl⟩
    | minus hminus hnumber =>
        rw [hminus.isSymbol, (tag_of_isSymbol hminus.isSymbol).1]
        exact ⟨by decide, by decide, rfl⟩
  unfold parseOptionValue
  rw [bind_of_ok hget, if_neg (mt beq_iff_eq.mp htag.1), if_neg (mt beq_iff_eq.mp htag.2.1),
    if_pos htag.2.2]
  exact numberValue_eq h

/-! ## The declaration -/

/-- A field declaration behind its label: the type of the field, its name and number, and a
default that is a number. -/
inductive DeclaresDefault (rounds : Nat) (cardinality : Cardinality) (scalar : ScalarType)
    (negative : Bool) (text : Bytes) : Parser → Parser → Prop where
  | intro {s s₁ s₂ s₃ s₄ s₅ s₆ s₇ s₈ s' : Parser} {number : Nat}
      (htype : parseFieldKind rounds s = .ok (.scalar scalar, s₁))
      (hlabel : s₁.file.fileSyntax = .proto2 → cardinality ≠ .implicit)
      (hname : Takes (·.tag == .identifier) s₁ s₂)
      (hequals : Takes (·.isSymbol 0x3d) s₂ s₃)
      (hnumber : parseFieldNumber s₃ = .ok (number, s₄))
      (hopening : Takes (·.isSymbol 0x5b) s₄ s₅)
      (hoption : WritesOption (ascii "default") s₅ s₆)
      (hvalue : WritesInteger s₆ negative text s₇)
      (hclosing : Takes (·.isSymbol 0x5d) s₇ s₈)
      (hend : Takes (·.isSymbol 0x3b) s₈ s') :
      DeclaresDefault rounds cardinality scalar negative text s s'

theorem parseOptionAssignment_eq {rounds : Nat} {s₁ : Parser}
    (hoption : WritesOption (ascii "default") s s₁) (hvalue : WritesInteger s₁ negative text s') :
    parseOptionAssignment 0x5d (rounds + 2) s =
      (do return defaultOption (← valueOfNumber negative text) : Parse FieldOption) s' := by
  have hget : ∀ s, (get : Parse Parser) s = .ok (s, s) := fun _ => rfl
  obtain ⟨s₂, hname, hequals, htext⟩ := optionName_of_writes rounds hoption
  unfold parseOptionAssignment
  rw [bind_of_ok (hget s), bind_of_ok hname, bind_of_ok (hget s₂), htext,
    bind_of_ok hequals.expectSymbol]
  exact bind_congr_run (parseOptionValue_eq hvalue)

/-- What is read behind the first option. -/
def moreOptions (rounds : Nat) (option : FieldOption) : Parse (List FieldOption) := do
  if ← consumeSymbol 0x2c then parseOptionList 0x5d rounds [option]
  else
    expectSymbol 0x5d
    return [option]

theorem parseOptionList_at_name {rounds : Nat} (htag : s.current.tag = .identifier) :
    parseOptionList 0x5d (rounds + 1) [] s =
      (parseOptionAssignment 0x5d rounds >>= moreOptions rounds) s := by
  have hget : (get : Parse Parser) s = .ok (s, s) := rfl
  have hopen : consumeSymbol 0x5d s = .ok (false, s) :=
    consumeSymbol_of_ne (isSymbol_of_tag_ne (by rw [htag]; decide))
  have heof : ¬ (s.current.tag == .eof) = true := by
    rw [htag]
    decide
  rw [parseOptionList, bind_of_ok hopen, if_neg Bool.false_ne_true, bind_of_ok hget, if_neg heof]
  rfl

/-- The options in brackets are the default alone, if its value is read. -/
theorem parseOptionList_of_ok {rounds : Nat} {s₁ s₂ : Parser} {value : OptionValue}
    (hoption : WritesOption (ascii "default") s s₁) (hvalue : WritesInteger s₁ negative text s₂)
    (hclosing : Takes (·.isSymbol 0x5d) s₂ s')
    (hread : valueOfNumber negative text s₂ = .ok (value, s₂)) :
    parseOptionList 0x5d (rounds + 3) [] s = .ok ([defaultOption value], s') := by
  have hassignment : parseOptionAssignment 0x5d (rounds + 2) s = .ok (defaultOption value, s₂) :=
    (parseOptionAssignment_eq hoption hvalue).trans (bind_of_ok hread)
  have hcomma : consumeSymbol 0x2c s₂ = .ok (false, s₂) :=
    consumeSymbol_of_ne (isSymbol_of_ne hclosing.isSymbol (by decide))
  obtain ⟨_, hname, -⟩ := hoption
  rw [parseOptionList_at_name hname.tag, bind_of_ok hassignment, moreOptions, bind_of_ok hcomma,
    if_neg Bool.false_ne_true, bind_of_ok hclosing.expectSymbol]
  rfl

theorem parseOptionList_of_error {rounds : Nat} {s₁ s₂ : Parser} {stop : Stop}
    (hoption : WritesOption (ascii "default") s s₁) (hvalue : WritesInteger s₁ negative text s₂)
    (hread : valueOfNumber negative text s₂ = .error stop) :
    parseOptionList 0x5d (rounds + 3) [] s = .error stop := by
  have hassignment : parseOptionAssignment 0x5d (rounds + 2) s = .error stop :=
    (parseOptionAssignment_eq hoption hvalue).trans (bind_of_error hread)
  obtain ⟨_, hname, -⟩ := hoption
  rw [parseOptionList_at_name hname.tag, bind_of_error hassignment]

/-- The declaration up to its options. -/
theorem parsePlainField_at_options {rounds : Nat} {cardinality : Cardinality}
    (proto3Optional : Bool)
    (h : DeclaresDefault rounds cardinality scalar negative text s s') :
    ∃ field s₄ s₅ s₆ s₇ s₈, field.kind = .scalar scalar ∧ field.cardinality = cardinality ∧
      field.oneofName = none ∧ field.defaultValue = none ∧
      Takes (·.isSymbol 0x5b) s₄ s₅ ∧ WritesOption (ascii "default") s₅ s₆ ∧
      WritesInteger s₆ negative text s₇ ∧ Takes (·.isSymbol 0x5d) s₇ s₈ ∧
      Takes (·.isSymbol 0x3b) s₈ s' ∧
      parsePlainField rounds none cardinality proto3Optional s = (do
        let field ← bracketedFieldOptions rounds field
        expectSymbol 0x3b
        return field) s₄ := by
  cases h with
  | @intro s₁ s₂ s₃ s₄ s₅ s₆ s₇ s₈ _ number htype hlabel hname hequals hnumber hopening hoption
      hvalue hclosing hend =>
      have hget : (get : Parse Parser) s₁ = .ok (s₁, s₁) := rfl
      have himplicit : ¬ (s₁.file.fileSyntax == .proto2 && cardinality == .implicit
          && !(FieldKind.scalar scalar).isMap && (none : Option Bytes).isNone) = true := by
        rw [Bool.and_eq_true, Bool.and_eq_true, Bool.and_eq_true, beq_iff_eq, beq_iff_eq]
        exact fun h => hlabel h.1.1.1 h.1.1.2
      refine ⟨{ name := s₁.current.text, number := number, cardinality := cardinality,
                kind := .scalar scalar, oneofName := none, proto3Optional := proto3Optional,
                address := s₁.current.start },
        s₄, s₅, s₆, s₇, s₈, rfl, rfl, rfl, rfl, hopening, hoption, hvalue, hclosing, hend, ?_⟩
      have hmap : ¬ ((FieldKind.scalar scalar).isMap
          && (cardinality != .implicit || (none : Option Bytes).isSome)) = true :=
        Bool.false_ne_true
      unfold parsePlainField
      rw [bind_of_ok htype, bind_of_ok hget, if_neg himplicit, if_neg hmap]
      exact (bind_of_ok hname.expectTag).trans
        ((bind_of_ok hequals.expectSymbol).trans (bind_of_ok hnumber))

/-- The field of the declaration records the value that is read. -/
theorem parsePlainField_of_ok {rounds : Nat} {cardinality : Cardinality} (proto3Optional : Bool)
    {value : OptionValue}
    (h : DeclaresDefault (rounds + 3) cardinality scalar negative text s s')
    (hread : ∀ t, valueOfNumber negative text t = .ok (value, t)) :
    ∃ field, parsePlainField (rounds + 3) none cardinality proto3Optional s = .ok (field, s') ∧
      field.kind = .scalar scalar ∧ field.cardinality = cardinality ∧ field.oneofName = none ∧
      field.defaultValue = some value := by
  obtain ⟨field, s₄, s₅, s₆, s₇, s₈, hkind, hcardinality, honeof, hnone, hopening, hoption, hvalue,
    hclosing, hend, hrun⟩ := parsePlainField_at_options proto3Optional h
  have happly := applyOptions_default s₈ { field with options := [defaultOption value] } value hnone
  have hoptions : parseFieldOptions (rounds + 3) field s₅ = _ :=
    (bind_of_ok (parseOptionList_of_ok hoption hvalue hclosing (hread s₇))).trans happly
  have hbrackets : bracketedFieldOptions (rounds + 3) field s₄ = _ :=
    (bind_of_ok hopening.consumeSymbol).trans hoptions
  refine ⟨{ field with options := [defaultOption value], defaultValue := some value }, ?_, hkind,
    hcardinality, honeof, rfl⟩
  rw [hrun, bind_of_ok hbrackets, bind_of_ok hend.expectSymbol]
  rfl

theorem parsePlainField_of_error {rounds : Nat} {cardinality : Cardinality} (proto3Optional : Bool)
    {stop : Stop} (h : DeclaresDefault (rounds + 3) cardinality scalar negative text s s')
    (hread : ∀ t, valueOfNumber negative text t = .error stop) :
    parsePlainField (rounds + 3) none cardinality proto3Optional s = .error stop := by
  obtain ⟨field, s₄, s₅, s₆, s₇, s₈, -, -, -, -, hopening, hoption, hvalue, -, -, hrun⟩ :=
    parsePlainField_at_options proto3Optional h
  have hoptions : parseFieldOptions (rounds + 3) field s₅ = .error stop :=
    bind_of_error (parseOptionList_of_error hoption hvalue (hread s₇))
  have hbrackets : bracketedFieldOptions (rounds + 3) field s₄ = .error stop :=
    (bind_of_ok hopening.consumeSymbol).trans hoptions
  rw [hrun, bind_of_error hbrackets]

/-! ## The check -/

theorem validateScalarDefault_eq (htype : scalar.integerType = some type) (result : OptionValue) :
    validateScalarDefault scalar result = reject (optionInt type result).isNone .invalidDefault := by
  cases scalar <;> cases htype <;> rfl

/-- The check of a field that may have a default comes down to the range of its type. -/
theorem validateFieldDefault_iff {file : FileDescriptor} {field : FieldDescriptor}
    {context : Option MessageDescriptor} {result : OptionValue}
    (htype : scalar.integerType = some type) (hfile : file.fileSyntax ≠ .proto3)
    (hkind : field.kind = .scalar scalar) (hsingular : field.cardinality ≠ .repeated)
    (honeof : field.oneofName = none) (hdefault : field.defaultValue = some result) :
    validateFieldDefault file field context = .ok () ↔ (optionInt type result).isNone = false := by
  have hproto3 : (file.fileSyntax == .proto3) = false := beq_eq_false_iff_ne.mpr hfile
  have hplain : (field.cardinality == .repeated || field.kind.isMap || field.oneofName.isSome)
      = false := by
    rw [beq_eq_false_iff_ne.mpr hsingular, hkind, honeof]
    rfl
  unfold validateFieldDefault
  rw [hdefault]
  dsimp only
  rw [bind_eq_ok, bind_eq_ok, reject_eq_ok, reject_eq_ok, and_iff_right hproto3,
    and_iff_right hplain, hkind]
  dsimp only
  rw [validateScalarDefault_eq htype, reject_eq_ok]

/-! ## Defaults and their literals -/

/-- The declaration at `s` is parsed to the field, and its default passes the check of the file. -/
def AcceptsDefault (rounds : Nat) (cardinality : Cardinality) (proto3Optional : Bool)
    (file : FileDescriptor) (context : Option MessageDescriptor) (s : Parser)
    (field : FieldDescriptor) : Prop :=
  (∃ s', parsePlainField rounds none cardinality proto3Optional s = .ok (field, s')) ∧
    validateFieldDefault file field context = .ok ()

/-- The declaration at `s` is accepted exactly if the value is in the range of the type, and then
the value is the default that is recorded. -/
def DefaultMeans (rounds : Nat) (cardinality : Cardinality) (proto3Optional : Bool)
    (file : FileDescriptor) (context : Option MessageDescriptor) (s : Parser) (type : IntegerType)
    (value : Int) : Prop :=
  ((∃ field, AcceptsDefault rounds cardinality proto3Optional file context s field) ↔
      type.Contains value) ∧
    ∀ field, AcceptsDefault rounds cardinality proto3Optional file context s field →
      field.defaultValue.bind (·.toInteger) = some value

section

variable {rounds : Nat} {cardinality : Cardinality} {proto3Optional : Bool}
  {file : FileDescriptor} {context : Option MessageDescriptor} {field : FieldDescriptor}

/-- What is accepted is what is read, in the range of the type. -/
theorem read_of_accepts (htype : scalar.integerType = some type)
    (hdeclared : DeclaresDefault (rounds + 3) cardinality scalar negative text s s')
    (hdenotes : Denotes form text value) (hsingular : cardinality ≠ .repeated)
    (hfile : file.fileSyntax ≠ .proto3)
    (haccepts : AcceptsDefault (rounds + 3) cardinality proto3Optional file context s field) :
    ∃ read, readInteger negative text = some read ∧ type.Contains read ∧
      field.defaultValue.bind (·.toInteger) = some read := by
  have hfield : ∀ result, (∀ t, valueOfNumber negative text t = .ok (result, t)) →
      field.defaultValue = some result ∧ (optionInt type result).isNone = false := by
    intro result hvalue
    obtain ⟨parsed, hparse, hkind, hcardinality, honeof, hdefault⟩ :=
      parsePlainField_of_ok proto3Optional hdeclared hvalue
    obtain ⟨⟨s'', hrun⟩, hcheck⟩ := haccepts
    cases hparse.symm.trans hrun
    exact ⟨hdefault, (validateFieldDefault_iff htype hfile hkind
      (hcardinality.symm ▸ hsingular) honeof hdefault).mp hcheck⟩
  rcases valueOfNumber_cases hdenotes with ⟨read, result, hread, hresult, hvalue⟩ | ⟨-, hfloat⟩
  · obtain ⟨hdefault, hint⟩ := hfield result hvalue
    rw [optionInt_of_integer hresult, cast_isNone_iff] at hint
    exact ⟨read, hread, hint, by rw [hdefault]; exact hresult⟩
  · cases hbits : signedFloat negative text with
    | ok bits =>
        have hvalue : ∀ t, valueOfNumber negative text t = .ok (.float bits, t) := fun t => by
          rw [hfloat, hbits]
          rfl
        exact nomatch (hfield _ hvalue).2
    | error e =>
        have hvalue : ∀ t, valueOfNumber negative text t = .error (.error e) := fun t => by
          rw [hfloat, hbits]
          rfl
        obtain ⟨⟨s'', hrun⟩, -⟩ := haccepts
        exact nomatch (parsePlainField_of_error proto3Optional hdeclared hvalue).symm.trans hrun

/-- What is read is accepted, in the range of the type. -/
theorem accepts_of_read (htype : scalar.integerType = some type)
    (hdeclared : DeclaresDefault (rounds + 3) cardinality scalar negative text s s')
    (hdenotes : Denotes form text value) (hsingular : cardinality ≠ .repeated)
    (hfile : file.fileSyntax ≠ .proto3) {read : Int}
    (hread : readInteger negative text = some read) (hcontains : type.Contains read) :
    ∃ field, AcceptsDefault (rounds + 3) cardinality proto3Optional file context s field := by
  rcases valueOfNumber_cases hdenotes with ⟨read', result, hread', hresult, hvalue⟩ | ⟨hnone, -⟩
  · cases hread.symm.trans hread'
    obtain ⟨parsed, hparse, hkind, hcardinality, honeof, hdefault⟩ :=
      parsePlainField_of_ok proto3Optional hdeclared hvalue
    refine ⟨parsed, ⟨s', hparse⟩, (validateFieldDefault_iff htype hfile hkind
      (hcardinality.symm ▸ hsingular) honeof hdefault).mpr ?_⟩
    rw [optionInt_of_integer hresult, cast_isNone_iff]
    exact hcontains
  · exact nomatch hnone.symm.trans hread

end

/-- A default is accepted and recorded as the language wants it exactly if it is out of the range
of the field's type or is not misread. -/
theorem integerDefault_iff {rounds : Nat} {cardinality : Cardinality} {proto3Optional : Bool}
    {file : FileDescriptor} {context : Option MessageDescriptor}
    (htype : scalar.integerType = some type)
    (hdeclared : DeclaresDefault (rounds + 3) cardinality scalar negative text s s')
    (hdenotes : Denotes form text value) (hsingular : cardinality ≠ .repeated)
    (hfile : file.fileSyntax ≠ .proto3) :
    DefaultMeans (rounds + 3) cardinality proto3Optional file context s type
        (signedValue negative value) ↔
      (type.Contains (signedValue negative value) → ¬ Misread form negative text value) := by
  constructor
  · rintro ⟨hiff, hrecorded⟩ hcontains
    obtain ⟨field, haccepts⟩ := hiff.mpr hcontains
    obtain ⟨read, hread, -, hdefault⟩ :=
      read_of_accepts htype hdeclared hdenotes hsingular hfile haccepts
    have hright : read = signedValue negative value :=
      Option.some.inj (hdefault.symm.trans (hrecorded field haccepts))
    rw [hright] at hread
    exact (readInteger_right_iff hdenotes htype hcontains).mp hread
  · intro hright
    have hread : ∀ field, AcceptsDefault (rounds + 3) cardinality proto3Optional file context s field →
        type.Contains (signedValue negative value) ∧
          field.defaultValue.bind (·.toInteger) = some (signedValue negative value) := by
      intro field haccepts
      obtain ⟨read, hread, hcontains, hdefault⟩ :=
        read_of_accepts htype hdeclared hdenotes hsingular hfile haccepts
      by_cases hrange : type.Contains (signedValue negative value)
      · have hmeant := (readInteger_right_iff hdenotes htype hrange).mpr (hright hrange)
        cases hread.symm.trans hmeant
        exact ⟨hrange, hdefault⟩
      · exact absurd hcontains (readInteger_out_of_range hdenotes htype hrange hread)
    refine ⟨⟨fun ⟨field, haccepts⟩ => (hread field haccepts).1, fun hcontains => ?_⟩,
      fun field haccepts => (hread field haccepts).2⟩
    exact accepts_of_read htype hdeclared hdenotes hsingular hfile
      ((readInteger_right_iff hdenotes htype hcontains).mpr (hright hcontains)) hcontains

/-! ## Literals that come out wrong -/

/-- What `std.fmt.parseFloat` makes of two of the literals below. -/
abbrev literalFloats : FloatConversions where
  parseFloat text :=
    if text == ascii "-9223372036854775808" then some 0xc3e0000000000000
    else if text == ascii "0x1e" then some 0x403e000000000000
    else none
  floatFromInt _ := 0

/-- The defaults of the fields of the messages of a source text. -/
def recordedDefaults (text : Bytes) : Except Stop (List (List (Option OptionValue))) :=
  (@parse literalFloats text).map
    (fun file => file.messages.map (fun message => message.fields.map (·.defaultValue)))

omit [FloatConversions] in
/-- `-010` is recorded as minus ten; the smallest `int64` and a digit `e` are rejected. -/
theorem exists_default_misread :
    Denotes .octal (ascii "010") 8 ∧
    recordedDefaults (ascii "message M { optional int32 a = 1 [default = -010]; }") =
      .ok [[some (.integer (-10))]] ∧
    Denotes .decimal (ascii "9223372036854775808") (2 ^ 63) ∧
    recordedDefaults (ascii "message M { optional int64 a = 1 [default = -9223372036854775808]; }") =
      .error (.error .invalidDefault) ∧
    Denotes .hexadecimal (ascii "0x1e") 30 ∧
    recordedDefaults (ascii "message M { optional int32 a = 1 [default = 0x1e]; }") =
      .error (.error .invalidDefault) :=
  ⟨.octal (by decide +kernel), by decide +kernel,
    .decimal (by decide) (by decide) (by decide +kernel), by decide +kernel,
    .hexadecimal (by decide) (by decide) (by decide +kernel), by decide +kernel⟩

/-- The state behind a program that returns. -/
def stateBehind {α : Type} (p : Parse α) (s : Parser) : Parser :=
  match p s with
  | .ok (_, s') => s'
  | .error _ => s

omit [FloatConversions] in
theorem run_of_value {α : Type} {p : Parse α} {a : α}
    (h : (p s).toOption.map (·.1) = some a) : p s = .ok (a, stateBehind p s) := by
  unfold stateBehind
  cases hrun : p s with
  | error stop =>
      rw [hrun] at h
      exact nomatch h
  | ok run =>
      rw [hrun] at h
      cases h
      rfl

/-- The parser behind the label of a field. -/
def minusSeven : Parser where
  lexer := { input := ascii "int32 a = 1 [default = -7]; \x7d", index := 5 }
  current := { tag := .identifier, start := 0, «end» := 5, text := ascii "int32" }

/-- The state `n` tokens behind `s`. -/
def tokensBehind (s : Parser) : Nat → Parser
  | 0 => s
  | n + 1 => stateBehind advanceVoid (tokensBehind s n)

omit [FloatConversions] in
/-- A declaration with a negative default, token by token. -/
theorem declaresDefault_of_tokens {rounds number : Nat} {cardinality : Cardinality}
    {s atName atBracket : Parser} (hlabel : cardinality ≠ .implicit)
    (htype : parseFieldKind rounds s = .ok (.scalar scalar, atName))
    (hname : ∀ n < 2, (advanceVoid (tokensBehind atName n)).toOption.map (·.1) = some ())
    (hnameTags : (tokensBehind atName 0).current.tag == .identifier &&
      (tokensBehind atName 1).current.isSymbol 0x3d)
    (hnumber : parseFieldNumber (tokensBehind atName 2) = .ok (number, atBracket))
    (hbracket : ∀ n < 7, (advanceVoid (tokensBehind atBracket n)).toOption.map (·.1) = some ())
    (hbracketTags : (tokensBehind atBracket 0).current.isSymbol 0x5b &&
      (tokensBehind atBracket 1).current.tag == .identifier &&
      (tokensBehind atBracket 2).current.isSymbol 0x3d &&
      (tokensBehind atBracket 3).current.isSymbol 0x2d &&
      (tokensBehind atBracket 4).current.tag == .number &&
      (tokensBehind atBracket 5).current.isSymbol 0x5d &&
      (tokensBehind atBracket 6).current.isSymbol 0x3b)
    (hoption : trimSpace ((tokensBehind atBracket 2).slice (tokensBehind atBracket 1).current.start
      (tokensBehind atBracket 2).current.start) = ascii "default") :
    DeclaresDefault rounds cardinality scalar true (tokensBehind atBracket 4).current.text s
      (tokensBehind atBracket 7) := by
  simp only [Bool.and_eq_true] at hnameTags hbracketTags
  obtain ⟨⟨⟨⟨⟨⟨hopening, hdefault⟩, hequals⟩, hminus⟩, hvalue⟩, hclosing⟩, hend⟩ := hbracketTags
  have hname' : ∀ n < 2,
      advanceVoid (tokensBehind atName n) = .ok ((), tokensBehind atName (n + 1)) :=
    fun n hn => run_of_value (hname n hn)
  have hbracket' : ∀ n < 7,
      advanceVoid (tokensBehind atBracket n) = .ok ((), tokensBehind atBracket (n + 1)) :=
    fun n hn => run_of_value (hbracket n hn)
  exact .intro htype (fun _ => hlabel) ⟨hnameTags.1, hname' 0 (by decide)⟩
    ⟨hnameTags.2, hname' 1 (by decide)⟩ hnumber ⟨hopening, hbracket' 0 (by decide)⟩
    ⟨_, ⟨hdefault, hbracket' 1 (by decide)⟩, ⟨hequals, hbracket' 2 (by decide)⟩, hoption⟩
    (.minus ⟨hminus, hbracket' 3 (by decide)⟩ ⟨hvalue, hbracket' 4 (by decide)⟩)
    ⟨hclosing, hbracket' 5 (by decide)⟩ ⟨hend, hbracket' 6 (by decide)⟩

omit [FloatConversions] in
theorem declaresDefault_minusSeven :
    ∃ s', DeclaresDefault 3 .optional .int32 true (ascii "7") minusSeven s' := by
  have hnumber : (parseFieldNumber
      (tokensBehind (stateBehind (parseFieldKind 3) minusSeven) 2)).toOption.map (·.1) = some 1 := by
    decide +kernel
  have hdeclared := declaresDefault_of_tokens (show Cardinality.optional ≠ .implicit by decide)
    (run_of_value (show ((parseFieldKind 3) minusSeven).toOption.map (·.1) =
      some (.scalar .int32) by decide +kernel))
    (by decide +kernel) (by decide +kernel) (run_of_value hnumber) (by decide +kernel)
    (by decide +kernel) (by decide +kernel)
  have htext : (tokensBehind (stateBehind parseFieldNumber
      (tokensBehind (stateBehind (parseFieldKind 3) minusSeven) 2)) 4).current.text = ascii "7" := by
    decide +kernel
  rw [htext] at hdeclared
  exact ⟨_, hdeclared⟩

omit [FloatConversions] in
/-- A small negative default comes out right. -/
theorem integerDefault_iff_minusSeven :
    @DefaultMeans literalFloats 3 .optional false {} none minusSeven .i32 (-7) ↔
      (IntegerType.i32.Contains (-7) → ¬ Misread .decimal true (ascii "7") 7) := by
  obtain ⟨s', hdeclared⟩ := declaresDefault_minusSeven
  have hdenotes : Denotes .decimal (ascii "7") 7 :=
    .decimal (by decide) (by decide) (by decide +kernel)
  exact @integerDefault_iff .decimal true (ascii "7") 7 .i32 .int32 minusSeven s' literalFloats 0
    .optional false {} none rfl hdeclared hdenotes (by decide) (by decide)

end Parser

end Pbz
