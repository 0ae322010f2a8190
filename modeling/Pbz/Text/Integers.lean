import Pbz.Parser.IntegerDefaults

set_option autoImplicit false

/-! # Integers in the text format

`parseTextInt` takes a sign off and finds the base at the front of what is left. The digits go to
`std.fmt.parseInt`: for an `i128` behind a minus sign, whose negation is the value, else for a
`u128`. `parseInt` takes a sign and underscores of its own.
-/

namespace Pbz

namespace Text

def i128 : IntegerType := ⟨-2 ^ 127, 2 ^ 127 - 1⟩

def u128 : IntegerType := ⟨0, 2 ^ 128 - 1⟩

/-- The errors of `parseTextInt`; `parseInt` stands for those of `std.fmt.parseInt`. -/
inductive IntegerError where
  | invalidCharacter
  | overflow
  | parseInt
  deriving DecidableEq, Repr

/-- Why there is no value: an error, or a negation that leaves the `i128`. -/
inductive IntegerStop where
  | error (e : IntegerError)
  | overflow
  deriving DecidableEq, Repr

/-- Whether a minus sign is in front, and the text behind the sign. -/
def splitSign (atom : Bytes) : Bool × Bytes :=
  match atom with
  | [] => (false, [])
  | c :: rest => if c == 0x2b || c == 0x2d then (c == 0x2d, rest) else (false, c :: rest)

/-- The base, and the text behind the prefix of a hexadecimal numeral. -/
def splitBase (text : Bytes) : Nat × Bytes :=
  if (ascii "0x").isPrefixOf text || (ascii "0X").isPrefixOf text then (16, text.drop 2)
  -- the zero stays in front; alone it is a decimal numeral
  else if text.length > 1 && text.head? == some 0x30 then (8, text)
  else (10, text)

/-- What digits behind a minus sign stand for. -/
def negatedValue (type : IntegerType) (digits : Bytes) (base : Nat) : Except IntegerStop Int :=
  match parseInt i128 digits base with
  | none => .error (.error .parseInt)
  | some signed =>
      -- the checked negation of an `i128`
      match i128.cast (-signed) with
      | none => .error .overflow
      | some value =>
          if value < type.low || value > type.high then .error (.error .overflow) else .ok value

/-- What digits behind a plus sign or behind none stand for. -/
def unsignedValue (type : IntegerType) (digits : Bytes) (base : Nat) : Except IntegerStop Int :=
  match parseInt u128 digits base with
  | none => .error (.error .parseInt)
  | some unsigned => if unsigned > type.high then .error (.error .overflow) else .ok unsigned

def parseTextInt (type : IntegerType) (atom : Bytes) : Except IntegerStop Int :=
  let (negative, text) := splitSign atom
  if text.isEmpty then .error (.error .invalidCharacter)
  else
    let (base, digits) := splitBase text
    if digits.isEmpty then .error (.error .invalidCharacter)
    else if negative then negatedValue type digits base
    else unsignedValue type digits base

example : parseTextInt .i32 (ascii "-0x10") = .ok (-16) := by decide

/-! ## Numerals -/

/-- A numeral behind one of the signs or none, and what it denotes. -/
inductive SignedNumeral (signs : Bytes) : Bytes → Int → Prop where
  | plain {form : LiteralForm} {text : Bytes} {value : Nat} (h : Denotes form text value) :
      SignedNumeral signs text value
  | signed {form : LiteralForm} {text : Bytes} {value : Nat} {sign : UInt8}
      (hsign : sign ∈ signs) (h : Denotes form text value) :
      SignedNumeral signs (sign :: text) (Parser.signedValue (sign == 0x2d) value)

/-- The token is read just if it is a numeral, behind one of the signs or none, whose value the
type holds; then the value is read, and in no case an operation overflows. -/
structure ReadsExactly (signs : Bytes) (type : IntegerType) (atom : Bytes) : Prop where
  accepts : ∀ value, parseTextInt type atom = .ok value ↔
    SignedNumeral signs atom value ∧ type.Contains value
  fits : parseTextInt type atom ≠ .error .overflow

/-- Where the digits should stand, `parseInt` finds a sign of its own or underscores. -/
def SpelledLoosely (atom : Bytes) : Prop :=
  Loose (splitBase (splitSign atom).2).1 (splitBase (splitSign atom).2).2

variable {form : LiteralForm} {text : Bytes} {value : Nat}

theorem denotes_head (h : Denotes form text value) :
    ∃ c rest, text = c :: rest ∧ c ≠ 0x2b ∧ c ≠ 0x2d := by
  cases h with
  | decimal hfirst hdigit hrest => exact ⟨_, _, rfl, (hdigit.mono (by decide)).ne_sign⟩
  | octal hrest => exact ⟨_, _, rfl, by decide⟩
  | hexadecimal hx hdigit hrest => exact ⟨_, _, rfl, by decide⟩

/-- The sign that is taken off is the one of the numeral. -/
theorem signedNumeral_iff {atom : Bytes} {result : Int} :
    SignedNumeral (ascii "+-") atom result ↔
      ∃ form value, Denotes form (splitSign atom).2 value
        ∧ result = Parser.signedValue (splitSign atom).1 value := by
  cases atom with
  | nil =>
      constructor
      · intro h
        cases h with
        | plain h => cases h
      · rintro ⟨form, value, h, -⟩
        cases h
  | cons c rest =>
      by_cases hsign : c = 0x2b ∨ c = 0x2d
      · have hsplit : splitSign (c :: rest) = (c == 0x2d, rest) := if_pos (by simpa using hsign)
        rw [hsplit]
        constructor
        · intro h
          cases h with
          | plain h =>
              obtain ⟨c', rest', htext, hplus, hminus⟩ := denotes_head h
              cases htext
              exact absurd hsign (not_or.mpr ⟨hplus, hminus⟩)
          | signed hmem h => exact ⟨_, _, h, rfl⟩
        · rintro ⟨form, value, h, rfl⟩
          exact .signed (by simpa [ascii] using hsign) h
      · have hsplit : splitSign (c :: rest) = (false, c :: rest) := if_neg (by simpa using hsign)
        rw [hsplit]
        constructor
        · intro h
          cases h with
          | plain h => exact ⟨_, _, h, rfl⟩
          | signed hmem h => exact absurd (by simpa [ascii] using hmem) hsign
        · rintro ⟨form, value, h, rfl⟩
          exact .plain h

theorem splitBase_hexadecimal {x : UInt8} {rest : Bytes} (hx : toLower x = 0x78) :
    splitBase (0x30 :: x :: rest) = (16, rest) := by
  rw [splitBase, hexPrefix_eq, hx]
  rfl

theorem splitBase_octal {x : UInt8} {rest : Bytes} (hx : toLower x ≠ 0x78) :
    splitBase (0x30 :: x :: rest) = (8, 0x30 :: x :: rest) := by
  rw [splitBase, hexPrefix_eq, if_neg (mt beq_iff_eq.mp hx), if_pos (by simp)]

theorem splitBase_decimal {c : UInt8} {rest : Bytes} (hc : c ≠ 0x30) :
    splitBase (c :: rest) = (10, c :: rest) := by
  rw [splitBase, if_neg (hexPrefix_of_ne hc), if_neg (by simp [hc])]

/-- A text is a numeral if behind its prefix are digits of the base that it announces. -/
theorem exists_denotes_iff {number : Nat} :
    (∃ form, Denotes form text number) ↔
      (splitBase text).2 ≠ [] ∧ (∀ c ∈ (splitBase text).2, IsDigitOf (splitBase text).1 c)
        ∧ number = digitsNumber (splitBase text).1 0 (splitBase text).2 := by
  constructor
  · rintro ⟨form, h⟩
    cases h with
    | decimal hfirst hdigit hrest =>
        rw [splitBase_decimal hfirst]
        exact ⟨List.cons_ne_nil _ _, List.forall_mem_cons.mpr ⟨hdigit, hrest⟩, rfl⟩
    | @octal rest hrest =>
        cases rest with
        | nil =>
            -- `0` is an octal literal of the language, and a decimal one of `splitBase`
            have hzero : IsDigitOf 10 0x30 := by decide
            exact ⟨List.cons_ne_nil _ _, List.forall_mem_singleton.mpr hzero, rfl⟩
        | cons x rest =>
            rw [splitBase_octal (isDigitOf_eight (hrest x List.mem_cons_self)).1]
            have hzero : IsDigitOf 8 0x30 := by decide
            exact ⟨List.cons_ne_nil _ _, List.forall_mem_cons.mpr ⟨hzero, hrest⟩, rfl⟩
    | hexadecimal hx hdigit hrest =>
        rw [splitBase_hexadecimal hx]
        exact ⟨List.cons_ne_nil _ _, List.forall_mem_cons.mpr ⟨hdigit, hrest⟩, rfl⟩
  · rintro ⟨hne, hdigits, rfl⟩
    cases text with
    | nil => exact absurd rfl hne
    | cons c rest =>
        by_cases hc : c = 0x30
        · subst hc
          cases rest with
          | nil => exact ⟨.octal, .octal (by simp)⟩
          | cons x rest =>
              by_cases hx : toLower x = 0x78
              · rw [splitBase_hexadecimal hx] at hne hdigits ⊢
                cases rest with
                | nil => exact absurd rfl hne
                | cons d rest =>
                    obtain ⟨hd, hrest⟩ := List.forall_mem_cons.mp hdigits
                    exact ⟨.hexadecimal, .hexadecimal hx hd hrest⟩
              · rw [splitBase_octal hx] at hdigits ⊢
                exact ⟨.octal, .octal (List.forall_mem_cons.mp hdigits).2⟩
        · rw [splitBase_decimal hc] at hdigits ⊢
          obtain ⟨hd, hrest⟩ := List.forall_mem_cons.mp hdigits
          exact ⟨.decimal, .decimal hc hd hrest⟩

/-! ## What `parseTextInt` reads -/

variable {scalar : ScalarType} {type : IntegerType} {atom : Bytes}

theorem splitBase_base (text : Bytes) : (splitBase text).1 ≠ 0 ∧ (splitBase text).1 ≤ 16 := by
  unfold splitBase
  split
  · exact ⟨Nat.succ_ne_zero 15, Nat.le_refl 16⟩
  · split
    · exact ⟨Nat.succ_ne_zero 7, by omega⟩
    · exact ⟨Nat.succ_ne_zero 9, by omega⟩

theorem negatedValue_ok_iff (h : scalar.integerType = some type) {digits : Bytes} {base : Nat}
    {value : Int} :
    negatedValue type digits base = .ok value ↔
      type.Contains value ∧ parseInt i128 digits base = some (-value) := by
  obtain ⟨hlow, -, -, hhigh⟩ := Parser.integerType_within h
  unfold negatedValue
  cases hparse : parseInt i128 digits base with
  | none => exact iff_of_false (fun h => by cases h) (fun h => by cases h.2)
  | some signed =>
      rw [Option.some.injEq]
      dsimp only
      constructor
      · intro hok
        split at hok
        · cases hok
        · next hcast =>
            obtain ⟨-, rfl⟩ := cast_eq_some_iff.mp hcast
            split at hok
            · cases hok
            · next hrange =>
                obtain rfl : -signed = value := by simpa using hok
                exact ⟨by simpa [IntegerType.Contains] using hrange, (neg_neg signed).symm⟩
      · rintro ⟨⟨hge, hle⟩, rfl⟩
        -- the field's type is narrower than `i128`, so the negation is in range with the value
        have hcast : i128.cast (- -value) = some value := by
          refine cast_eq_some_iff.mpr ⟨?_, (neg_neg value).symm⟩
          rw [neg_neg]
          exact ⟨by simp only [i128]; omega, by simp only [i128]; omega⟩
        rw [hcast]
        exact if_neg (by simp [hge, hle])

/-- The negation leaves the `i128` for the least one. -/
theorem negatedValue_overflow_iff {digits : Bytes} {base : Nat} :
    negatedValue type digits base = .error .overflow ↔
      parseInt i128 digits base = some i128.low := by
  unfold negatedValue
  cases hparse : parseInt i128 digits base with
  | none => exact iff_of_false (fun h => by cases h) (fun h => by cases h)
  | some signed =>
      obtain ⟨hge, hle⟩ := fits_of_parseInt hparse
      have hcontains : i128.Contains (-signed) ↔ signed ≠ i128.low := by
        simp only [IntegerType.Contains, i128] at *
        omega
      rw [Option.some.injEq]
      dsimp only
      cases hcast : i128.cast (-signed) with
      | none =>
          refine iff_of_true rfl (of_not_not (mt hcontains.mpr fun hfits => ?_))
          cases hcast.symm.trans (cast_eq_some_iff.mpr ⟨hfits, rfl⟩)
      | some value =>
          refine iff_of_false (fun h => ?_) (hcontains.mp (cast_eq_some_iff.mp hcast).1)
          dsimp only at h
          split at h
          · cases h
          · cases h

theorem unsignedValue_ok_iff (h : scalar.integerType = some type) {digits : Bytes} {base : Nat}
    {value : Int} :
    unsignedValue type digits base = .ok value ↔
      type.Contains value ∧ parseInt u128 digits base = some value := by
  obtain ⟨-, hzero, -, -⟩ := Parser.integerType_within h
  unfold unsignedValue
  cases hparse : parseInt u128 digits base with
  | none => exact iff_of_false (fun h => by cases h) (fun h => by cases h.2)
  | some unsigned =>
      have hge : 0 ≤ unsigned := (fits_of_parseInt hparse).1
      rw [Option.some.injEq]
      dsimp only
      constructor
      · intro hok
        split at hok
        · cases hok
        · next hle =>
            cases hok
            exact ⟨⟨le_trans hzero hge, not_lt.mp hle⟩, rfl⟩
      · rintro ⟨hcontains, rfl⟩
        exact if_neg (not_lt.mpr hcontains.2)

theorem unsignedValue_ne_overflow {digits : Bytes} {base : Nat} :
    unsignedValue type digits base ≠ .error .overflow := by
  unfold unsignedValue
  cases parseInt u128 digits base with
  | none => exact fun h => by cases h
  | some unsigned =>
      dsimp only
      split
      · exact fun h => by cases h
      · exact fun h => by cases h

theorem parseTextInt_nil (h : (splitBase (splitSign atom).2).2 = []) :
    parseTextInt type atom = .error (.error .invalidCharacter) := by
  unfold parseTextInt
  dsimp only
  split
  · rfl
  · exact if_pos (List.isEmpty_iff.mpr h)

theorem parseTextInt_of_ne_nil (h : (splitBase (splitSign atom).2).2 ≠ []) :
    parseTextInt type atom =
      if (splitSign atom).1 then
        negatedValue type (splitBase (splitSign atom).2).2 (splitBase (splitSign atom).2).1
      else unsignedValue type (splitBase (splitSign atom).2).2 (splitBase (splitSign atom).2).1 := by
  have htext : ¬ (splitSign atom).2.isEmpty = true := fun hempty => by
    rw [List.isEmpty_iff.mp hempty] at h
    exact h rfl
  unfold parseTextInt
  dsimp only
  rw [if_neg htext, if_neg (mt List.isEmpty_iff.mp h)]

/-- A minus sign leaves the digits to an `i128`, and all else leaves them to a `u128`. -/
theorem parseTextInt_ok_iff (h : scalar.integerType = some type) {value : Int} :
    parseTextInt type atom = .ok value ↔ type.Contains value ∧
      if (splitSign atom).1 then
        parseInt i128 (splitBase (splitSign atom).2).2 (splitBase (splitSign atom).2).1
          = some (-value)
      else
        parseInt u128 (splitBase (splitSign atom).2).2 (splitBase (splitSign atom).2).1
          = some value := by
  by_cases hnil : (splitBase (splitSign atom).2).2 = []
  · rw [parseTextInt_nil hnil, hnil]
    refine iff_of_false (fun h => by cases h) (fun h => ?_)
    have hread := h.2
    split at hread
    · cases hread
    · cases hread
  · rw [parseTextInt_of_ne_nil hnil]
    split
    · exact negatedValue_ok_iff h
    · exact unsignedValue_ok_iff h

theorem parseTextInt_overflow_iff :
    parseTextInt type atom = .error .overflow ↔ (splitSign atom).1 = true ∧
      parseInt i128 (splitBase (splitSign atom).2).2 (splitBase (splitSign atom).2).1
        = some i128.low := by
  by_cases hnil : (splitBase (splitSign atom).2).2 = []
  · rw [parseTextInt_nil hnil, hnil]
    exact iff_of_false (fun h => by cases h) (fun h => by cases h.2)
  · rw [parseTextInt_of_ne_nil hnil]
    split
    · next hsign => rw [negatedValue_overflow_iff, and_iff_right hsign]
    · next hsign =>
        exact iff_of_false unsignedValue_ne_overflow (fun h => hsign h.1)

/-! ## Plain digits -/

/-- No numeral is spelled loosely. -/
theorem SignedNumeral.not_spelledLoosely {result : Int}
    (h : SignedNumeral (ascii "+-") atom result) : ¬ SpelledLoosely atom := by
  obtain ⟨form, value, hdenotes, -⟩ := signedNumeral_iff.mp h
  obtain ⟨-, hdigits, -⟩ := exists_denotes_iff.mp ⟨form, hdenotes⟩
  exact fun hloose => hloose.not_digits (splitBase_base _).2 hdigits

/-- What is not spelled loosely is read as the numeral it is. -/
theorem parseInt_plain (hplain : ¬ SpelledLoosely atom) {result : Int} :
    parseInt type (splitBase (splitSign atom).2).2 (splitBase (splitSign atom).2).1 = some result ↔
      ∃ form value, Denotes form (splitSign atom).2 value ∧ type.Contains value
        ∧ result = value := by
  obtain ⟨hbase, hle⟩ := splitBase_base (splitSign atom).2
  rw [parseInt_eq_some_iff hbase hle hplain, cast_eq_some_iff]
  constructor
  · rintro ⟨hne, hdigits, hcontains, rfl⟩
    obtain ⟨form, h⟩ := exists_denotes_iff.mpr ⟨hne, hdigits, rfl⟩
    exact ⟨form, _, h, hcontains, rfl⟩
  · rintro ⟨form, value, h, hcontains, rfl⟩
    obtain ⟨hne, hdigits, rfl⟩ := exists_denotes_iff.mp ⟨form, h⟩
    exact ⟨hne, hdigits, hcontains, rfl⟩

theorem parseTextInt_exact (h : scalar.integerType = some type) {atom : Bytes}
    (hplain : ¬ SpelledLoosely atom) : ReadsExactly (ascii "+-") type atom := by
  obtain ⟨hlow, -, -, hhigh⟩ := Parser.integerType_within h
  constructor
  · intro value
    rw [parseTextInt_ok_iff h, parseInt_plain hplain, parseInt_plain hplain, signedNumeral_iff,
      and_comm]
    refine and_congr_left fun hcontains => ?_
    split
    · next hsign =>
        rw [hsign]
        constructor
        · rintro ⟨form, number, hdenotes, -, hvalue⟩
          exact ⟨form, number, hdenotes, neg_eq_iff_eq_neg.mp hvalue⟩
        · rintro ⟨form, number, hdenotes, rfl⟩
          -- the number is at most `2 ^ 63`, which an `i128` holds
          have hge := hcontains.1
          refine ⟨form, number, hdenotes, ⟨?_, ?_⟩, neg_neg _⟩
          · simp only [i128]
            omega
          · simp only [Parser.signedValue, i128, if_true] at hge ⊢
            omega
    · next hsign =>
        rw [Bool.eq_false_iff.mpr hsign]
        constructor
        · rintro ⟨form, number, hdenotes, -, rfl⟩
          exact ⟨form, number, hdenotes, rfl⟩
        · rintro ⟨form, number, hdenotes, rfl⟩
          have hle := hcontains.2
          refine ⟨form, number, hdenotes, ⟨Int.natCast_nonneg _, ?_⟩, rfl⟩
          simp only [Parser.signedValue, u128, Bool.false_eq_true, if_false] at hle ⊢
          omega
  · intro hoverflow
    obtain ⟨form, number, -, -, hlow⟩ :=
      (parseInt_plain hplain).mp (parseTextInt_overflow_iff.mp hoverflow).2
    simp only [i128] at hlow
    omega

theorem parseTextInt_exact_octal : ReadsExactly (ascii "+-") .i32 (ascii "-010") := by
  have hplain : ¬ SpelledLoosely (ascii "-010") := by
    intro (h : Loose 8 (ascii "010"))
    rw [show ascii "010" = 0x30 :: ascii "10" from rfl] at h
    cases h with
    | signed hsign => exact absurd hsign (by decide)
    | underscores hmem => exact absurd hmem (by decide)
  exact parseTextInt_exact (rfl : ScalarType.sfixed32.integerType = some .i32) hplain

/-- A plus sign is taken off like a minus sign. -/
theorem parseTextInt_plus : ¬ ReadsExactly (ascii "-") .i64 (ascii "+010") := by
  intro h
  have hread : parseTextInt .i64 (ascii "+010") = .ok 8 := by decide
  obtain ⟨hnumeral, -⟩ := (h.accepts 8).mp hread
  rw [show ascii "+010" = 0x2b :: ascii "010" from rfl] at hnumeral
  cases hnumeral with
  | plain h =>
      obtain ⟨c, rest, htext, hplus, -⟩ := denotes_head h
      cases htext
      exact hplus rfl
  | signed hmem => exact absurd hmem (by decide)

end Text

end Pbz
