import Pbz.Parser.Literal

set_option autoImplicit false

/-! # Integer literals

What an integer literal of the language means, and what `parseI64` and `parseU64` read off it.
They agree up to two points: `parseI64`, which reads what stands behind a minus sign, takes an
octal literal for a decimal one, and its range ends at the largest `i64`.
-/

namespace Pbz

/-! ## Digits -/

def digitValue (c : UInt8) : Nat := (hexValue c).getD 0

/-- The number that digits write behind the number `value`. -/
def digitsNumber (base value : Nat) (digits : Bytes) : Nat :=
  digits.foldl (fun value c => value * base + digitValue c) value

/-- A digit of the base. -/
def IsDigitOf (base : Nat) (c : UInt8) : Prop := charToDigit c base = some (digitValue c)

instance (base : Nat) (c : UInt8) : Decidable (IsDigitOf base c) :=
  inferInstanceAs (Decidable (_ = _))

inductive LiteralForm where
  | decimal
  | octal
  | hexadecimal
  deriving DecidableEq, Repr

/-- The text is an integer literal of the form, and `value` is what it denotes. -/
inductive Denotes : LiteralForm → Bytes → Nat → Prop where
  | decimal {c : UInt8} {rest : Bytes} (hfirst : c ≠ 0x30) (hdigit : IsDigitOf 10 c)
      (hrest : ∀ d ∈ rest, IsDigitOf 10 d) :
      Denotes .decimal (c :: rest) (digitsNumber 10 0 (c :: rest))
  | octal {rest : Bytes} (hrest : ∀ d ∈ rest, IsDigitOf 8 d) :
      Denotes .octal (0x30 :: rest) (digitsNumber 8 0 rest)
  | hexadecimal {x c : UInt8} {rest : Bytes} (hx : toLower x = 0x78) (hdigit : IsDigitOf 16 c)
      (hrest : ∀ d ∈ rest, IsDigitOf 16 d) :
      Denotes .hexadecimal (0x30 :: x :: c :: rest) (digitsNumber 16 0 (c :: rest))

theorem IsDigitOf.ne_underscore {base : Nat} {c : UInt8} (h : IsDigitOf base c) : c ≠ 0x5f := by
  rintro rfl
  exact nomatch h

theorem forall_byte {P : UInt8 → Prop}
    (h : ∀ high < 16, ∀ low < 16, P (UInt8.ofNat (16 * high + low))) (c : UInt8) : P c := by
  have hhigh : c.toNat / 16 < 16 := Nat.div_lt_of_lt_mul c.toNat_lt
  have hc := h (c.toNat / 16) hhigh (c.toNat % 16) (Nat.mod_lt _ (by decide))
  rwa [Nat.div_add_mod, UInt8.ofNat_toNat] at hc

theorem isDigitOf_ten : ∀ {c : UInt8}, IsDigitOf 8 c → IsDigitOf 10 c ∧ digitValue c < 8 := by
  have h : ∀ c : UInt8, IsDigitOf 8 c → IsDigitOf 10 c ∧ digitValue c < 8 :=
    forall_byte (by decide)
  exact fun {c} => h c

theorem isDigitOf_eight {c : UInt8} : IsDigitOf 8 c →
    toLower c ≠ 0x78 ∧ toLower c ≠ 0x6f ∧ toLower c ≠ 0x62 :=
  forall_byte (P := fun c => IsDigitOf 8 c →
    toLower c ≠ 0x78 ∧ toLower c ≠ 0x6f ∧ toLower c ≠ 0x62) (by decide) c

/-- A digit is no sign. -/
theorem IsDigitOf.ne_sign {c : UInt8} : IsDigitOf 16 c → c ≠ 0x2b ∧ c ≠ 0x2d :=
  forall_byte (P := fun c => IsDigitOf 16 c → c ≠ 0x2b ∧ c ≠ 0x2d) (by decide) c

theorem IsDigitOf.mono {base wider : Nat} {c : UInt8} (h : IsDigitOf base c) (hle : base ≤ wider) :
    IsDigitOf wider c := by
  unfold IsDigitOf charToDigit at *
  rw [Option.filter_eq_some_iff] at *
  refine ⟨h.1, ?_⟩
  have hlt := of_decide_eq_true h.2
  exact decide_eq_true (by omega)

/-! ## The conversions -/

theorem digitsValue_eq {base value : Nat} {digits : Bytes} (h : ∀ c ∈ digits, IsDigitOf base c) :
    digitsValue base value digits = some (digitsNumber base value digits) := by
  induction digits generalizing value with
  | nil => rfl
  | cons c rest ih =>
      obtain ⟨hc, hrest⟩ := List.forall_mem_cons.mp h
      have hunderscore : ¬ (c == 0x5f) = true := mt beq_iff_eq.mp hc.ne_underscore
      unfold digitsValue
      rw [if_neg hunderscore, hc]
      exact ih hrest

theorem parseIntWithSign_digits {type : IntegerType} {announced base : Nat} {text digits : Bytes}
    (htext : text ≠ [])
    (hbase : (if announced == 0 then detectBase text else (announced, text)) = (base, digits))
    (h : ∀ c ∈ digits, IsDigitOf base c) :
    parseIntWithSign type false text announced = type.cast (digitsNumber base 0 digits) := by
  have hends : ¬ (digits.head? == some 0x5f || digits.getLast? == some 0x5f) = true := by
    rw [Bool.or_eq_true, beq_iff_eq, beq_iff_eq]
    rintro (hhead | hlast)
    · exact (h _ (List.mem_of_head? hhead)).ne_underscore rfl
    · exact (h _ (List.mem_of_getLast? hlast)).ne_underscore rfl
  unfold parseIntWithSign
  rw [if_neg (mt List.isEmpty_iff.mp htext), hbase]
  dsimp only
  rw [if_neg hends, digitsValue_eq h]
  rfl

theorem parseInt_of_ne_sign {type : IntegerType} {base : Nat} {c : UInt8} {rest : Bytes}
    (hplus : c ≠ 0x2b) (hminus : c ≠ 0x2d) :
    parseInt type (c :: rest) base = parseIntWithSign type false (c :: rest) base := by
  unfold parseInt
  split
  · next heq => exact absurd (List.cons.inj heq).1 hplus
  · next heq => exact absurd (List.cons.inj heq).1 hminus
  · rfl

theorem parseInt_digits {type : IntegerType} {base : Nat} {c : UInt8} {rest : Bytes}
    (hbase : base ≠ 0) (hle : base ≤ 16) (h : ∀ d ∈ c :: rest, IsDigitOf base d) :
    parseInt type (c :: rest) base = type.cast (digitsNumber base 0 (c :: rest)) := by
  have hsign := ((h c List.mem_cons_self).mono hle).ne_sign
  rw [parseInt_of_ne_sign hsign.1 hsign.2]
  exact parseIntWithSign_digits (List.cons_ne_nil c rest)
    (if_neg (mt beq_iff_eq.mp hbase)) h

theorem digitsValue_digits {base value number : Nat} {text : Bytes} (hbase : base ≤ 16)
    (h : digitsValue base value text = some number) :
    ∀ c ∈ text, c = 0x5f ∨ IsDigitOf base c := by
  have hdigit : ∀ c : UInt8, ∀ base ≤ 16, (charToDigit c base).isSome → IsDigitOf base c :=
    forall_byte (by decide)
  induction text generalizing value with
  | nil => simp
  | cons c rest ih =>
      rw [digitsValue] at h
      split at h
      · next hc => exact List.forall_mem_cons.mpr ⟨.inl (beq_iff_eq.mp hc), ih h⟩
      · split at h
        · next digit hchar =>
          have hc := hdigit c base hbase (by rw [hchar]; rfl)
          exact List.forall_mem_cons.mpr ⟨.inr hc, ih h⟩
        · cases h

/-- Digits of the base, with underscores between them or without. -/
structure Grouped (base : Nat) (text : Bytes) : Prop where
  ne_nil : text ≠ []
  head : text.head? ≠ some 0x5f
  last : text.getLast? ≠ some 0x5f
  digits : ∀ c ∈ text, c = 0x5f ∨ IsDigitOf base c

/-- What `parseInt` takes for digits beside plain ones: a sign in front of them, or underscores. -/
inductive Loose (base : Nat) : Bytes → Prop where
  | signed {sign : UInt8} {text : Bytes} (hsign : sign = 0x2b ∨ sign = 0x2d)
      (h : Grouped base text) : Loose base (sign :: text)
  | underscores {text : Bytes} (hmem : 0x5f ∈ text) (h : Grouped base text) : Loose base text

theorem Loose.not_digits {base : Nat} {text : Bytes} (h : Loose base text) (hle : base ≤ 16) :
    ¬ ∀ c ∈ text, IsDigitOf base c := by
  intro hdigits
  cases h with
  | signed hsign h =>
      obtain ⟨hplus, hminus⟩ := ((hdigits _ List.mem_cons_self).mono hle).ne_sign
      exact hsign.elim hplus hminus
  | underscores hmem h => exact (hdigits _ hmem).ne_underscore rfl

theorem grouped_of_parseIntWithSign {type : IntegerType} {negative : Bool} {base : Nat}
    {text : Bytes} {result : Int} (hbase : base ≠ 0) (hle : base ≤ 16)
    (h : parseIntWithSign type negative text base = some result) : Grouped base text := by
  unfold parseIntWithSign at h
  split at h
  · cases h
  · next hempty =>
      rw [if_neg (mt beq_iff_eq.mp hbase)] at h
      dsimp only at h
      split at h
      · cases h
      · next hends =>
          obtain ⟨hhead, hlast⟩ : text.head? ≠ some 0x5f ∧ text.getLast? ≠ some 0x5f := by
            simpa using hends
          obtain ⟨magnitude, hvalue, -⟩ := Option.bind_eq_some_iff.mp h
          exact ⟨mt List.isEmpty_iff.mpr hempty, hhead, hlast, digitsValue_digits hle hvalue⟩

/-- But for what is spelled loosely, `parseInt` accepts the digits whose number the type holds. -/
theorem parseInt_eq_some_iff {type : IntegerType} {base : Nat} {text : Bytes} {result : Int}
    (hbase : base ≠ 0) (hle : base ≤ 16) (hloose : ¬ Loose base text) :
    parseInt type text base = some result ↔
      text ≠ [] ∧ (∀ c ∈ text, IsDigitOf base c)
        ∧ type.cast (digitsNumber base 0 text) = some result := by
  cases text with
  | nil =>
      constructor
      · intro h
        cases h
      · exact fun h => absurd rfl h.1
  | cons c rest =>
      constructor
      · intro h
        have hplus : c ≠ 0x2b := by
          rintro rfl
          exact hloose (.signed (.inl rfl) (grouped_of_parseIntWithSign hbase hle h))
        have hminus : c ≠ 0x2d := by
          rintro rfl
          exact hloose (.signed (.inr rfl) (grouped_of_parseIntWithSign hbase hle h))
        have hdigits : ∀ d ∈ c :: rest, IsDigitOf base d := by
          rw [parseInt_of_ne_sign hplus hminus] at h
          have hgrouped := grouped_of_parseIntWithSign hbase hle h
          exact fun d hd => (hgrouped.digits d hd).resolve_left
            (fun heq => hloose (.underscores (heq ▸ hd) hgrouped))
        exact ⟨List.cons_ne_nil c rest, hdigits, parseInt_digits hbase hle hdigits ▸ h⟩
      · rintro ⟨-, hdigits, hcast⟩
        rw [parseInt_digits hbase hle hdigits, hcast]

theorem detectBase_zero {c : UInt8} {rest : Bytes} :
    detectBase (0x30 :: c :: rest) =
      if rest.isEmpty then (10, 0x30 :: c :: rest)
      else if toLower c == 0x62 then (2, rest)
      else if toLower c == 0x6f then (8, rest)
      else if toLower c == 0x78 then (16, rest)
      else (10, 0x30 :: c :: rest) := rfl

/-- The base that `0x` announces. -/
theorem parseInt_announced {type : IntegerType} {x c : UInt8} {rest : Bytes}
    (hx : toLower x = 0x78) (h : ∀ d ∈ c :: rest, IsDigitOf 16 d) :
    parseInt type (0x30 :: x :: c :: rest) 0 = type.cast (digitsNumber 16 0 (c :: rest)) := by
  have hbase : detectBase (0x30 :: x :: c :: rest) = (16, c :: rest) := by
    rw [detectBase_zero, hx]
    rfl
  rw [parseInt_of_ne_sign (by decide) (by decide)]
  exact parseIntWithSign_digits (List.cons_ne_nil _ _) ((if_pos rfl).trans hbase) h

variable {form : LiteralForm} {text : Bytes} {value : Nat}

theorem hexPrefix_eq {x : UInt8} {rest : Bytes} :
    ((ascii "0x").isPrefixOf (0x30 :: x :: rest) || (ascii "0X").isPrefixOf (0x30 :: x :: rest))
      = (toLower x == 0x78) := by
  have h : ∀ x : UInt8, ((0x78 == x) || (0x58 == x)) = (toLower x == 0x78) :=
    forall_byte (by decide)
  rw [← h x]
  simp [ascii, List.isPrefixOf]

theorem hexPrefix_of_ne {c : UInt8} {rest : Bytes} (h : c ≠ 0x30) :
    ¬ ((ascii "0x").isPrefixOf (c :: rest) || (ascii "0X").isPrefixOf (c :: rest)) = true := by
  simp [ascii, List.isPrefixOf, Ne.symm h]

theorem parseI64_of_not_octal (h : Denotes form text value) (hform : form ≠ .octal) :
    parseI64 text = IntegerType.i64.cast value := by
  cases h with
  | decimal hfirst hdigit hrest =>
      unfold parseI64
      rw [if_neg (hexPrefix_of_ne hfirst)]
      exact parseInt_digits (by decide) (by decide) (List.forall_mem_cons.mpr ⟨hdigit, hrest⟩)
  | octal hrest => exact absurd rfl hform
  | hexadecimal hx hdigit hrest =>
      unfold parseI64
      rw [hexPrefix_eq, hx, if_pos (by decide)]
      exact parseInt_digits (by decide) (by decide) (List.forall_mem_cons.mpr ⟨hdigit, hrest⟩)

/-- `parseI64` reads an octal literal as a decimal one. -/
theorem parseI64_of_octal (h : Denotes .octal text value) :
    parseI64 text = IntegerType.i64.cast (digitsNumber 10 0 text) := by
  cases h with
  | @octal rest hrest =>
      have hdigits : ∀ d ∈ (0x30 : UInt8) :: rest, IsDigitOf 10 d :=
        List.forall_mem_cons.mpr ⟨by decide, fun d hd => (isDigitOf_ten (hrest d hd)).1⟩
      have hprefix : ¬ ((ascii "0x").isPrefixOf ((0x30 : UInt8) :: rest) ||
          (ascii "0X").isPrefixOf ((0x30 : UInt8) :: rest)) = true := by
        cases rest with
        | nil => decide
        | cons c more =>
            rw [hexPrefix_eq, beq_iff_eq]
            exact (isDigitOf_eight (hrest c List.mem_cons_self)).1
      unfold parseI64
      rw [if_neg hprefix]
      exact parseInt_digits (by decide) (by decide) hdigits

/-- The literal without a sign, by its second character if it begins with `0`. -/
def unsignedDefault (type : IntegerType) (text : Bytes) : Option Int :=
  match text with
  | [] => none
  | 0x30 :: c :: _ =>
      if toLower c == 0x78 || toLower c == 0x6f || toLower c == 0x62 then parseInt type text 0
      else parseInt type text 8
  | _ => parseInt type text 10

theorem parseIntegerDefault_of_digit {type : IntegerType} {c : UInt8} {rest : Bytes}
    (hc : IsDigitOf 16 c) :
    parseIntegerDefault type (c :: rest) = unsignedDefault type (c :: rest) := by
  have hsign : ¬ (c == 0x2b || c == 0x2d) = true := by
    rw [Bool.or_eq_true, beq_iff_eq, beq_iff_eq]
    exact fun h => h.elim hc.ne_sign.1 hc.ne_sign.2
  unfold parseIntegerDefault
  dsimp only
  rw [if_neg hsign]
  rfl

theorem parseU64_of_denotes (h : Denotes form text value) :
    parseU64 text = IntegerType.u64.cast value := by
  unfold parseU64
  cases h with
  | @decimal c rest hfirst hdigit hrest =>
      rw [parseIntegerDefault_of_digit (hdigit.mono (by decide))]
      have hbase : unsignedDefault .u64 (c :: rest) = parseInt .u64 (c :: rest) 10 := by
        unfold unsignedDefault
        split
        · next heq => exact nomatch heq
        · next heq => exact absurd (List.cons.inj heq).1 hfirst
        · rfl
      rw [hbase]
      exact parseInt_digits (by decide) (by decide) (List.forall_mem_cons.mpr ⟨hdigit, hrest⟩)
  | @octal rest hrest =>
      rw [parseIntegerDefault_of_digit (by decide)]
      cases rest with
      | nil => rfl
      | cons c more =>
          have hbase : ¬ (toLower c == 0x78 || toLower c == 0x6f || toLower c == 0x62) = true := by
            obtain ⟨hx, ho, hb⟩ := isDigitOf_eight (hrest c List.mem_cons_self)
            simp [hx, ho, hb]
          have hdigits : ∀ d ∈ (0x30 : UInt8) :: c :: more, IsDigitOf 8 d :=
            List.forall_mem_cons.mpr ⟨by decide, hrest⟩
          exact (if_neg hbase).trans (parseInt_digits (by decide) (by decide) hdigits)
  | hexadecimal hx hdigit hrest =>
      rw [parseIntegerDefault_of_digit (by decide)]
      refine (if_pos ?_).trans
        (parseInt_announced hx (List.forall_mem_cons.mpr ⟨hdigit, hrest⟩))
      rw [hx]
      decide

/-! ## Octal and decimal reading -/

theorem le_digitsNumber {base value : Nat} {digits : Bytes} (hbase : 1 ≤ base) :
    value ≤ digitsNumber base value digits := by
  induction digits generalizing value with
  | nil => exact Nat.le_refl value
  | cons c rest ih =>
      have hle : value * 1 ≤ value * base := Nat.mul_le_mul_left value hbase
      have hnext : value * base + digitValue c ≤
          digitsNumber base (value * base + digitValue c) rest := ih
      show value ≤ digitsNumber base (value * base + digitValue c) rest
      omega

/-- So many digits make a number below that power of the base, for each number in front. -/
theorem digitsNumber_lt_pow {base : Nat} (value : Nat) {digits : Bytes}
    (h : ∀ c ∈ digits, digitValue c < base) :
    digitsNumber base value digits < (value + 1) * base ^ digits.length := by
  induction digits generalizing value with
  | nil =>
      show value < (value + 1) * 1
      omega
  | cons c rest ih =>
      obtain ⟨hc, hrest⟩ := List.forall_mem_cons.mp h
      have hstep : value * base + digitValue c + 1 ≤ (value + 1) * base := by
        rw [Nat.add_mul]
        omega
      calc digitsNumber base value (c :: rest)
          = digitsNumber base (value * base + digitValue c) rest := rfl
        _ < (value * base + digitValue c + 1) * base ^ rest.length := ih _ hrest
        _ ≤ ((value + 1) * base) * base ^ rest.length := Nat.mul_le_mul_right _ hstep
        _ = (value + 1) * base ^ (c :: rest).length := by
            rw [List.length_cons, Nat.pow_succ', Nat.mul_assoc]

/-- What is ahead when the digits begin stays ahead. -/
theorem digitsNumber_lt {value larger : Nat} {digits : Bytes} (h : value < larger) :
    digitsNumber 8 value digits < digitsNumber 10 larger digits := by
  induction digits generalizing value larger with
  | nil => exact h
  | cons c rest ih =>
      refine ih ?_
      show value * 8 + digitValue c < larger * 10 + digitValue c
      omega

/-- The two readings agree on one digit behind zeros, and part behind a second one. -/
theorem octal_or_decimal {value : Nat} {digits : Bytes} (hvalue : value < 8)
    (hdigits : ∀ c ∈ digits, digitValue c < 8) :
    (digitsNumber 8 value digits < 8 → digitsNumber 10 value digits = digitsNumber 8 value digits) ∧
      (8 ≤ digitsNumber 8 value digits →
        digitsNumber 8 value digits < digitsNumber 10 value digits) := by
  induction digits generalizing value with
  | nil => exact ⟨fun _ => rfl, fun h => absurd hvalue (Nat.not_lt.mpr h)⟩
  | cons c rest ih =>
      obtain ⟨hc, hrest⟩ := List.forall_mem_cons.mp hdigits
      show (digitsNumber 8 (value * 8 + digitValue c) rest < 8 →
          digitsNumber 10 (value * 10 + digitValue c) rest =
            digitsNumber 8 (value * 8 + digitValue c) rest) ∧
        (8 ≤ digitsNumber 8 (value * 8 + digitValue c) rest →
          digitsNumber 8 (value * 8 + digitValue c) rest <
            digitsNumber 10 (value * 10 + digitValue c) rest)
      rcases Nat.eq_zero_or_pos value with rfl | hpos
      · simp only [Nat.zero_mul, Nat.zero_add]
        exact ih hc hrest
      · have hlarge : 8 ≤ digitsNumber 8 (value * 8 + digitValue c) rest :=
          Nat.le_trans (by omega) (le_digitsNumber (by decide))
        have hlt : digitsNumber 8 (value * 8 + digitValue c) rest <
            digitsNumber 10 (value * 10 + digitValue c) rest := digitsNumber_lt (by omega)
        exact ⟨fun h => absurd hlarge (Nat.not_le.mpr h), fun _ => hlt⟩

/-- Where an octal literal read as a decimal one comes out right: below eight. -/
theorem octal_read_decimal (h : Denotes .octal text value) :
    (value < 8 → digitsNumber 10 0 text = value) ∧
      (8 ≤ value → value < digitsNumber 10 0 text) := by
  cases h with
  | octal hrest =>
      exact octal_or_decimal (by decide) fun d hd => (isDigitOf_ten (hrest d hd)).2

end Pbz
