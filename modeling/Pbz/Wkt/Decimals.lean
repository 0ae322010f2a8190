import Mathlib.Data.List.DropRight
import Pbz.Wkt.Payload

set_option autoImplicit false

/-! # Decimal numbers of the well-known types

Fields of dates and times are printed with leading zeros, and fractions of a second with three, six
or nine digits. They are read with `std.fmt.parseInt`, which takes a sign and underscores besides
digits.
-/

namespace Pbz

namespace Wkt

/-- The result of an arithmetic step or of a cast, if it is in its integer type. -/
def fit (type : IntegerType) (value : Int) : Except WktStop Int :=
  if type.low ≤ value ∧ value ≤ type.high then .ok value else .error .overflow

theorem fit_eq {type : IntegerType} {value : Int} (hlow : type.low ≤ value)
    (hhigh : value ≤ type.high) : fit type value = .ok value := if_pos ⟨hlow, hhigh⟩

theorem fit_i64 {value : Int} (h : -2 ^ 63 ≤ value ∧ value ≤ 2 ^ 63 - 1) :
    fit .i64 value = .ok value := if_pos h

theorem fit_i32 {value : Int} (h : -2 ^ 31 ≤ value ∧ value ≤ 2 ^ 31 - 1) :
    fit .i32 value = .ok value := if_pos h

theorem fit_u32 {value : Int} (h : 0 ≤ value ∧ value ≤ 2 ^ 32 - 1) :
    fit .u32 value = .ok value := if_pos h

/-! ## Printing -/

/-- The format `{d}`. -/
def decimalDigits (n : Nat) : Bytes := (Nat.toDigits 10 n).map (fun c => UInt8.ofNat c.toNat)

/-- The format `{d:0>N}`. -/
def padded (width n : Nat) : Bytes :=
  List.replicate (width - (decimalDigits n).length) 0x30 ++ decimalDigits n

def writeCanonicalFraction (nanos : Nat) : Except WktStop Bytes :=
  let frac := padded 9 nanos
  if frac.length > 9 then .error .unreachable
  else
    let len := (frac.rdropWhile (· == 0x30)).length
    let len := if len ≤ 3 then 3 else if len ≤ 6 then 6 else 9
    .ok (0x2e :: frac.take len)

/-- `writeCanonicalFraction` of a number that is cast to `u32`. -/
def castFraction (nanos : Int) : Except WktStop Bytes := do
  let nanos ← fit .u32 nanos
  writeCanonicalFraction nanos.toNat

/-! ## Reading -/

/-- The loop over the digits of a fraction. -/
def fractionNanos : Int → Int → Bytes → Except WktStop Int
  | _, nanos, [] => .ok nanos
  | scale, nanos, c :: rest => do
      let part ← fit .i32 (((c.toNat - 0x30 : Nat) : Int) * scale)
      let nanos ← fit .i32 (nanos + part)
      fractionNanos (scale.tdiv 10) nanos rest

/-- `std.fmt.parseInt` with the error of the type. -/
def parseField (invalid : WktError) (type : IntegerType) (text : Bytes) : Except WktStop Int :=
  match Json.parseDecimal type text with
  | .error _ => .error (.error invalid)
  | .ok value => .ok value

/-! ## Numerals -/

theorem isDigit_iff : ∀ c : UInt8, isDigit c = true ↔ IsDigitOf 10 c :=
  forall_byte (by decide)

/-- A numeral of so many digits. -/
structure Numeral (length : Nat) (text : Bytes) (value : Int) : Prop where
  length : text.length = length
  digits : ∀ c ∈ text, IsDigitOf 10 c
  value : value = digitsNumber 10 0 text

/-- A text of so many characters that `parseInt` takes for a number. -/
structure LooseNumeral (length : Nat) (text : Bytes) (value : Int) : Prop where
  length : text.length = length
  signed : Json.SignedDigits text value

/-- Digits are what `parseInt` takes without signs and underscores. -/
theorem numeral_iff {length : Nat} (hpos : length ≠ 0) {text : Bytes} {value : Int} :
    Numeral length text value ↔ LooseNumeral length text value ∧ ¬ HasSign text := by
  constructor
  · rintro ⟨hlength, hdigits, rfl⟩
    have hne : text ≠ [] := by
      rintro rfl
      exact hpos hlength.symm
    have hinteger := Json.decimalInteger_iff.mp (.natural hne hdigits)
    refine ⟨⟨hlength, hinteger.1⟩, ?_⟩
    rintro (hplus | hminus | hunderscore)
    · exact ((hdigits _ hplus).mono (by decide)).ne_sign.1 rfl
    · exact ((hdigits _ hminus).mono (by decide)).ne_sign.2 rfl
    · exact (hdigits _ hunderscore).ne_underscore rfl
  · rintro ⟨⟨hlength, hsigned⟩, hsign⟩
    obtain ⟨hplus, hminus, hunderscore⟩ : 0x2b ∉ text ∧ 0x2d ∉ text ∧ 0x5f ∉ text := by
      simpa [HasSign] using hsign
    have hloose : ¬ Json.SpelledLoosely text :=
      not_or.mpr ⟨fun hhead => hplus (List.mem_of_head? hhead), hunderscore⟩
    cases Json.decimalInteger_iff.mpr ⟨hsigned, hloose⟩ with
    | natural hne hdigits => exact ⟨hlength, hdigits, rfl⟩
    | negative hne hdigits => exact absurd List.mem_cons_self hminus

theorem digitValue_ten : ∀ c : UInt8, IsDigitOf 10 c →
    digitValue c = c.toNat - 0x30 ∧ digitValue c < 10 :=
  forall_byte (by decide)

/-- The number of so many characters is below that power of ten. -/
theorem LooseNumeral.bounds {length : Nat} {text : Bytes} {value : Int}
    (h : LooseNumeral length text value) : -10 ^ length < value ∧ value < 10 ^ length := by
  have hnumber {body : Bytes} (hbody : Json.SeparatedDigits body) (hle : body.length ≤ length) :
      Json.separatedNumber body < 10 ^ length := by
    have hdigits : ∀ c ∈ body.filter (· != 0x5f), digitValue c < 10 := by
      intro c hc
      obtain ⟨hmem, hne⟩ := List.mem_filter.mp hc
      exact (digitValue_ten c ((hbody.digits c hmem).resolve_left (bne_iff_ne.mp hne))).2
    calc Json.separatedNumber body
        < (0 + 1) * 10 ^ (body.filter (· != 0x5f)).length := digitsNumber_lt_pow 0 hdigits
      _ = 10 ^ (body.filter (· != 0x5f)).length := Nat.one_mul _
      _ ≤ 10 ^ length :=
          Nat.pow_le_pow_right (by decide) (Nat.le_trans (List.length_filter_le _ _) hle)
  have hcast {n : Nat} (hn : n < 10 ^ length) : (n : Int) < 10 ^ length := by exact_mod_cast hn
  obtain ⟨hlength, hsigned⟩ := h
  cases hsigned with
  | plain hbody =>
      have hlt := hcast (hnumber hbody (Nat.le_of_eq hlength))
      omega
  | @plus body hbody =>
      rw [List.length_cons] at hlength
      have hlt := hcast (hnumber hbody (by omega))
      omega
  | @minus body hbody =>
      rw [List.length_cons] at hlength
      have hlt := hcast (hnumber hbody (by omega))
      omega

theorem parseField_iff {invalid : WktError} {type : IntegerType} (hzero : type.Contains 0)
    {text : Bytes} {value : Int} :
    parseField invalid type text = .ok value ↔
      Json.SignedDigits text value ∧ type.Contains value := by
  rw [← Json.parseDecimal_iff hzero, parseField]
  cases Json.parseDecimal type text with
  | error e =>
      constructor
      · intro h
        cases h
      · intro h
        cases h
  | ok result =>
      constructor
      · intro h
        cases h
        rfl
      · intro h
        cases h
        rfl

theorem parseField_outcome (invalid : WktError) (type : IntegerType) (text : Bytes) :
    (∃ value, parseField invalid type text = .ok value)
      ∨ parseField invalid type text = .error (.error invalid) := by
  rw [parseField]
  cases Json.parseDecimal type text with
  | error e => exact .inr rfl
  | ok value => exact .inl ⟨value, rfl⟩

/-! ## What is printed -/

/-- The byte of a digit. -/
theorem digitByte : ∀ d < 10, IsDigitOf 10 (UInt8.ofNat (Nat.digitChar d).toNat)
    ∧ digitValue (UInt8.ofNat (Nat.digitChar d).toNat) = d := by
  decide

theorem decimalDigits_numeral (n : Nat) :
    Numeral (decimalDigits n).length (decimalDigits n) n := by
  induction n using Nat.strongRecOn with
  | ind n ih =>
      by_cases hn : n < 10
      · obtain ⟨hdigit, hvalue⟩ := digitByte n hn
        have htext : decimalDigits n = [UInt8.ofNat (Nat.digitChar n).toNat] := by
          rw [decimalDigits, Nat.toDigits_of_lt_base hn]
          rfl
        have hnumber : digitsNumber 10 0 [UInt8.ofNat (Nat.digitChar n).toNat] = n :=
          (Nat.zero_add _).trans hvalue
        rw [htext]
        exact ⟨rfl, List.forall_mem_singleton.mpr hdigit, congrArg Int.ofNat hnumber.symm⟩
      · obtain ⟨hdigit, hvalue⟩ := digitByte (n % 10) (Nat.mod_lt _ (by decide))
        have hfront := ih (n / 10) (by omega)
        have hsplit : decimalDigits n = decimalDigits (n / 10)
            ++ [UInt8.ofNat (Nat.digitChar (n % 10)).toNat] := by
          rw [decimalDigits, Nat.toDigits_of_base_le (by decide) (Nat.le_of_not_lt hn),
            List.map_append]
          rfl
        have hnumber : digitsNumber 10 0 (decimalDigits n) = n := by
          have hhead : digitsNumber 10 0 (decimalDigits (n / 10)) = n / 10 :=
            (Int.ofNat.inj hfront.value).symm
          rw [hsplit, digitsNumber, List.foldl_append]
          show digitsNumber 10 0 (decimalDigits (n / 10)) * 10 + digitValue _ = n
          rw [hhead, hvalue]
          omega
        refine ⟨rfl, ?_, congrArg Int.ofNat hnumber.symm⟩
        rw [hsplit]
        exact List.forall_mem_append.mpr ⟨hfront.digits, List.forall_mem_singleton.mpr hdigit⟩

/-- Zeros in front add nothing. -/
theorem digitsNumber_zeros (count : Nat) (digits : Bytes) :
    digitsNumber 10 0 (List.replicate count 0x30 ++ digits) = digitsNumber 10 0 digits := by
  induction count with
  | zero => rfl
  | succ count ih => exact ih

theorem padded_numeral {width n : Nat} (hpos : 0 < width) (h : n < 10 ^ width) :
    Numeral width (padded width n) n := by
  have hdigits := decimalDigits_numeral n
  have hlength : (decimalDigits n).length ≤ width := by
    rw [decimalDigits, List.length_map]
    exact (Nat.length_toDigits_le_iff (by decide) hpos).mpr h
  refine ⟨?_, ?_, ?_⟩
  · rw [padded, List.length_append, List.length_replicate]
    omega
  · refine List.forall_mem_append.mpr ⟨fun c hc => ?_, hdigits.digits⟩
    rw [List.eq_of_mem_replicate hc]
    decide
  · rw [padded, digitsNumber_zeros]
    exact hdigits.value

theorem padded_int {width : Nat} (hpos : 0 < width) {value : Int} (hlow : 0 ≤ value)
    (hhigh : value < 10 ^ width) : Numeral width (padded width value.toNat) value := by
  have hvalue : (value.toNat : Int) = value := Int.toNat_of_nonneg hlow
  have hnat : value.toNat < 10 ^ width := by
    rw [← hvalue] at hhigh
    exact_mod_cast hhigh
  have hnumeral := padded_numeral hpos hnat
  rwa [hvalue] at hnumeral

theorem Numeral.not_mem_backslash {length : Nat} {text : Bytes} {value : Int}
    (h : Numeral length text value) : 0x5c ∉ text :=
  fun hmem => absurd (h.digits _ hmem) (by decide)

/-! ## Fractions -/

/-- What digits behind the point write in nanoseconds. -/
def fractionValue (digits : Bytes) : Nat := digitsNumber 10 0 digits * 10 ^ (9 - digits.length)

/-- A fraction of one to nine digits. -/
structure Fraction (digits : Bytes) (nanos : Int) : Prop where
  nonempty : digits ≠ []
  within : digits.length ≤ 9
  all : ∀ c ∈ digits, IsDigitOf 10 c
  value : nanos = fractionValue digits

/-- A fraction behind its point. -/
def fractionText : Option Bytes → Bytes
  | none => []
  | some digits => 0x2e :: digits

theorem Fraction.bounds {digits : Bytes} {nanos : Int} (h : Fraction digits nanos) :
    0 ≤ nanos ∧ nanos ≤ 999999999 := by
  have hlt := digitsNumber_lt_pow 0 (fun c hc => (digitValue_ten c (h.all c hc)).2)
  rw [Nat.zero_add, Nat.one_mul] at hlt
  have hvalue : fractionValue digits < 1000000000 :=
    calc fractionValue digits
        < 10 ^ digits.length * 10 ^ (9 - digits.length) :=
          Nat.mul_lt_mul_of_pos_right hlt (Nat.pow_pos (by decide))
      _ = 10 ^ 9 := by rw [← Nat.pow_add, Nat.add_sub_cancel' h.within]
      _ = 1000000000 := by decide
  rw [h.value]
  omega

/-- The nanoseconds of a fraction that may be left out. -/
inductive ReadsFraction : Option Bytes → Int → Prop where
  | none : ReadsFraction none 0
  | some {digits : Bytes} {nanos : Int} (h : Fraction digits nanos) :
      ReadsFraction (some digits) nanos

theorem ReadsFraction.bounds {fraction : Option Bytes} {nanos : Int}
    (h : ReadsFraction fraction nanos) : 0 ≤ nanos ∧ nanos ≤ 999999999 := by
  cases h with
  | none => decide
  | some h => exact h.bounds

theorem ReadsFraction.not_mem_backslash {fraction : Option Bytes} {nanos : Int}
    (h : ReadsFraction fraction nanos) : 0x5c ∉ fractionText fraction := by
  cases h with
  | none => exact List.not_mem_nil
  | some h =>
      exact fun hmem => (List.mem_cons.mp hmem).elim (by decide)
        (fun hmem => absurd (h.all _ hmem) (by decide))

section

variable {room value : Nat}

/-- A digit behind the ones read. With room for more digits the sum stays below a second. -/
theorem fraction_step {c : UInt8} (hc : IsDigitOf 10 c)
    (hroom : (value + 1) * 10 ^ (room + 1) ≤ 10 ^ 9) :
    fit .i32 (((c.toNat - 0x30 : Nat) : Int) * ((10 ^ (room + 1) / 10 : Nat) : Int))
        = .ok ((digitValue c * 10 ^ room : Nat) : Int)
      ∧ fit .i32 (((value * 10 ^ (room + 1) : Nat) : Int) + ((digitValue c * 10 ^ room : Nat) : Int))
        = .ok (((value * 10 + digitValue c) * 10 ^ room : Nat) : Int)
      ∧ ((10 ^ (room + 1) / 10 : Nat) : Int).tdiv 10 = ((10 ^ room / 10 : Nat) : Int)
      ∧ (value * 10 + digitValue c + 1) * 10 ^ room ≤ 10 ^ 9 := by
  obtain ⟨hdigit, hten⟩ := digitValue_ten c hc
  have hscale : 10 ^ (room + 1) / 10 = 10 ^ room := by
    rw [Nat.pow_succ, Nat.mul_div_cancel _ (by decide)]
  have hnext : (value * 10 + digitValue c + 1) * 10 ^ room ≤ 10 ^ 9 :=
    calc (value * 10 + digitValue c + 1) * 10 ^ room
        ≤ ((value + 1) * 10) * 10 ^ room := Nat.mul_le_mul_right _ (by omega)
      _ = (value + 1) * 10 ^ (room + 1) := by rw [Nat.pow_succ', Nat.mul_assoc]
      _ ≤ 10 ^ 9 := hroom
  have hsum : value * 10 ^ (room + 1) + digitValue c * 10 ^ room
      = (value * 10 + digitValue c) * 10 ^ room := by
    rw [Nat.add_mul, Nat.pow_succ', Nat.mul_assoc]
  have hbound : (value * 10 + digitValue c) * 10 ^ room ≤ 10 ^ 9 :=
    Nat.le_trans (Nat.mul_le_mul_right _ (Nat.le_succ _)) hnext
  refine ⟨?_, ?_, by rw [hscale]; rfl, hnext⟩
  · rw [hscale, ← hdigit, ← Int.natCast_mul]
    have hle : digitValue c * 10 ^ room ≤ 10 ^ 9 := by omega
    exact fit_eq (Int.le_trans (by decide) (Int.natCast_nonneg _))
      (Int.le_trans (Int.ofNat_le.mpr hle) (by decide))
  · rw [← Int.natCast_add, hsum]
    exact fit_eq (Int.le_trans (by decide) (Int.natCast_nonneg _))
      (Int.le_trans (Int.ofNat_le.mpr hbound) (by decide))

/-- The scale is that of the next digit. -/
theorem fractionNanos_eq {digits : Bytes} (h : ∀ c ∈ digits, IsDigitOf 10 c)
    (hlength : digits.length ≤ room) (hroom : (value + 1) * 10 ^ room ≤ 10 ^ 9) :
    fractionNanos ((10 ^ room / 10 : Nat) : Int) ((value * 10 ^ room : Nat) : Int) digits
      = .ok ((digitsNumber 10 value digits * 10 ^ (room - digits.length) : Nat) : Int) := by
  induction digits generalizing room value with
  | nil => rfl
  | cons c rest ih =>
      obtain ⟨room, rfl⟩ : ∃ n, room = n + 1 :=
        Nat.exists_eq_add_one.mpr (Nat.lt_of_lt_of_le (Nat.succ_pos _) hlength)
      obtain ⟨hc, hrest⟩ := List.forall_mem_cons.mp h
      obtain ⟨hpart, hnanos, hscale, hnext⟩ := fraction_step hc hroom
      have hleft : room + 1 - (c :: rest).length = room - rest.length := by
        rw [List.length_cons]
        omega
      simp only [fractionNanos, hpart, hnanos, Bind.bind, Except.bind]
      rw [hscale, ih hrest (Nat.le_of_succ_le_succ hlength) hnext, hleft]
      rfl

end

theorem fractionNanos_digits {digits : Bytes} (h : ∀ c ∈ digits, IsDigitOf 10 c)
    (hlength : digits.length ≤ 9) :
    fractionNanos 100000000 0 digits = .ok (fractionValue digits : Int) :=
  @fractionNanos_eq 9 0 digits h hlength (by decide)

theorem digitsNumber_append_zeros (digits : Bytes) (count : Nat) :
    digitsNumber 10 0 (digits ++ List.replicate count 0x30) = digitsNumber 10 0 digits * 10 ^ count := by
  induction count with
  | zero => simp
  | succ count ih =>
      rw [List.replicate_succ', ← List.append_assoc, digitsNumber, List.foldl_append]
      show digitsNumber 10 0 (digits ++ List.replicate count 0x30) * 10 + 0 = _
      rw [ih, Nat.pow_succ, Nat.mul_assoc]
      rfl

/-- Behind what is left without the zeros at the end there are zeros only. -/
theorem drop_rdropWhile {text : Bytes} {len : Nat}
    (h : (text.rdropWhile (· == 0x30)).length ≤ len) :
    text.drop len = List.replicate (text.length - len) 0x30 := by
  refine List.eq_replicate_iff.mpr ⟨List.length_drop .., fun c hc => ?_⟩
  have hsplit : text.rdropWhile (· == 0x30) ++ text.rtakeWhile (· == 0x30) = text :=
    List.rdropWhile_append_rtakeWhile
  rw [← hsplit, List.drop_append, List.drop_eq_nil_of_le h, List.nil_append] at hc
  have hzero := @List.mem_rtakeWhile_imp _ (· == 0x30) text c (List.mem_of_mem_drop hc)
  exact beq_iff_eq.mp hzero

/-- The zeros at the end may be left out. -/
theorem fraction_take {nanos len : Nat} (h : nanos < 10 ^ 9) (hpos : 0 < len) (hlen : len ≤ 9)
    (hzeros : ((padded 9 nanos).rdropWhile (· == 0x30)).length ≤ len) :
    Fraction ((padded 9 nanos).take len) nanos := by
  have hnumeral := padded_numeral (by decide) h
  have htake : ((padded 9 nanos).take len).length = len := by
    rw [List.length_take, hnumeral.length]
    omega
  have hsplit : padded 9 nanos = (padded 9 nanos).take len ++ List.replicate (9 - len) 0x30 := by
    have hdrop := drop_rdropWhile hzeros
    rw [hnumeral.length] at hdrop
    rw [← hdrop, List.take_append_drop]
  refine ⟨?_, ?_, fun c hc => hnumeral.digits c (List.mem_of_mem_take hc), ?_⟩
  · rw [← List.length_pos_iff, htake]
    exact hpos
  · rw [htake]
    exact hlen
  · rw [hnumeral.value, fractionValue, htake, ← digitsNumber_append_zeros, ← hsplit]

theorem writeCanonicalFraction_eq {nanos : Nat} (h : nanos < 10 ^ 9) :
    ∃ digits, writeCanonicalFraction nanos = .ok (0x2e :: digits) ∧ Fraction digits nanos := by
  have hlength := (padded_numeral (by decide) h).length
  have hfits : ¬ (padded 9 nanos).length > 9 := by
    rw [hlength]
    decide
  have hzeros : ((padded 9 nanos).rdropWhile (· == 0x30)).length ≤ 9 :=
    Nat.le_trans (List.rdropWhile_prefix (· == 0x30) (padded 9 nanos)).length_le
      (Nat.le_of_eq hlength)
  rw [writeCanonicalFraction]
  simp only [if_neg hfits]
  split_ifs with hthree hsix
  · exact ⟨_, rfl, fraction_take h (by decide) (by decide) hthree⟩
  · exact ⟨_, rfl, fraction_take h (by decide) (by decide) hsix⟩
  · exact ⟨_, rfl, fraction_take h (by decide) (by decide) hzeros⟩

theorem castFraction_eq {nanos : Int} (h : 0 < nanos ∧ nanos ≤ 999999999) :
    ∃ digits, Fraction digits nanos ∧ castFraction nanos = .ok (0x2e :: digits) := by
  have hvalue : (nanos.toNat : Int) = nanos := Int.toNat_of_nonneg (Int.le_of_lt h.1)
  have hlt : nanos.toNat < 10 ^ 9 := by omega
  obtain ⟨digits, hwrite, hdigits⟩ := writeCanonicalFraction_eq hlt
  rw [hvalue] at hdigits
  refine ⟨digits, hdigits, ?_⟩
  rw [castFraction, fit_u32 (by omega)]
  exact hwrite

end Wkt

end Pbz
