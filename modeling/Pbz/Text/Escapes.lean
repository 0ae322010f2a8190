import Pbz.Parser.IntegerLiterals
import Pbz.Text.Strings

set_option autoImplicit false

/-! # Escapes in string literals

The lexer of `.proto` files and the text format decode the same escapes by a letter and by number,
each with a loop of its own. A numeric escape takes as many digits as it can, up to two hexadecimal
or three octal ones, and its value is accumulated in a byte: this is too small for the octal
escapes from `\400` on.
-/

namespace Pbz

namespace Text

/-! ## What literals denote -/

/-- Which characters a literal may hold, and which escapes besides those that all literals have. -/
structure Dialect where
  plain : UInt8 → Bool
  unicode : Bool
  otherEscapes : Bool

def protoDialect : Dialect where
  plain c := c != 0x5c
  unicode := false
  otherEscapes := false

/-- The literals of the text format that begin with the quote. -/
def textDialect (quote : UInt8) : Dialect where
  plain c := c != quote && c != 0x5c && c != 0x0a && c != 0x0d
  unicode := true
  otherEscapes := true

def isHexDigit (c : UInt8) : Bool := (hexValue c).isSome

/-- The digits in front of the rest are as many as there are, up to the limit. -/
structure Greedy (digit : UInt8 → Bool) (limit : Nat) (digits rest : Bytes) : Prop where
  all : ∀ c ∈ digits, digit c = true
  within : digits.length ≤ limit
  maximal : digits.length < limit → ∀ c ∈ rest.head?, digit c = false

/-- An escape behind its backslash, the bytes it denotes and what follows it. -/
inductive Escape (dialect : Dialect) : Bytes → Bytes → Bytes → Prop where
  | letter {escape byte : UInt8} {rest : Bytes} (h : simpleEscape escape = some byte) :
      Escape dialect (escape :: rest) [byte] rest
  | hex {x : UInt8} {digits rest : Bytes} (hx : x = 0x78 ∨ x = 0x58) (hne : digits ≠ [])
      (hdigits : Greedy isHexDigit 2 digits rest) (hfits : digitsNumber 16 0 digits < 256) :
      Escape dialect (x :: (digits ++ rest)) [UInt8.ofNat (digitsNumber 16 0 digits)] rest
  | octal {c : UInt8} {more rest : Bytes} (hc : isOctalDigit c = true)
      (hmore : Greedy isOctalDigit 2 more rest) (hfits : digitsNumber 8 0 (c :: more) < 256) :
      Escape dialect (c :: (more ++ rest)) [UInt8.ofNat (digitsNumber 8 0 (c :: more))] rest
  | unicode {u : UInt8} {digits rest : Bytes} (h : dialect.unicode = true)
      (hu : u = 0x75 ∧ digits.length = 4 ∨ u = 0x55 ∧ digits.length = 8)
      (hdigits : ∀ c ∈ digits, isHexDigit c = true)
      (hrange : digitsNumber 16 0 digits ≤ 0x10ffff)
      (hsurrogate : ¬ (0xd800 ≤ digitsNumber 16 0 digits ∧ digitsNumber 16 0 digits ≤ 0xdfff)) :
      Escape dialect (u :: (digits ++ rest)) (JsonString.utf8 (digitsNumber 16 0 digits)) rest
  | other {c : UInt8} {rest : Bytes} (h : dialect.otherEscapes = true)
      (hletter : simpleEscape c = none) (hx : c ≠ 0x78 ∧ c ≠ 0x58) (hu : c ≠ 0x75 ∧ c ≠ 0x55)
      (hoctal : isOctalDigit c = false) : Escape dialect (c :: rest) [c] rest

/-- The text in front of the rest is made of characters and escapes that denote the bytes. -/
inductive Spells (dialect : Dialect) (rest : Bytes) : Bytes → Bytes → Prop where
  | nil : Spells dialect rest rest []
  | plain {c : UInt8} {text bytes : Bytes} (hc : dialect.plain c = true)
      (h : Spells dialect rest text bytes) : Spells dialect rest (c :: text) (c :: bytes)
  | escape {text more bytes byte : Bytes} (hescape : Escape dialect text byte more)
      (h : Spells dialect rest more bytes) :
      Spells dialect rest (0x5c :: text) (byte ++ bytes)

/-- Octal digits that make no byte. -/
structure WideDigits (a b c : UInt8) : Prop where
  octal : ∀ d ∈ [a, b, c], isOctalDigit d = true
  wide : 256 ≤ digitsNumber 8 0 [a, b, c]

/-- Behind characters and escapes that denote bytes stands an octal escape of a number that makes
none. -/
def WideOctal (dialect : Dialect) (text : Bytes) : Prop :=
  ∃ a b c rest bytes,
    Spells dialect (0x5c :: a :: b :: c :: rest) text bytes ∧ WideDigits a b c

/-! ## Digits -/

section

variable {digit : UInt8 → Bool} {limit : Nat}

theorem Greedy.takeWhile_eq {digits rest : Bytes} (h : Greedy digit limit digits rest) :
    ((digits ++ rest).take limit).takeWhile digit = digits := by
  rw [List.take_append, List.takeWhile_append_of_pos]
  · rw [List.take_of_length_le h.within]
    have hnone : (rest.take (limit - digits.length)).takeWhile digit = [] := by
      by_cases hlt : digits.length < limit
      · cases rest with
        | nil => simp
        | cons c more =>
            obtain ⟨n, hn⟩ := Nat.exists_eq_add_one.mpr (Nat.sub_pos_of_lt hlt)
            rw [hn, List.take_succ_cons, List.takeWhile_cons_of_neg]
            simpa using h.maximal hlt c rfl
      · rw [Nat.sub_eq_zero_of_le (Nat.le_of_not_lt hlt)]
        rfl
    rw [hnone, List.append_nil]
  · exact fun c hc => h.all c (List.mem_of_mem_take hc)

/-- What is taken of a text. -/
theorem exists_greedy (digit : UInt8 → Bool) (limit : Nat) (text : Bytes) :
    ∃ digits rest, text = digits ++ rest ∧ (text.take limit).takeWhile digit = digits
      ∧ Greedy digit limit digits rest := by
  induction limit generalizing text with
  | zero => exact ⟨[], text, rfl, by simp, by simp, by simp, by simp⟩
  | succ limit ih =>
      cases text with
      | nil => exact ⟨[], [], rfl, rfl, by simp, by simp, by simp⟩
      | cons c more =>
          by_cases hc : digit c = true
          · obtain ⟨digits, rest, htext, htake, hdigits⟩ := ih more
            refine ⟨c :: digits, rest, by rw [htext]; rfl, ?_, ?_⟩
            · rw [List.take_succ_cons, List.takeWhile_cons_of_pos hc, htake]
            · refine ⟨List.forall_mem_cons.mpr ⟨hc, hdigits.all⟩, ?_, fun hlt => ?_⟩
              · exact Nat.succ_le_succ hdigits.within
              · exact hdigits.maximal (Nat.lt_of_succ_lt_succ hlt)
          · refine ⟨[], c :: more, rfl, ?_, by simp, by simp, fun _ => by simpa using hc⟩
            rw [List.take_succ_cons, List.takeWhile_cons_of_neg hc]

theorem digitValue_octal : ∀ c : UInt8, isOctalDigit c = true →
    digitValue c = c.toNat - 0x30 ∧ digitValue c < 8 :=
  forall_byte (by decide)

theorem digitValue_hex : ∀ c : UInt8, digitValue c < 16 := forall_byte (by decide)

/-- Octal digits that do not fit are three. -/
theorem octal_wide {c : UInt8} {more rest : Bytes} (hc : isOctalDigit c = true)
    (hmore : Greedy isOctalDigit 2 more rest) (h : ¬ digitsNumber 8 0 (c :: more) < 256) :
    ∃ a b, more = [a, b] := by
  have hvalue := (digitValue_octal c hc).2
  rcases more with _ | ⟨a, _ | ⟨b, _ | ⟨d, more⟩⟩⟩
  · have hnumber : digitsNumber 8 0 [c] = 0 * 8 + digitValue c := rfl
    omega
  · have ha := (digitValue_octal a (hmore.all a List.mem_cons_self)).2
    have hnumber : digitsNumber 8 0 [c, a] = (0 * 8 + digitValue c) * 8 + digitValue a := rfl
    omega
  · exact ⟨a, b, rfl⟩
  · have hlength := hmore.within
    simp at hlength

theorem appendDigit_eq (bits base value digit : Nat) :
    appendDigit bits base value digit
      = if value * base + digit < 2 ^ bits then some (value * base + digit) else none := by
  by_cases hsum : value * base + digit < 2 ^ bits
  · have hproduct : value * base < 2 ^ bits := by omega
    rw [appendDigit, if_pos hproduct]
  · rw [appendDigit, if_neg hsum, ite_self]

/-- A number is accumulated in a byte if it fits, and else some step is stopped. -/
theorem accumulateByte_eq {base value : Nat} {digits : Bytes} (hbase : 1 ≤ base)
    (hvalue : value < 256) :
    accumulateByte base value digits
      = if digitsNumber base value digits < 256 then some (digitsNumber base value digits)
        else none := by
  induction digits generalizing value with
  | nil => exact (if_pos hvalue).symm
  | cons c rest ih =>
      have hnumber : digitsNumber base value (c :: rest)
          = digitsNumber base (value * base + digitValue c) rest := rfl
      have hstep : accumulateByte base value (c :: rest)
          = (appendDigit 8 base value (digitValue c)).bind
              (fun value => accumulateByte base value rest) := rfl
      rw [hnumber, hstep, appendDigit_eq]
      by_cases hsum : value * base + digitValue c < 2 ^ 8
      · rw [if_pos hsum]
        exact ih hsum
      · have hle := @le_digitsNumber base (value * base + digitValue c) rest hbase
        have hwide : ¬ digitsNumber base (value * base + digitValue c) rest < 256 := by omega
        rw [if_neg hwide, if_neg hsum]
        rfl

/-- Two hexadecimal digits always fit. -/
theorem hex_fits {digits : Bytes} (h : digits.length ≤ 2) : digitsNumber 16 0 digits < 256 :=
  calc digitsNumber 16 0 digits
      < (0 + 1) * 16 ^ digits.length := digitsNumber_lt_pow 0 (fun c _ => digitValue_hex c)
    _ ≤ (0 + 1) * 16 ^ 2 := Nat.mul_le_mul_left _ (Nat.pow_le_pow_right (by decide) h)
    _ = 256 := by decide

/-- The lexer accumulates the digits all at once. -/
theorem octalEscape_eq {digits : Bytes} (h : ∀ c ∈ digits, isOctalDigit c = true) :
    octalEscape digits
      = if digitsNumber 8 0 digits < 256 then some (UInt8.ofNat (digitsNumber 8 0 digits))
        else none := by
  have hfold (value : Nat) :
      digits.foldl (fun value c => value * 8 + (c.toNat - 0x30)) value
        = digitsNumber 8 value digits := by
    induction digits generalizing value with
    | nil => rfl
    | cons c rest ih =>
        obtain ⟨hc, hrest⟩ := List.forall_mem_cons.mp h
        have hnumber : digitsNumber 8 value (c :: rest)
            = digitsNumber 8 (value * 8 + digitValue c) rest := rfl
        rw [List.foldl_cons, hnumber, (digitValue_octal c hc).1, ih hrest]
  rw [octalEscape, hfold 0]

end

/-! ## The decoder of the lexer -/

theorem decodeString_plain {c : UInt8} {text : Bytes} (h : protoDialect.plain c = true)
    {rounds : Nat} : decodeString (rounds + 1) (c :: text)
      = (decodeString rounds text).map (c :: ·) := by
  have hne : c ≠ 0x5c := bne_iff_ne.mp h
  simp [decodeString, hne]

/-- The loop takes an escape in a round. -/
theorem decodeString_escape {text bytes rest : Bytes} (h : Escape protoDialect text bytes rest)
    (rounds : Nat) : decodeString (rounds + 1) (0x5c :: text)
      = (decodeString rounds rest).map (bytes ++ ·) := by
  have hx : ∀ x : UInt8, x = 0x78 ∨ x = 0x58 →
      simpleEscape x = none ∧ (x == 0x78 || x == 0x58) = true := by
    rintro x (rfl | rfl) <;> decide
  have hoctal : ∀ c : UInt8, isOctalDigit c = true →
      simpleEscape c = none ∧ (c == 0x78 || c == 0x58) = false := forall_byte (by decide)
  cases h with
  | letter h => simp [decodeString, h]
  | @hex x digits rest hx' hne hdigits hfits =>
      obtain ⟨hletter, hmark⟩ := hx x hx'
      have htake : ((digits ++ rest).take 2).takeWhile (fun c => (hexValue c).isSome) = digits :=
        hdigits.takeWhile_eq
      have hempty : digits.isEmpty = false := by simpa using hne
      have hvalue : hexEscape digits = digitsNumber 16 0 digits := rfl
      simp [decodeString, hletter, hx', htake, hne, hvalue]
  | @octal c more rest hc hmore hfits =>
      obtain ⟨hletter, hmark⟩ := hoctal c hc
      have htake := hmore.takeWhile_eq
      have hvalue := octalEscape_eq (List.forall_mem_cons.mpr ⟨hc, hmore.all⟩)
      rw [if_pos hfits] at hvalue
      simp only [Bool.or_eq_false_iff, beq_eq_false_iff_ne] at hmark
      simp [decodeString, hletter, hmark, hc, htake, hvalue]
  | unicode h => cases h
  | other h => cases h

theorem Escape.length_lt {dialect : Dialect} {text bytes rest : Bytes}
    (h : Escape dialect text bytes rest) : rest.length < text.length := by
  cases h <;> simp only [List.length_cons, List.length_append] <;> omega

section

variable {dialect : Dialect}

theorem WideOctal.plain {c : UInt8} {text : Bytes} (hc : dialect.plain c = true)
    (h : WideOctal dialect text) : WideOctal dialect (c :: text) := by
  obtain ⟨x, y, z, rest, bytes, hspells, hwide⟩ := h
  exact ⟨x, y, z, rest, c :: bytes, .plain hc hspells, hwide⟩

theorem WideOctal.escape {text bytes rest : Bytes} (hescape : Escape dialect text bytes rest)
    (h : WideOctal dialect rest) : WideOctal dialect (0x5c :: text) := by
  obtain ⟨x, y, z, more, after, hspells, hwide⟩ := h
  exact ⟨x, y, z, more, bytes ++ after, .escape hescape hspells, hwide⟩

/-- What stands behind a backslash is an escape, has too wide digits, or is of no known form. -/
theorem escape_numeric {c : UInt8} (text : Bytes) (hc : isOctalDigit c = true) :
    (∃ bytes rest, Escape dialect (c :: text) bytes rest)
      ∨ ∃ a b rest, text = a :: b :: rest ∧ WideDigits c a b := by
  obtain ⟨more, rest, rfl, -, hmore⟩ := exists_greedy isOctalDigit 2 text
  by_cases hfits : digitsNumber 8 0 (c :: more) < 256
  · exact .inl ⟨_, rest, .octal hc hmore hfits⟩
  · obtain ⟨a, b, rfl⟩ := octal_wide hc hmore hfits
    exact .inr ⟨a, b, rest, rfl, List.forall_mem_cons.mpr ⟨hc, hmore.all⟩, Nat.le_of_not_lt hfits⟩

end

/-- Behind a backslash, the loop takes an escape, reports an error, or meets digits that are too
wide. -/
theorem decodeString_backslash (text : Bytes) :
    (∃ bytes rest, Escape protoDialect text bytes rest)
      ∨ (∀ rounds, ∃ e, decodeString (rounds + 1) (0x5c :: text) = .error (.error e))
      ∨ ∃ a b c rest, text = a :: b :: c :: rest ∧ WideDigits a b c := by
  cases text with
  | nil => exact .inr (.inl fun rounds => ⟨.invalidEscape, rfl⟩)
  | cons c text =>
      cases hletter : simpleEscape c with
      | some byte => exact .inl ⟨[byte], text, .letter hletter⟩
      | none =>
          by_cases hx : c = 0x78 ∨ c = 0x58
          · obtain ⟨digits, rest, htext, htake, hdigits⟩ := exists_greedy isHexDigit 2 text
            by_cases hempty : digits = []
            · have hnone : (text.take 2).takeWhile (fun c => (hexValue c).isSome) = [] :=
                htake.trans hempty
              exact .inr (.inl fun rounds => ⟨.invalidEscape, by
                simp [decodeString, hletter, hx, hnone]⟩)
            · rw [htext]
              exact .inl ⟨_, rest, .hex hx hempty hdigits (hex_fits hdigits.within)⟩
          · by_cases hoctal : isOctalDigit c = true
            · rcases escape_numeric text hoctal with hescape | ⟨a, b, rest, rfl, hwide⟩
              · exact .inl hescape
              · exact .inr (.inr ⟨c, a, b, rest, rfl, hwide⟩)
            · have hxs := not_or.mp hx
              exact .inr (.inl fun rounds => ⟨.invalidEscape, by
                simp [decodeString, hletter, hxs, hoctal]⟩)

/-- What characters and escapes denote is decoded, whatever follows them. -/
theorem decodeString_spells {text bytes rest : Bytes} (h : Spells protoDialect rest text bytes) :
    ∀ {rounds : Nat}, text.length ≤ rounds → ∃ left, rest.length ≤ left
      ∧ decodeString rounds text = (decodeString left rest).map (bytes ++ ·) := by
  induction h with
  | nil =>
      intro rounds hrounds
      refine ⟨rounds, hrounds, ?_⟩
      cases decodeString rounds rest <;> rfl
  | @plain c text bytes hc _ ih =>
      intro rounds hrounds
      obtain ⟨rounds, rfl⟩ : ∃ n, rounds = n + 1 :=
        Nat.exists_eq_add_one.mpr (Nat.zero_lt_of_lt hrounds)
      obtain ⟨left, hleft, hdecode⟩ := ih (Nat.le_of_succ_le_succ hrounds)
      refine ⟨left, hleft, ?_⟩
      rw [decodeString_plain hc, hdecode]
      cases decodeString left rest <;> rfl
  | @escape text more bytes byte hescape _ ih =>
      intro rounds hrounds
      obtain ⟨rounds, rfl⟩ : ∃ n, rounds = n + 1 :=
        Nat.exists_eq_add_one.mpr (Nat.zero_lt_of_lt hrounds)
      have hlength := hescape.length_lt
      have hroom : more.length ≤ rounds := by
        rw [List.length_cons] at hrounds
        omega
      obtain ⟨left, hleft, hdecode⟩ := ih hroom
      refine ⟨left, hleft, ?_⟩
      rw [decodeString_escape hescape, hdecode]
      cases decodeString left rest with
      | ok more => exact congrArg Except.ok (List.append_assoc byte bytes more).symm
      | error e => rfl

theorem decodeString_wide {a b c : UInt8} (h : WideDigits a b c) (rounds : Nat) (rest : Bytes) :
    decodeString (rounds + 1) (0x5c :: a :: b :: c :: rest) = .error .overflow := by
  have hoctal : ∀ c : UInt8, isOctalDigit c = true →
      simpleEscape c = none ∧ c ≠ 0x78 ∧ c ≠ 0x58 := forall_byte (by decide)
  obtain ⟨ha, hb, hc⟩ : isOctalDigit a = true ∧ isOctalDigit b = true ∧ isOctalDigit c = true := by
    simpa using h.octal
  obtain ⟨hletter, hx, hX⟩ := hoctal a ha
  have hvalue := octalEscape_eq h.octal
  rw [if_neg (Nat.not_lt.mpr h.wide)] at hvalue
  simp [decodeString, hletter, hx, hX, ha, hb, hc, hvalue]

theorem decodeStringLiteral_wide {text : Bytes} (h : WideOctal protoDialect text) :
    decodeStringLiteral text = .error .overflow := by
  obtain ⟨a, b, c, rest, bytes, hspells, hwide⟩ := h
  obtain ⟨left, hleft, hdecode⟩ := decodeString_spells hspells (Nat.le_refl text.length)
  obtain ⟨left, rfl⟩ : ∃ n, left = n + 1 := Nat.exists_eq_add_one.mpr (Nat.zero_lt_of_lt hleft)
  rw [decodeStringLiteral, hdecode, decodeString_wide hwide]
  rfl

/-- The decoder gives the bytes that the literal denotes or reports an error, unless it has met
octal digits that are too wide. -/
theorem decodeString_outcome {rounds : Nat} {text : Bytes} (h : text.length ≤ rounds) :
    (∃ bytes, decodeString rounds text = .ok bytes ∧ Spells protoDialect [] text bytes)
      ∨ (∃ e, decodeString rounds text = .error (.error e)) ∨ WideOctal protoDialect text := by
  induction rounds using Nat.strongRecOn generalizing text with
  | ind rounds ih =>
      cases text with
      | nil => exact .inl ⟨[], by cases rounds <;> rfl, .nil⟩
      | cons c text =>
          obtain ⟨rounds, rfl⟩ : ∃ n, rounds = n + 1 :=
            Nat.exists_eq_add_one.mpr (Nat.zero_lt_of_lt h)
          have hroom : text.length ≤ rounds := Nat.le_of_succ_le_succ h
          by_cases hc : c = 0x5c
          · rw [hc]
            rcases decodeString_backslash text with ⟨bytes, rest, hescape⟩ | herror |
              ⟨x, y, z, rest, rfl, hwide⟩
            · have hlength := hescape.length_lt
              have hstep := decodeString_escape hescape rounds
              rcases ih rounds (Nat.lt_succ_self _) (show rest.length ≤ rounds by omega) with
                ⟨more, hdecode, hspells⟩ | ⟨e, hdecode⟩ | hlater
              · exact .inl ⟨bytes ++ more, by rw [hstep, hdecode]; rfl, .escape hescape hspells⟩
              · exact .inr (.inl ⟨e, by rw [hstep, hdecode]; rfl⟩)
              · exact .inr (.inr (hlater.escape hescape))
            · exact .inr (.inl (herror rounds))
            · exact .inr (.inr ⟨x, y, z, rest, [], .nil, hwide⟩)
          · have hplain : protoDialect.plain c = true := bne_iff_ne.mpr hc
            have hstep := @decodeString_plain c text hplain rounds
            rcases ih rounds (Nat.lt_succ_self _) hroom with
              ⟨more, hdecode, hspells⟩ | ⟨e, hdecode⟩ | hlater
            · exact .inl ⟨c :: more, by rw [hstep, hdecode]; rfl, .plain hplain hspells⟩
            · exact .inr (.inl ⟨e, by rw [hstep, hdecode]; rfl⟩)
            · exact .inr (.inr (hlater.plain hplain))

/-! ## The reader of the text format -/

/-- There is room for a hexadecimal digit, and then for those behind it. -/
theorem hexDigit_room {value digit count : Nat} (hdigit : digit < 16)
    (hfits : (value + 1) * 16 ^ (count + 1) ≤ 2 ^ 32) :
    appendDigit 32 16 value digit = some (value * 16 + digit)
      ∧ (value * 16 + digit + 1) * 16 ^ count ≤ 2 ^ 32 := by
  have hroom : (value * 16 + digit + 1) * 16 ^ count ≤ 2 ^ 32 :=
    calc (value * 16 + digit + 1) * 16 ^ count
        ≤ ((value + 1) * 16) * 16 ^ count := Nat.mul_le_mul_right _ (by omega)
      _ = (value + 1) * 16 ^ (count + 1) := by rw [Nat.pow_succ', Nat.mul_assoc]
      _ ≤ 2 ^ 32 := hfits
  have hstep : value * 16 + digit < 2 ^ 32 :=
    calc value * 16 + digit
        < value * 16 + digit + 1 := Nat.lt_succ_self _
      _ ≤ (value * 16 + digit + 1) * 16 ^ count :=
          Nat.le_mul_of_pos_right _ (Nat.pow_pos (by decide))
      _ ≤ 2 ^ 32 := hroom
  exact ⟨by rw [appendDigit_eq, if_pos hstep], hroom⟩

/-- The loop of `readUnicodeEscape` takes as many hexadecimal digits as it is told; eight of them
always fit. -/
theorem readHexDigits_digits {digits : Bytes} (h : ∀ c ∈ digits, isHexDigit c = true) {value : Nat}
    (hfits : (value + 1) * 16 ^ digits.length ≤ 2 ^ 32) (rest : Bytes) :
    readHexDigits digits.length value (digits ++ rest)
      = .ok (digitsNumber 16 value digits, rest) := by
  induction digits generalizing value with
  | nil => rfl
  | cons c more ih =>
      obtain ⟨hc, hmore⟩ := List.forall_mem_cons.mp h
      obtain ⟨digit, hdigit⟩ := Option.isSome_iff_exists.mp hc
      have hvalue : digitValue c = digit := by rw [digitValue, hdigit]; rfl
      have hnumber : digitsNumber 16 value (c :: more)
          = digitsNumber 16 (value * 16 + digit) more := by rw [← hvalue]; rfl
      obtain ⟨happend, hroom⟩ := hexDigit_room (hvalue ▸ digitValue_hex c) hfits
      rw [List.length_cons, List.cons_append, readHexDigits, hdigit, hnumber]
      simp only [happend]
      exact ih hmore hroom

theorem readHexDigits_outcome (count : Nat) {value : Nat}
    (hfits : (value + 1) * 16 ^ count ≤ 2 ^ 32) (text : Bytes) :
    (∃ digits rest, text = digits ++ rest ∧ digits.length = count
        ∧ ∀ c ∈ digits, isHexDigit c = true)
      ∨ ∃ e, readHexDigits count value text = .error (.error e) := by
  induction count generalizing value text with
  | zero => exact .inl ⟨[], text, rfl, rfl, by simp⟩
  | succ count ih =>
      cases text with
      | nil => exact .inr ⟨.unexpectedEof, rfl⟩
      | cons c text =>
          cases hc : hexValue c with
          | none => exact .inr ⟨.invalidCharacter, by rw [readHexDigits, hc]⟩
          | some digit =>
              have hvalue : digitValue c = digit := by rw [digitValue, hc]; rfl
              obtain ⟨happend, hroom⟩ := hexDigit_room (hvalue ▸ digitValue_hex c) hfits
              rcases ih hroom text with ⟨digits, rest, rfl, hlength, hdigits⟩ | ⟨e, herror⟩
              · have hdigit : isHexDigit c = true := by rw [isHexDigit, hc]; rfl
                exact .inl ⟨c :: digits, rest, rfl, congrArg (· + 1) hlength,
                  List.forall_mem_cons.mpr ⟨hdigit, hdigits⟩⟩
              · refine .inr ⟨e, ?_⟩
                rw [readHexDigits, hc]
                simp only [happend]
                exact herror

/-- The characters that begin a numeric escape are none of an escape by a letter. -/
theorem numeric_of_octal : ∀ c : UInt8, isOctalDigit c = true →
    simpleEscape c = none ∧ c ≠ 0x78 ∧ c ≠ 0x58 ∧ c ≠ 0x75 ∧ c ≠ 0x55 :=
  forall_byte (by decide)

theorem readEscape_octal {c : UInt8} {more rest : Bytes} (hc : isOctalDigit c = true)
    (hmore : Greedy isOctalDigit 2 more rest) :
    readEscape c (more ++ rest)
      = if digitsNumber 8 0 (c :: more) < 256 then
          .ok ([UInt8.ofNat (digitsNumber 8 0 (c :: more))], rest)
        else .error .overflow := by
  obtain ⟨hletter, hx, hX, hu, hU⟩ := numeric_of_octal c hc
  obtain ⟨hdigit, hsmall⟩ := digitValue_octal c hc
  have htake := hmore.takeWhile_eq
  have hnumber : digitsNumber 8 (c.toNat - 0x30) more = digitsNumber 8 0 (c :: more) := by
    rw [← hdigit]
    show digitsNumber 8 (digitValue c) more = digitsNumber 8 (0 * 8 + digitValue c) more
    rw [Nat.zero_mul, Nat.zero_add]
  have hvalue := @accumulateByte_eq 8 (c.toNat - 0x30) more (by decide) (by omega)
  rw [hnumber] at hvalue
  by_cases hfits : digitsNumber 8 0 (c :: more) < 256
  · rw [if_pos hfits] at hvalue ⊢
    simp [readEscape, hletter, hx, hX, hu, hU, hc, htake, hvalue]
  · rw [if_neg hfits] at hvalue ⊢
    simp [readEscape, hletter, hx, hX, hu, hU, hc, htake, hvalue]

theorem readEscape_unicode {u : UInt8} {digits rest : Bytes}
    (hu : u = 0x75 ∧ digits.length = 4 ∨ u = 0x55 ∧ digits.length = 8)
    (hdigits : ∀ c ∈ digits, isHexDigit c = true) :
    readEscape u (digits ++ rest)
      = if digitsNumber 16 0 digits > 0x10ffff
            || (digitsNumber 16 0 digits ≥ 0xd800 && digitsNumber 16 0 digits ≤ 0xdfff) then
          .error (.error .invalidCharacter)
        else .ok (JsonString.utf8 (digitsNumber 16 0 digits), rest) := by
  have hroom : (0 + 1) * 16 ^ digits.length ≤ 2 ^ 32 := by
    rcases hu with ⟨-, hlength⟩ | ⟨-, hlength⟩ <;> rw [hlength] <;> decide
  have hread := readHexDigits_digits hdigits hroom rest
  have hescape : readEscape u (digits ++ rest)
      = (readUnicodeEscape digits.length (digits ++ rest)).bind
          (fun read => .ok (JsonString.utf8 read.1, read.2)) := by
    rcases hu with ⟨rfl, hlength⟩ | ⟨rfl, hlength⟩
    · rw [hlength]
      rfl
    · rw [hlength]
      rfl
  rw [hescape, readUnicodeEscape, hread]
  show (if _ then _ else _ : Except TextStop (Nat × Bytes)).bind _ = _
  split
  · rfl
  · rfl

theorem readEscape_escape {quote escape : UInt8} {text bytes rest : Bytes}
    (h : Escape (textDialect quote) (escape :: text) bytes rest) :
    readEscape escape text = .ok (bytes, rest) := by
  cases h with
  | letter h => rw [readEscape, h]
  | @hex _ digits _ hx hne hdigits hfits =>
      have htake : ((digits ++ rest).take 2).takeWhile (fun c => (hexValue c).isSome) = digits :=
        hdigits.takeWhile_eq
      have hvalue := @accumulateByte_eq 16 0 digits (by decide) (by decide)
      rw [if_pos hfits] at hvalue
      rcases hx with rfl | rfl
      · simp [readEscape, simpleEscape, htake, hne, hvalue]
      · simp [readEscape, simpleEscape, htake, hne, hvalue]
  | octal hc hmore hfits => rw [readEscape_octal hc hmore, if_pos hfits]
  | @unicode _ digits _ _ hu hdigits hrange hsurrogate =>
      rw [readEscape_unicode hu hdigits, if_neg]
      simp only [Bool.or_eq_true, Bool.and_eq_true, decide_eq_true_eq]
      omega
  | other _ hletter hx hu hoctal =>
      simp [readEscape, hletter, hx, hu, hoctal]

theorem readEscape_unicode_outcome (quote : UInt8) {u : UInt8} (hu : u = 0x75 ∨ u = 0x55)
    (text : Bytes) :
    (∃ bytes rest, Escape (textDialect quote) (u :: text) bytes rest)
      ∨ ∃ e, readEscape u text = .error (.error e) := by
  obtain ⟨count, hcount, hroom, hread⟩ : ∃ count, (u = 0x75 ∧ count = 4 ∨ u = 0x55 ∧ count = 8)
      ∧ (0 + 1) * 16 ^ count ≤ 2 ^ 32
      ∧ readEscape u text = (readUnicodeEscape count text).bind
          (fun read => .ok (JsonString.utf8 read.1, read.2)) := by
    rcases hu with rfl | rfl
    · exact ⟨4, .inl ⟨rfl, rfl⟩, by decide, rfl⟩
    · exact ⟨8, .inr ⟨rfl, rfl⟩, by decide, rfl⟩
  rcases readHexDigits_outcome count hroom text with ⟨digits, rest, rfl, rfl, hdigits⟩ | ⟨e, herror⟩
  · by_cases hpoint : digitsNumber 16 0 digits ≤ 0x10ffff
        ∧ ¬ (0xd800 ≤ digitsNumber 16 0 digits ∧ digitsNumber 16 0 digits ≤ 0xdfff)
    · exact .inl ⟨_, rest, .unicode rfl hcount hdigits hpoint.1 hpoint.2⟩
    · refine .inr ⟨.invalidCharacter, ?_⟩
      rw [readEscape_unicode hcount hdigits, if_pos]
      simp only [Bool.or_eq_true, Bool.and_eq_true, decide_eq_true_eq]
      omega
  · refine .inr ⟨e, ?_⟩
    rw [hread, readUnicodeEscape, herror]
    rfl

/-- Behind a backslash, the reader takes an escape, reports an error, or meets digits that are too
wide. -/
theorem readEscape_outcome (quote escape : UInt8) (text : Bytes) :
    (∃ bytes rest, Escape (textDialect quote) (escape :: text) bytes rest)
      ∨ (∃ e, readEscape escape text = .error (.error e))
      ∨ ∃ a b rest, text = a :: b :: rest ∧ WideDigits escape a b := by
  cases hletter : simpleEscape escape with
  | some byte => exact .inl ⟨[byte], text, .letter hletter⟩
  | none =>
      by_cases hx : escape = 0x78 ∨ escape = 0x58
      · obtain ⟨digits, rest, htext, htake, hdigits⟩ := exists_greedy isHexDigit 2 text
        by_cases hempty : digits = []
        · have hnone : (text.take 2).takeWhile (fun c => (hexValue c).isSome) = [] :=
            htake.trans hempty
          exact .inr (.inl ⟨.invalidCharacter, by simp [readEscape, hletter, hx, hnone]⟩)
        · rw [htext]
          exact .inl ⟨_, rest, .hex hx hempty hdigits (hex_fits hdigits.within)⟩
      · by_cases hoctal : isOctalDigit escape = true
        · rcases escape_numeric text hoctal with hescape | hwide
          · exact .inl hescape
          · exact .inr (.inr hwide)
        · have hxs := not_or.mp hx
          by_cases hu : escape = 0x75 ∨ escape = 0x55
          · exact (readEscape_unicode_outcome quote hu text).imp_right .inl
          · exact .inl ⟨[escape], text,
              .other rfl hletter hxs (not_or.mp hu) (Bool.eq_false_iff.mpr hoctal)⟩

section

variable {quote : UInt8}

theorem ne_of_isQuote (h : isQuote quote = true) : (0x5c : UInt8) ≠ quote := by
  rintro rfl
  cases h

theorem readQuotedStringPart_plain {c : UInt8} {text : Bytes}
    (hc : (textDialect quote).plain c = true) (rounds : Nat) :
    readQuotedStringPart quote (rounds + 1) (c :: text)
      = (readQuotedStringPart quote rounds text).map (fun read => (c :: read.1, read.2)) := by
  simp only [textDialect, Bool.and_eq_true, bne_iff_ne] at hc
  obtain ⟨⟨⟨hquote, hslash⟩, hnewline⟩, hreturn⟩ := hc
  simp [readQuotedStringPart, hquote, hslash, hnewline, hreturn]
  rfl

theorem readQuotedStringPart_escape (hquote : isQuote quote = true) {text bytes rest : Bytes}
    (h : Escape (textDialect quote) text bytes rest) (rounds : Nat) :
    readQuotedStringPart quote (rounds + 1) (0x5c :: text)
      = (readQuotedStringPart quote rounds rest).map
          (fun read => (bytes ++ read.1, read.2)) := by
  have hne := ne_of_isQuote hquote
  cases text with
  | nil => cases h
  | cons escape text =>
      simp [readQuotedStringPart, hne, readEscape_escape h]
      rfl

/-- What characters and escapes denote is read, whatever follows them. -/
theorem readQuotedStringPart_spells (hquote : isQuote quote = true) {text bytes rest : Bytes}
    (h : Spells (textDialect quote) rest text bytes) :
    ∀ {rounds : Nat}, text.length ≤ rounds → ∃ left, rest.length ≤ left
      ∧ readQuotedStringPart quote rounds text
        = (readQuotedStringPart quote left rest).map
            (fun read => (bytes ++ read.1, read.2)) := by
  induction h with
  | nil =>
      intro rounds hrounds
      refine ⟨rounds, hrounds, ?_⟩
      cases readQuotedStringPart quote rounds rest <;> rfl
  | @plain c text bytes hc _ ih =>
      intro rounds hrounds
      obtain ⟨rounds, rfl⟩ : ∃ n, rounds = n + 1 :=
        Nat.exists_eq_add_one.mpr (Nat.zero_lt_of_lt hrounds)
      obtain ⟨left, hleft, hread⟩ := ih (Nat.le_of_succ_le_succ hrounds)
      refine ⟨left, hleft, ?_⟩
      rw [readQuotedStringPart_plain hc, hread]
      cases readQuotedStringPart quote left rest <;> rfl
  | @escape text more bytes byte hescape _ ih =>
      intro rounds hrounds
      obtain ⟨rounds, rfl⟩ : ∃ n, rounds = n + 1 :=
        Nat.exists_eq_add_one.mpr (Nat.zero_lt_of_lt hrounds)
      have hlength := hescape.length_lt
      have hroom : more.length ≤ rounds := by
        rw [List.length_cons] at hrounds
        omega
      obtain ⟨left, hleft, hread⟩ := ih hroom
      refine ⟨left, hleft, ?_⟩
      rw [readQuotedStringPart_escape hquote hescape, hread]
      cases readQuotedStringPart quote left rest with
      | ok read =>
          exact congrArg Except.ok (Prod.ext (List.append_assoc byte bytes read.1).symm rfl)
      | error e => rfl

/-- A literal is read up to the quote that closes it. -/
theorem readQuotedStringPart_literal (hquote : isQuote quote = true) {text bytes rest : Bytes}
    (h : Spells (textDialect quote) (quote :: rest) text bytes) {rounds : Nat}
    (hrounds : text.length ≤ rounds) :
    readQuotedStringPart quote rounds text = .ok (bytes, rest) := by
  obtain ⟨left, hleft, hread⟩ := readQuotedStringPart_spells hquote h hrounds
  obtain ⟨left, rfl⟩ : ∃ n, left = n + 1 := Nat.exists_eq_add_one.mpr (Nat.zero_lt_of_lt hleft)
  have hclose : readQuotedStringPart quote (left + 1) (quote :: rest) = .ok ([], rest) := by
    simp [readQuotedStringPart]
  rw [hread, hclose]
  exact congrArg (fun bytes => Except.ok (bytes, rest)) (List.append_nil bytes)

theorem readQuotedStringPart_wide (hquote : isQuote quote = true) {text : Bytes}
    (h : WideOctal (textDialect quote) text) {rounds : Nat} (hrounds : text.length ≤ rounds) :
    readQuotedStringPart quote rounds text = .error .overflow := by
  obtain ⟨a, b, c, rest, bytes, hspells, hwide⟩ := h
  obtain ⟨left, hleft, hread⟩ := readQuotedStringPart_spells hquote hspells hrounds
  obtain ⟨left, rfl⟩ : ∃ n, left = n + 1 := Nat.exists_eq_add_one.mpr (Nat.zero_lt_of_lt hleft)
  obtain ⟨ha, hmore⟩ := List.forall_mem_cons.mp hwide.octal
  have hescape : readEscape a (b :: c :: rest) = .error .overflow := by
    have hgreedy : Greedy isOctalDigit 2 [b, c] rest :=
      ⟨hmore, Nat.le_refl 2, fun hlt => absurd hlt (Nat.lt_irrefl 2)⟩
    exact (readEscape_octal ha hgreedy).trans (if_neg (Nat.not_lt.mpr hwide.wide))
  have hne := ne_of_isQuote hquote
  have hstop : readQuotedStringPart quote (left + 1) (0x5c :: a :: b :: c :: rest)
      = .error .overflow := by
    simp [readQuotedStringPart, hne, hescape]
    rfl
  rw [hread, hstop]
  rfl

/-- The reader gives the bytes that the literal denotes or reports an error, unless it has met octal
digits that are too wide. -/
theorem readQuotedStringPart_outcome (hquote : isQuote quote = true) {rounds : Nat} {text : Bytes}
    (h : text.length ≤ rounds) :
    (∃ bytes rest, readQuotedStringPart quote rounds text = .ok (bytes, rest)
        ∧ Spells (textDialect quote) (quote :: rest) text bytes)
      ∨ (∃ e, readQuotedStringPart quote rounds text = .error (.error e))
      ∨ WideOctal (textDialect quote) text := by
  induction rounds using Nat.strongRecOn generalizing text with
  | ind rounds ih =>
      cases text with
      | nil => exact .inr (.inl ⟨.unexpectedEof, by cases rounds <;> rfl⟩)
      | cons c text =>
          obtain ⟨rounds, rfl⟩ : ∃ n, rounds = n + 1 :=
            Nat.exists_eq_add_one.mpr (Nat.zero_lt_of_lt h)
          have hroom : text.length ≤ rounds := Nat.le_of_succ_le_succ h
          by_cases hclose : c = quote
          · refine .inl ⟨[], text, ?_, hclose ▸ .nil⟩
            simp [readQuotedStringPart, hclose]
          by_cases hslash : c = 0x5c
          · rw [hslash]
            cases text with
            | nil =>
                refine .inr (.inl ⟨.unexpectedEof, ?_⟩)
                simp [readQuotedStringPart, hslash ▸ hclose]
            | cons escape text =>
                rcases readEscape_outcome quote escape text with ⟨bytes, rest, hescape⟩ |
                  ⟨e, herror⟩ | ⟨a, b, rest, rfl, hwide⟩
                · have hlength := hescape.length_lt
                  have hstep := readQuotedStringPart_escape hquote hescape rounds
                  rcases ih rounds (Nat.lt_succ_self _) (show rest.length ≤ rounds by omega) with
                    ⟨more, after, hread, hspells⟩ | ⟨e, hread⟩ | hlater
                  · exact .inl ⟨bytes ++ more, after, by rw [hstep, hread]; rfl,
                      .escape hescape hspells⟩
                  · exact .inr (.inl ⟨e, by rw [hstep, hread]; rfl⟩)
                  · exact .inr (.inr (hlater.escape hescape))
                · refine .inr (.inl ⟨e, ?_⟩)
                  simp [readQuotedStringPart, hslash ▸ hclose, herror]
                  rfl
                · exact .inr (.inr ⟨escape, a, b, rest, [], .nil, hwide⟩)
          by_cases hline : c = 0x0a ∨ c = 0x0d
          · refine .inr (.inl ⟨.invalidCharacter, ?_⟩)
            simp [readQuotedStringPart, hclose, hslash, hline]
          · obtain ⟨hnewline, hreturn⟩ := not_or.mp hline
            have hplain : (textDialect quote).plain c = true := by
              simp [textDialect, hclose, hslash, hnewline, hreturn]
            have hstep := @readQuotedStringPart_plain quote c text hplain rounds
            rcases ih rounds (Nat.lt_succ_self _) hroom with
              ⟨more, after, hread, hspells⟩ | ⟨e, hread⟩ | hlater
            · exact .inl ⟨c :: more, after, by rw [hstep, hread]; rfl, .plain hplain hspells⟩
            · exact .inr (.inl ⟨e, by rw [hstep, hread]; rfl⟩)
            · exact .inr (.inr (hlater.plain hplain))

end

/-! ## Both decoders -/

/-- The lexer's decoder reports an error or returns the bytes that the text denotes. -/
def DecodesToken (text : Bytes) : Prop :=
  (∃ e, decodeStringLiteral text = .error (.error e))
    ∨ ∃ bytes, decodeStringLiteral text = .ok bytes ∧ Spells protoDialect [] text bytes

/-- The reader reports an error for the text behind the opening quote or returns the bytes that it
denotes up to a closing one. -/
def ReadsLiteral (quote : UInt8) (text : Bytes) : Prop :=
  (∃ e, readQuotedStringPart quote text.length text = .error (.error e))
    ∨ ∃ bytes rest, readQuotedStringPart quote text.length text = .ok (bytes, rest)
      ∧ Spells (textDialect quote) (quote :: rest) text bytes

/-- Both decoders stay in their integers unless an octal escape makes no byte. -/
theorem decodesEscapes_iff {quote : UInt8} (hquote : isQuote quote = true) (text : Bytes) :
    (DecodesToken text ↔ ¬ WideOctal protoDialect text)
      ∧ (ReadsLiteral quote text ↔ ¬ WideOctal (textDialect quote) text) := by
  refine ⟨⟨?_, fun h => ?_⟩, ?_, fun h => ?_⟩
  · rintro (⟨e, herror⟩ | ⟨bytes, hdecode, -⟩) hwide
    · rw [decodeStringLiteral_wide hwide] at herror
      cases herror
    · rw [decodeStringLiteral_wide hwide] at hdecode
      cases hdecode
  · rcases decodeString_outcome (Nat.le_refl text.length) with hdecode | herror | hwide
    · exact .inr hdecode
    · exact .inl herror
    · exact absurd hwide h
  · rintro (⟨e, herror⟩ | ⟨bytes, rest, hread, -⟩) hwide
    · rw [readQuotedStringPart_wide hquote hwide (Nat.le_refl _)] at herror
      cases herror
    · rw [readQuotedStringPart_wide hquote hwide (Nat.le_refl _)] at hread
      cases hread
  · rcases readQuotedStringPart_outcome hquote (Nat.le_refl text.length) with hread | herror | hwide
    · exact .inr hread
    · exact .inl herror
    · exact absurd hwide h

theorem decodesEscapes_doubleQuoted :
    (DecodesToken (ascii "a\\101") ↔ ¬ WideOctal protoDialect (ascii "a\\101"))
      ∧ (ReadsLiteral 0x22 (ascii "a\\101") ↔ ¬ WideOctal (textDialect 0x22) (ascii "a\\101")) :=
  decodesEscapes_iff (by decide) (ascii "a\\101")

/-- The literal of the escape `\777` is a token of the lexer; both decoders leave the byte on it. -/
theorem not_decodesEscapes :
    Lexer.token 0 (ascii "\"\\777\"") = .ok
        { tag := .stringLiteral, start := 0, «end» := 6, text := ascii "\\777" }
      ∧ ¬ DecodesToken (ascii "\\777") ∧ ¬ ReadsLiteral 0x22 (ascii "\\777\"") := by
  have hwide : WideDigits 0x37 0x37 0x37 := ⟨by decide +kernel, by decide +kernel⟩
  refine ⟨by decide +kernel, fun h => ?_, fun h => ?_⟩
  · have hstop : decodeStringLiteral (ascii "\\777") = .error .overflow :=
      decodeStringLiteral_wide ⟨0x37, 0x37, 0x37, [], [], .nil, hwide⟩
    rcases h with ⟨e, herror⟩ | ⟨bytes, hdecode, -⟩
    · cases hstop.symm.trans herror
    · cases hstop.symm.trans hdecode
  · have hstop : readQuotedStringPart 0x22 5 (ascii "\\777\"") = .error .overflow :=
      readQuotedStringPart_wide rfl ⟨0x37, 0x37, 0x37, [0x22], [], .nil, hwide⟩ (by decide)
    rcases h with ⟨e, herror⟩ | ⟨bytes, rest, hread, -⟩
    · cases hstop.symm.trans herror
    · cases hstop.symm.trans hread

end Text

end Pbz
