import Mathlib.Tactic

set_option autoImplicit false

/-! # JSON strings

The text of a JSON string: between quotes, the bytes of the string with the quote, the backslash
and the control characters escaped. The reader takes every escape of the grammar; on the texts of
the writer it gives the string back, so no two strings have one text.
-/

namespace JsonString

/-! ## Writing -/

def hexDigit (n : Nat) : UInt8 := UInt8.ofNat (if n < 10 then 0x30 + n else 0x57 + n)

/-- The letter behind the backslash for the bytes that have one. -/
def shortEscape (c : UInt8) : Option UInt8 :=
  if c == 0x22 || c == 0x5c then some c
  else if c == 0x08 then some 0x62
  else if c == 0x0c then some 0x66
  else if c == 0x0a then some 0x6e
  else if c == 0x0d then some 0x72
  else if c == 0x09 then some 0x74
  else none

def escapeByte (c : UInt8) : List UInt8 :=
  match shortEscape c with
  | some letter => [0x5c, letter]
  | none =>
      if c < 0x20 then
        [0x5c, 0x75, 0x30, 0x30, hexDigit (c.toNat / 16), hexDigit (c.toNat % 16)]
      else [c]

def quote (value : List UInt8) : List UInt8 := 0x22 :: value.flatMap escapeByte ++ [0x22]

/-! ## Reading -/

def hexValue (c : UInt8) : Option Nat :=
  if 0x30 ≤ c && c ≤ 0x39 then some (c.toNat - 0x30)
  else if 0x61 ≤ c && c ≤ 0x66 then some (c.toNat - 0x61 + 10)
  else if 0x41 ≤ c && c ≤ 0x46 then some (c.toNat - 0x41 + 10)
  else none

/-- The byte of an escape by a letter. -/
def escapedByte (letter : UInt8) : Option UInt8 :=
  if letter == 0x22 || letter == 0x5c || letter == 0x2f then some letter
  else if letter == 0x62 then some 0x08
  else if letter == 0x66 then some 0x0c
  else if letter == 0x6e then some 0x0a
  else if letter == 0x72 then some 0x0d
  else if letter == 0x74 then some 0x09
  else none

/-- The UTF-8 form of a code point. -/
def utf8 (point : Nat) : List UInt8 :=
  if point < 0x80 then [UInt8.ofNat point]
  else if point < 0x800 then [UInt8.ofNat (0xc0 + point / 64), UInt8.ofNat (0x80 + point % 64)]
  else if point < 0x10000 then
    [UInt8.ofNat (0xe0 + point / 4096), UInt8.ofNat (0x80 + point / 64 % 64),
      UInt8.ofNat (0x80 + point % 64)]
  else
    [UInt8.ofNat (0xf0 + point / 262144), UInt8.ofNat (0x80 + point / 4096 % 64),
      UInt8.ofNat (0x80 + point / 64 % 64), UInt8.ofNat (0x80 + point % 64)]

/-- The code unit of four hexadecimal digits. -/
def readUnit : List UInt8 → Option (Nat × List UInt8)
  | a :: b :: c :: d :: rest => do
      let a ← hexValue a
      let b ← hexValue b
      let c ← hexValue c
      let d ← hexValue d
      return (((a * 16 + b) * 16 + c) * 16 + d, rest)
  | _ => none

/-- What stands behind a backslash. Two surrogates make one code point; one alone is refused. -/
def readEscape : List UInt8 → Option (List UInt8 × List UInt8)
  | 0x75 :: rest => do
      let (unit, rest) ← readUnit rest
      if 0xdc00 ≤ unit && unit < 0xe000 then none
      else if 0xd800 ≤ unit && unit < 0xdc00 then
        match rest with
        | 0x5c :: 0x75 :: rest => do
            let (low, rest) ← readUnit rest
            if 0xdc00 ≤ low && low < 0xe000 then
              return (utf8 (0x10000 + (unit - 0xd800) * 1024 + (low - 0xdc00)), rest)
            else none
        | _ => none
      else return (utf8 unit, rest)
  | letter :: rest => (escapedByte letter).map (fun byte => ([byte], rest))
  | [] => none

/-- The string up to its closing quote, and the text behind it. Each round uses a character. -/
def readCharacters : Nat → List UInt8 → Option (List UInt8 × List UInt8)
  | _, [] => none
  | 0, _ :: _ => none
  | rounds + 1, c :: rest =>
      if c == 0x22 then some ([], rest)
      else if c == 0x5c then
        match readEscape rest with
        | none => none
        | some (bytes, rest) =>
            (readCharacters rounds rest).map (fun (more, rest) => (bytes ++ more, rest))
      else if c < 0x20 then none
      else (readCharacters rounds rest).map (fun (more, rest) => (c :: more, rest))

/-- A text that is one JSON string. -/
def unquote : List UInt8 → Option (List UInt8)
  | 0x22 :: rest =>
      match readCharacters rest.length rest with
      | some (value, []) => some value
      | _ => none
  | _ => none

/-! ## The round trip -/

theorem forall_byte {P : UInt8 → Prop}
    (h : ∀ high < 16, ∀ low < 16, P (UInt8.ofNat (16 * high + low))) (c : UInt8) : P c := by
  have hhigh : c.toNat / 16 < 16 := Nat.div_lt_of_lt_mul c.toNat_lt
  have hc := h (c.toNat / 16) hhigh (c.toNat % 16) (Nat.mod_lt _ (by decide))
  rwa [Nat.div_add_mod, UInt8.ofNat_toNat] at hc

theorem escapedByte_shortEscape : ∀ c : UInt8, ∀ letter ∈ shortEscape c,
    letter ≠ 0x75 ∧ escapedByte letter = some c := by
  have hall : ∀ c : UInt8, (shortEscape c).all (fun letter =>
      letter != 0x75 && escapedByte letter == some c) = true := forall_byte (by decide)
  intro c letter hletter
  have hc := hall c
  rw [Option.mem_def.mp hletter] at hc
  simpa using hc

theorem readUnit_control : ∀ c : UInt8, c < 0x20 → ∀ rest : List UInt8,
    readUnit (0x30 :: 0x30 :: hexDigit (c.toNat / 16) :: hexDigit (c.toNat % 16) :: rest)
      = some (c.toNat, rest) := by
  have hdigits : ∀ c : UInt8, c < 0x20 →
      (hexValue (hexDigit (c.toNat / 16))).bind (fun high =>
        (hexValue (hexDigit (c.toNat % 16))).map (fun low => high * 16 + low)) = some c.toNat :=
    forall_byte (by decide)
  intro c hc rest
  have hvalue := hdigits c hc
  cases hhigh : hexValue (hexDigit (c.toNat / 16)) with
  | none => simp [hhigh] at hvalue
  | some high =>
      cases hlow : hexValue (hexDigit (c.toNat % 16)) with
      | none => simp [hhigh, hlow] at hvalue
      | some low =>
          have hzero : hexValue 0x30 = some 0 := rfl
          have hsum : high * 16 + low = c.toNat := by simpa [hhigh, hlow] using hvalue
          simp [readUnit, hzero, hhigh, hlow, hsum]

/-- One round reads the text of one byte, whatever follows it. -/
theorem readCharacters_escapeByte (rounds : Nat) (c : UInt8) (rest : List UInt8) :
    readCharacters (rounds + 1) (escapeByte c ++ rest)
      = (readCharacters rounds rest).map (fun (more, rest) => (c :: more, rest)) := by
  unfold escapeByte
  cases hletter : shortEscape c with
  | some letter =>
      obtain ⟨hu, hbyte⟩ := escapedByte_shortEscape c letter hletter
      have hescape : readEscape (letter :: rest) = some ([c], rest) := by
        unfold readEscape
        split
        · next heq => exact absurd (List.cons.inj heq).1 hu
        · next heq =>
          obtain ⟨rfl, rfl⟩ := List.cons.inj heq
          rw [hbyte]
          rfl
        · next heq => cases heq
      simp [readCharacters, hescape]
  | none =>
      have hplain : c ≠ 0x22 ∧ c ≠ 0x5c := by
        constructor <;> rintro rfl <;> cases hletter
      by_cases hc : c < 0x20
      · -- a control character without a letter of its own
        have hescape : readEscape (0x75 :: 0x30 :: 0x30 :: hexDigit (c.toNat / 16)
            :: hexDigit (c.toNat % 16) :: rest) = some ([c], rest) := by
          have hlt : c.toNat < 0x20 := hc
          have hlow : ¬ 0xdc00 ≤ c.toNat := by omega
          have hhigh : ¬ 0xd800 ≤ c.toNat := by omega
          have hutf8 : utf8 c.toNat = [c] := by
            rw [utf8, if_pos (by omega), UInt8.ofNat_toNat]
          simp [readEscape, readUnit_control c hc, hlow, hhigh, hutf8]
        simp [readCharacters, hc, hescape]
      · simp [readCharacters, hc, hplain]

theorem readCharacters_quote (value rest : List UInt8) {rounds : Nat}
    (h : value.length < rounds) :
    readCharacters rounds (value.flatMap escapeByte ++ 0x22 :: rest) = some (value, rest) := by
  induction value generalizing rounds with
  | nil =>
      obtain ⟨rounds, rfl⟩ := Nat.exists_eq_add_one.mpr h
      rfl
  | cons c more ih =>
      obtain ⟨rounds, rfl⟩ : ∃ n, rounds = n + 1 :=
        Nat.exists_eq_add_one.mpr (Nat.zero_lt_of_lt h)
      have hmore : more.length < rounds := by
        rw [List.length_cons] at h
        omega
      rw [List.flatMap_cons, List.append_assoc, readCharacters_escapeByte, ih hmore]
      rfl

theorem length_le_flatMap_escapeByte (value : List UInt8) :
    value.length ≤ (value.flatMap escapeByte).length := by
  induction value with
  | nil => simp
  | cons c rest ih =>
      have hc : 1 ≤ (escapeByte c).length := by
        unfold escapeByte
        split
        · simp
        · split <;> simp
      rw [List.flatMap_cons, List.length_append, List.length_cons]
      omega

@[simp] theorem unquote_quote (value : List UInt8) : unquote (quote value) = some value := by
  have hrounds : value.length < (value.flatMap escapeByte ++ [0x22]).length := by
    rw [List.length_append, List.length_singleton]
    exact Nat.lt_add_one_of_le (length_le_flatMap_escapeByte value)
  have hread := readCharacters_quote value [] hrounds
  unfold quote unquote
  rw [List.cons_append]
  simp only [hread]

end JsonString
