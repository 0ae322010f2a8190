import Pbz.Descriptor.Decode
import Pbz.Parser.IntegerLiterals

set_option autoImplicit false

/-! # Defaults of bytes fields

A descriptor carries the default of a bytes field as a text of printable ASCII: some bytes stand
for themselves, some are escaped by a letter, and the rest are written in octal. An octal escape
always has its three digits, the most the decoder takes, so a digit behind it is never drawn in.
-/

namespace Pbz

namespace Descriptor

/-! ## The text of a default -/

/-- The octal digit of the low three bits. -/
def octalDigit (bits : UInt8) : UInt8 := 0x30 + (bits &&& (0x7 : UInt8))

def appendOctalEscape (byte : UInt8) : Bytes :=
  [0x5c, octalDigit (byte >>> 6), octalDigit (byte >>> 3), octalDigit byte]

/-- The bytes `0x20...0x21, 0x23...0x26, 0x28...0x3e, 0x40...0x5b, 0x5d...0x7e`. -/
def standsForItself (byte : UInt8) : Bool :=
  (0x20 ≤ byte && byte ≤ 0x21) || (0x23 ≤ byte && byte ≤ 0x26) || (0x28 ≤ byte && byte ≤ 0x3e)
    || (0x40 ≤ byte && byte ≤ 0x5b) || (0x5d ≤ byte && byte ≤ 0x7e)

/-- The letter behind the backslash for the bytes that are escaped by one. -/
def escapeLetter (byte : UInt8) : Option UInt8 :=
  if byte == 0x07 then some 0x61
  else if byte == 0x08 then some 0x62
  else if byte == 0x0c then some 0x66
  else if byte == 0x0a then some 0x6e
  else if byte == 0x0d then some 0x72
  else if byte == 0x09 then some 0x74
  else if byte == 0x0b then some 0x76
  else if byte == 0x5c || byte == 0x27 || byte == 0x22 || byte == 0x3f then some byte
  else none

/-- The text of one byte. -/
def escapeByteDefault (byte : UInt8) : Bytes :=
  match escapeLetter byte with
  | some letter => [0x5c, letter]
  | none => if standsForItself byte then [byte] else appendOctalEscape byte

def escapeBytesDefaultAlloc (bytes : Bytes) : Bytes := bytes.flatMap escapeByteDefault

/-! ## Reading it back -/

/-- A text that is read as the byte: the ways the encoder has to write one. -/
inductive WritesByte (byte : UInt8) : Bytes → Prop where
  | itself (h : byte ≠ 0x5c) : WritesByte byte [byte]
  | letter {escape : UInt8} (h : simpleEscape escape = some byte) :
      WritesByte byte [0x5c, escape]
  | octal {high middle low : UInt8} (hletter : simpleEscape high = none)
      (hhigh : isOctalDigit high) (hmiddle : isOctalDigit middle) (hlow : isOctalDigit low)
      (hvalue : octalEscape [high, middle, low] = some byte) :
      WritesByte byte [0x5c, high, middle, low]

/-- The three digits of a byte are octal, and the first of them is no letter. -/
theorem octalDigits_of_byte : ∀ byte : UInt8,
    simpleEscape (octalDigit (byte >>> 6)) = none ∧ isOctalDigit (octalDigit (byte >>> 6)) = true ∧
    isOctalDigit (octalDigit (byte >>> 3)) = true ∧ isOctalDigit (octalDigit byte) = true ∧
    octalEscape [octalDigit (byte >>> 6), octalDigit (byte >>> 3), octalDigit byte] = some byte :=
  forall_byte (by decide)

theorem appendOctalEscape_writes (byte : UInt8) : WritesByte byte (appendOctalEscape byte) := by
  obtain ⟨hletter, hhigh, hmiddle, hlow, hvalue⟩ := octalDigits_of_byte byte
  exact .octal hletter hhigh hmiddle hlow hvalue

theorem simpleEscape_escapeLetter : ∀ byte : UInt8, ∀ letter ∈ escapeLetter byte,
    simpleEscape letter = some byte := by
  have hall : ∀ byte : UInt8,
      (escapeLetter byte).all (fun letter => simpleEscape letter == some byte) = true :=
    forall_byte (by decide)
  intro byte letter hletter
  have hbyte := hall byte
  rw [Option.mem_def.mp hletter] at hbyte
  simpa using hbyte

theorem escapeByteDefault_writes (byte : UInt8) : WritesByte byte (escapeByteDefault byte) := by
  unfold escapeByteDefault
  cases hletter : escapeLetter byte with
  | some letter => exact .letter (simpleEscape_escapeLetter byte letter hletter)
  | none =>
      show WritesByte byte (if standsForItself byte then [byte] else appendOctalEscape byte)
      split
      · next hitself =>
        refine .itself ?_
        rintro rfl
        exact absurd hitself (by decide)
      · exact appendOctalEscape_writes byte

/-- One round of the decoder takes the text of one byte, whatever follows it. -/
theorem WritesByte.decode {byte : UInt8} {text : Bytes} (h : WritesByte byte text)
    (rounds : Nat) (rest : Bytes) :
    decodeBytesDefaultFrom (rounds + 1) (text ++ rest)
      = (decodeBytesDefaultFrom rounds rest).map (byte :: ·) := by
  cases h with
  | itself h => simp [decodeBytesDefaultFrom, h]
  | letter h => simp [decodeBytesDefaultFrom, h]
  | @octal high middle low hletter hhigh hmiddle hlow hvalue =>
      have hx : high ≠ 0x78 := by
        rintro rfl
        exact absurd hhigh (by decide)
      have hX : high ≠ 0x58 := by
        rintro rfl
        exact absurd hhigh (by decide)
      -- two more digits stand behind the first one, and the decoder looks no further
      simp [decodeBytesDefaultFrom, hletter, hx, hX, hhigh, hmiddle, hlow, hvalue]

theorem decodeBytesDefaultFrom_escape {rounds : Nat} {bytes : Bytes}
    (h : bytes.length ≤ rounds) :
    decodeBytesDefaultFrom rounds (escapeBytesDefaultAlloc bytes) = .ok bytes := by
  induction bytes generalizing rounds with
  | nil => cases rounds <;> rfl
  | cons byte rest ih =>
      obtain ⟨rounds, rfl⟩ : ∃ n, rounds = n + 1 := Nat.exists_eq_add_one.mpr (by
        simp only [List.length_cons] at h
        omega)
      have hrest : rest.length ≤ rounds := by simpa using h
      show decodeBytesDefaultFrom (rounds + 1)
        (escapeByteDefault byte ++ escapeBytesDefaultAlloc rest) = .ok (byte :: rest)
      rw [(escapeByteDefault_writes byte).decode, ih hrest]
      rfl

theorem WritesByte.length_pos {byte : UInt8} {text : Bytes} (h : WritesByte byte text) :
    1 ≤ text.length := by
  cases h <;> simp

/-- The text has a character for each byte at least, so the decoder has rounds enough. -/
theorem length_le_escape (bytes : Bytes) :
    bytes.length ≤ (escapeBytesDefaultAlloc bytes).length := by
  induction bytes with
  | nil => simp
  | cons byte rest ih =>
      have h := (escapeByteDefault_writes byte).length_pos
      simp only [escapeBytesDefaultAlloc, List.flatMap_cons, List.length_append,
        List.length_cons] at ih ⊢
      omega

theorem escapeByteDefault_printable : ∀ byte : UInt8,
    ∀ c ∈ escapeByteDefault byte, 0x20 ≤ c ∧ c ≤ 0x7e := by
  have hall : ∀ byte : UInt8,
      (escapeByteDefault byte).all (fun c => 0x20 ≤ c && c ≤ 0x7e) = true :=
    forall_byte (by decide)
  intro byte c hc
  simpa using List.all_eq_true.mp (hall byte) c hc

/-- Every default of a bytes field survives its text, and the text is printable ASCII. -/
theorem bytesDefault_roundTrip (bytes : Bytes) :
    decodeBytesDefaultAlloc (escapeBytesDefaultAlloc bytes) = .ok bytes ∧
      ∀ c ∈ escapeBytesDefaultAlloc bytes, 0x20 ≤ c ∧ c ≤ 0x7e := by
  refine ⟨decodeBytesDefaultFrom_escape (length_le_escape bytes), fun c hc => ?_⟩
  obtain ⟨byte, -, hbyte⟩ := List.mem_flatMap.mp hc
  exact escapeByteDefault_printable byte c hbyte

example : escapeBytesDefaultAlloc [0x01, 0x37, 0x22, 0xff] = ascii "\\0017\\\"\\377" := by decide

end Descriptor

end Pbz
