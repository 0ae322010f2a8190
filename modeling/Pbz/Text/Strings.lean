import Pbz.Lib.JsonString
import Pbz.Parser.Literal

set_option autoImplicit false

/-! # Strings in the text format

`writeQuoted` prints a string between double quotes, and `TextParser.readString` reads literals
that stand one behind the other. The reading functions take the input from the index on and return
what is left of it.
-/

namespace Pbz

namespace Text

inductive TextError where
  | unexpectedEof
  | unexpectedToken
  | invalidCharacter
  deriving DecidableEq, Repr

/-- Why the reader ends without a value: with an error, or where an integer has no room for the value
of an escape. `fuel` marks a loop of the model that has been given too few rounds. -/
inductive TextStop where
  | error (e : TextError)
  | overflow
  | fuel
  deriving DecidableEq, Repr

/-! ## Writing -/

/-- The format `{o:0>3}` behind a backslash. -/
def octalText (c : UInt8) : Bytes :=
  [0x5c, 0x30 + c / 64, 0x30 + c / 8 % 8, 0x30 + c % 8]

def byteNeedsEscape (byte : UInt8) : Bool :=
  byte == 0x22 || byte == 0x5c || byte < 0x20 || byte > 0x7e

/-- The loop over vectors, and the bytes behind the last one. -/
def vectorsNeedEscape (vectorLen : Nat) : Nat → Bytes → Bool
  | 0, bytes => bytes.any byteNeedsEscape
  | rounds + 1, bytes =>
      if vectorLen ≤ bytes.length then
        (bytes.take vectorLen).any byteNeedsEscape
          || vectorsNeedEscape vectorLen rounds (bytes.drop vectorLen)
      else bytes.any byteNeedsEscape

/-- The length of the vectors is what the target suggests, or 0. -/
def textStringNeedsEscape (vectorLen : Nat) (bytes : Bytes) : Bool :=
  if vectorLen ≥ 8 then vectorsNeedEscape vectorLen bytes.length bytes
  else bytes.any byteNeedsEscape

/-- What the loop of `writeQuoted` prints for a byte. -/
def quotedByte (c : UInt8) : Bytes :=
  if c == 0x5c then ascii "\\\\"
  else if c == 0x22 then ascii "\\\""
  else if c == 0x0a then ascii "\\n"
  else if c == 0x0d then ascii "\\r"
  else if c == 0x09 then ascii "\\t"
  else if c ≥ 0x20 && c ≤ 0x7e then [c]
  else octalText c

def writeQuoted (vectorLen : Nat) (bytes : Bytes) : Bytes :=
  if !textStringNeedsEscape vectorLen bytes then ascii "\"" ++ bytes ++ ascii "\""
  else ascii "\"" ++ bytes.flatMap quotedByte ++ ascii "\""

/-! ## Reading -/

mutual

def skipSpace : Bytes → Bytes
  | [] => []
  | c :: rest =>
      if isWhitespace c then skipSpace rest
      else if c == 0x23 then skipComment rest
      else c :: rest

/-- The rest of a comment and what is skipped behind it. -/
def skipComment : Bytes → Bytes
  | [] => []
  | c :: rest => if c == 0x0a then skipSpace rest else skipComment rest

end

/-- A step of `value = value * base + digit` in an integer of so many bits. -/
def appendDigit (bits base value digit : Nat) : Option Nat :=
  if value * base < 2 ^ bits then
    if value * base + digit < 2 ^ bits then some (value * base + digit) else none
  else none

/-- The digits of a numeric escape, one after the other. -/
def accumulateByte (base : Nat) (value : Nat) (digits : Bytes) : Option Nat :=
  digits.foldlM (fun value c => appendDigit 8 base value ((hexValue c).getD 0)) value

/-- The loop of `readUnicodeEscape`. -/
def readHexDigits : Nat → Nat → Bytes → Except TextStop (Nat × Bytes)
  | 0, value, rest => .ok (value, rest)
  | _ + 1, _, [] => .error (.error .unexpectedEof)
  | count + 1, value, c :: rest =>
      match hexValue c with
      | none => .error (.error .invalidCharacter)
      | some digit =>
          match appendDigit 32 16 value digit with
          | none => .error .overflow
          | some value => readHexDigits count value rest

def readUnicodeEscape (count : Nat) (text : Bytes) : Except TextStop (Nat × Bytes) := do
  let (value, rest) ← readHexDigits count 0 text
  if value > 0x10ffff || (value ≥ 0xd800 && value ≤ 0xdfff) then
    .error (.error .invalidCharacter)
  else .ok (value, rest)

/-- What an escape stands for; `escape` is the character behind the backslash. -/
def readEscape (escape : UInt8) (rest : Bytes) : Except TextStop (Bytes × Bytes) :=
  match simpleEscape escape with
  | some byte => .ok ([byte], rest)
  | none =>
      if escape == 0x78 || escape == 0x58 then
        let digits := (rest.take 2).takeWhile (fun c => (hexValue c).isSome)
        if digits.isEmpty then .error (.error .invalidCharacter)
        else match accumulateByte 16 0 digits with
          | none => .error .overflow
          | some value => .ok ([UInt8.ofNat value], rest.drop digits.length)
      else if escape == 0x75 || escape == 0x55 then do
        let (point, rest) ← readUnicodeEscape (if escape == 0x75 then 4 else 8) rest
        return (JsonString.utf8 point, rest)
      else if isOctalDigit escape then
        let more := (rest.take 2).takeWhile isOctalDigit
        match accumulateByte 8 (escape.toNat - 0x30) more with
        | none => .error .overflow
        | some value => .ok ([UInt8.ofNat value], rest.drop more.length)
      else .ok ([escape], rest)

/-- `readQuotedStringPart` behind the opening quote. -/
def readQuotedStringPart (quote : UInt8) : Nat → Bytes → Except TextStop (Bytes × Bytes)
  | _, [] => .error (.error .unexpectedEof)
  | 0, _ :: _ => .error .fuel
  | rounds + 1, c :: rest =>
      if c == quote then .ok ([], rest)
      else if c == 0x5c then
        match rest with
        | [] => .error (.error .unexpectedEof)
        | escape :: rest => do
            let (bytes, rest) ← readEscape escape rest
            let (more, rest) ← readQuotedStringPart quote rounds rest
            return (bytes ++ more, rest)
      else if c == 0x0a || c == 0x0d then .error (.error .invalidCharacter)
      else do
        let (more, rest) ← readQuotedStringPart quote rounds rest
        return (c :: more, rest)

def isQuote (c : UInt8) : Bool := c == 0x22 || c == 0x27

/-- The loop of `readString`. -/
def readParts : Nat → Bytes → Except TextStop (Bytes × Bytes)
  | 0, _ => .error .fuel
  | rounds + 1, text =>
      match skipSpace text with
      | [] => .ok ([], [])
      | c :: rest =>
          if isQuote c then do
            let (part, rest) ← readQuotedStringPart c rest.length rest
            let (more, rest) ← readParts rounds rest
            return (part ++ more, rest)
          else .ok ([], c :: rest)

def readString (text : Bytes) : Except TextStop (Bytes × Bytes) :=
  if (skipSpace text).head?.any isQuote then readParts (text.length + 1) text
  else .error (.error .unexpectedToken)

end Text

end Pbz
