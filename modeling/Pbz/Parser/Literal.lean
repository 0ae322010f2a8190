import Pbz.Parser.Lexer

set_option autoImplicit false

/-! # Literals of `.proto` files

Numbers and strings. Integer parsing follows `std.fmt.parseInt`; the conversions to `f64` are
those of the standard library and stay abstract.
-/

namespace Pbz

/-- Why a run of the parser ends without a descriptor: with an error value, at an `unreachable`,
or at an arithmetic step that leaves its integer type. `fuel` marks a loop of the model that has
been given too few rounds. -/
inductive Stop where
  | error (e : ParseError)
  | «unreachable»
  | overflow
  | fuel
  deriving DecidableEq, Repr

/-- The conversions of the standard library to `f64`. -/
class FloatConversions where
  parseFloat : Bytes → Option (BitVec 64)
  floatFromInt : Int → BitVec 64

/-- The values of an integer type. -/
structure IntegerType where
  low : Int
  high : Int

namespace IntegerType

def i32 : IntegerType := ⟨-2 ^ 31, 2 ^ 31 - 1⟩
def i64 : IntegerType := ⟨-2 ^ 63, 2 ^ 63 - 1⟩
def u32 : IntegerType := ⟨0, 2 ^ 32 - 1⟩
def u64 : IntegerType := ⟨0, 2 ^ 64 - 1⟩

/-- `std.math.cast`. -/
def cast (type : IntegerType) (value : Int) : Option Int :=
  if type.low ≤ value ∧ value ≤ type.high then some value else none

end IntegerType

/-! ## Integers -/

/-- `std.fmt.charToDigit`. -/
def charToDigit (c : UInt8) (base : Nat) : Option Nat :=
  let value :=
    if isDigit c then some (c.toNat - 0x30)
    else if 0x41 ≤ c && c ≤ 0x5a then some (c.toNat - 0x41 + 10)
    else if 0x61 ≤ c && c ≤ 0x7a then some (c.toNat - 0x61 + 10)
    else none
  value.filter (· < base)

/-- The number written by the digits behind `value`; underscores count for nothing. -/
def digitsValue (base : Nat) : Nat → Bytes → Option Nat
  | value, [] => some value
  | value, c :: rest =>
      if c == 0x5f then digitsValue base value rest
      else match charToDigit c base with
        | some digit => digitsValue base (value * base + digit) rest
        | none => none

/-- The base that the text announces, and its digits. -/
def detectBase (text : Bytes) : Nat × Bytes :=
  match text with
  | 0x30 :: c :: rest =>
      if rest.isEmpty then (10, text)
      else if toLower c == 0x62 then (2, rest)
      else if toLower c == 0x6f then (8, rest)
      else if toLower c == 0x78 then (16, rest)
      else (10, text)
  | _ => (10, text)

def parseIntWithSign (type : IntegerType) (negative : Bool) (text : Bytes) (base : Nat) :
    Option Int :=
  if text.isEmpty then none
  else
    let (base, digits) := if base == 0 then detectBase text else (base, text)
    if digits.head? == some 0x5f || digits.getLast? == some 0x5f then none
    else (digitsValue base 0 digits).bind
      (fun magnitude => type.cast (if negative then -magnitude else magnitude))

/-- `std.fmt.parseInt`. -/
def parseInt (type : IntegerType) (text : Bytes) (base : Nat) : Option Int :=
  match text with
  | 0x2b :: rest => parseIntWithSign type false rest base
  | 0x2d :: rest => parseIntWithSign type true rest base
  | _ => parseIntWithSign type false text base

/-- `parseI64` with `parseI64Clean`. -/
def parseI64 (text : Bytes) : Option Int :=
  if (ascii "0x").isPrefixOf text || (ascii "0X").isPrefixOf text then
    parseInt .i64 (text.drop 2) 16
  else parseInt .i64 text 10

def parseIntegerDefault (type : IntegerType) (text : Bytes) : Option Int :=
  let body := match text with
    | c :: rest => if c == 0x2b || c == 0x2d then rest else text
    | [] => []
  match body with
  | [] => none
  | 0x30 :: c :: _ =>
      if toLower c == 0x78 || toLower c == 0x6f || toLower c == 0x62 then parseInt type text 0
      else parseInt type text 8
  | _ => parseInt type text 10

def parseU64 (text : Bytes) : Option Int := parseIntegerDefault .u64 text

/-! ## Floats -/

/-- `inf` and `nan` as `f64` bits. -/
def parseSpecialFloat (text : Bytes) (negative : Bool) : Except ParseError (BitVec 64) :=
  if eqlIgnoreCase text (ascii "inf") || eqlIgnoreCase text (ascii "infinity") then
    .ok (if negative then 0xfff0000000000000 else 0x7ff0000000000000)
  else if eqlIgnoreCase text (ascii "nan") then .ok 0x7ff8000000000000
  else .error .invalidNumber

/-- The text behind its sign; the buffer has room for 127 bytes of it. -/
def signedText (negative : Bool) (text : Bytes) : Except ParseError Bytes :=
  if !negative then .ok text
  else if text.length + 1 > 128 then .error .outOfMemory
  else .ok (0x2d :: text)

/-! ## Strings -/

def hexValue (c : UInt8) : Option Nat :=
  if isDigit c then some (c.toNat - 0x30)
  else if 0x61 ≤ c && c ≤ 0x66 then some (c.toNat - 0x61 + 10)
  else if 0x41 ≤ c && c ≤ 0x46 then some (c.toNat - 0x41 + 10)
  else none

def isOctalDigit (c : UInt8) : Bool := 0x30 ≤ c && c ≤ 0x37

/-- The byte of an escape of one character. -/
def simpleEscape (c : UInt8) : Option UInt8 :=
  if c == 0x61 then some 0x07
  else if c == 0x62 then some 0x08
  else if c == 0x66 then some 0x0c
  else if c == 0x6e then some 0x0a
  else if c == 0x72 then some 0x0d
  else if c == 0x74 then some 0x09
  else if c == 0x76 then some 0x0b
  else if c == 0x5c || c == 0x27 || c == 0x22 || c == 0x3f then some c
  else none

/-- The value of up to two hexadecimal digits. -/
def hexEscape (digits : Bytes) : Nat :=
  digits.foldl (fun value c => value * 16 + (hexValue c).getD 0) 0

/-- The value of octal digits, accumulated in a byte. -/
def octalEscape (digits : Bytes) : Option UInt8 :=
  let value := digits.foldl (fun value c => value * 8 + (c.toNat - 0x30)) 0
  if value < 256 then some (UInt8.ofNat value) else none

/-- The loop of `decodeStringLiteralAlloc`. -/
def decodeString : Nat → Bytes → Except Stop Bytes
  | _, [] => .ok []
  | 0, _ :: _ => .error .fuel
  | rounds + 1, c :: rest =>
      if c != 0x5c then (decodeString rounds rest).map (c :: ·)
      else match rest with
        | [] => .error (.error .invalidEscape)
        | escape :: rest =>
            match simpleEscape escape with
            | some byte => (decodeString rounds rest).map (byte :: ·)
            | none =>
                if escape == 0x78 || escape == 0x58 then
                  let digits := (rest.take 2).takeWhile (fun c => (hexValue c).isSome)
                  if digits.isEmpty then .error (.error .invalidEscape)
                  else (decodeString rounds (rest.drop digits.length)).map
                    (UInt8.ofNat (hexEscape digits) :: ·)
                else if isOctalDigit escape then
                  let more := (rest.take 2).takeWhile isOctalDigit
                  match octalEscape (escape :: more) with
                  | none => .error .overflow
                  | some byte =>
                      (decodeString rounds (rest.drop more.length)).map (byte :: ·)
                else .error (.error .invalidEscape)

def decodeStringLiteral (text : Bytes) : Except Stop Bytes := decodeString text.length text

end Pbz
