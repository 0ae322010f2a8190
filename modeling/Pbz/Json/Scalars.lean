import Pbz.Json.Base64
import Pbz.Dynamic.Value
import Pbz.Parser.IntegerDefaults

set_option autoImplicit false

/-! # Scalar values in JSON

The values of `std.json`, and what `parseScalar` and `parseMapKey` of `json.zig` make of them. An
integer may come as a number or as a string; a string goes to `std.fmt.parseInt`, which reads more
than the decimal integers that the comments promise.
-/

namespace Pbz

/-- A value of `std.json`. An object is its members in order; their keys are distinct. -/
inductive JsonValue where
  | null
  | bool (value : Bool)
  | integer (value : Int)
  | float (value : BitVec 64)
  | numberString (text : Bytes)
  | string (text : Bytes)
  | array (items : List JsonValue)
  | object (members : List (Bytes × JsonValue))

def JsonValue.isNull : JsonValue → Bool
  | .null => true
  | _ => false

namespace Json

/-- Why a JSON value is not parsed: an error of the source, or a step that the source does not
survive. `fuel` marks a recursion of the model with too few levels. -/
inductive Failure where
  | typeMismatch
  | overflow
  | invalidCharacter
  | invalidNumber
  | invalidPadding
  | invalidEnumValue
  | unknownField
  | duplicateField
  | missingRequired
  | invalidUtf8
  | form
  | encoding (e : Pbz.Error)
  | panic
  | fuel
  deriving DecidableEq, Repr

/-- The conversions of the standard library between texts, integers and floats. -/
class Conversions where
  parseDouble : Bytes → Option (BitVec 64)
  parseSingle : Bytes → Option (BitVec 32)
  doubleFromInt : Int → BitVec 64
  singleFromInt : Int → BitVec 32
  singleFromDouble : BitVec 64 → BitVec 32

/-! ## Integers -/

/-- One digit more behind the integer read so far; it is added or subtracted by the sign. -/
def appendDecimal (type : IntegerType) (negative : Bool) (accumulate : Int) (digit : Nat) :
    Option Int :=
  let shifted := if accumulate != 0 then type.cast (accumulate * 10) else some accumulate
  shifted.bind (fun value => type.cast (if negative then value - digit else value + digit))

/-- The loop of `std.fmt.parseInt` in base ten. -/
def accumulateDecimal (type : IntegerType) (negative : Bool) : Int → Bytes → Except Failure Int
  | accumulate, [] => .ok accumulate
  | accumulate, c :: rest =>
      if c == 0x5f then accumulateDecimal type negative accumulate rest
      else match charToDigit c 10 with
        | none => .error .invalidCharacter
        | some digit =>
            match appendDecimal type negative accumulate digit with
            | none => .error .overflow
            | some value => accumulateDecimal type negative value rest

def parseDecimalWithSign (type : IntegerType) (negative : Bool) (text : Bytes) :
    Except Failure Int :=
  if text.isEmpty then .error .invalidCharacter
  else if text.head? == some 0x5f || text.getLast? == some 0x5f then .error .invalidCharacter
  else accumulateDecimal type negative 0 text

/-- `std.fmt.parseInt(T, text, 10)` with its errors. -/
def parseDecimal (type : IntegerType) (text : Bytes) : Except Failure Int :=
  match text with
  | 0x2b :: rest => parseDecimalWithSign type false rest
  | 0x2d :: rest => parseDecimalWithSign type true rest
  | _ => parseDecimalWithSign type false text

def isFiniteDouble (value : BitVec 64) : Bool := value.toNat / 2 ^ 52 % 2 ^ 11 != 2047

/-- The integer that a finite `f64` is, if it is one. -/
def integralDouble (value : BitVec 64) : Option Int :=
  let exponent := value.toNat / 2 ^ 52 % 2 ^ 11
  let fraction := value.toNat % 2 ^ 52
  let significand := if exponent == 0 then fraction else fraction + 2 ^ 52
  let magnitude :=
    if 1075 ≤ exponent then some (significand * 2 ^ (exponent - 1075))
    else
      let unit := 2 ^ (1075 - max exponent 1)
      if significand % unit == 0 then some (significand / unit) else none
  magnitude.map (fun (n : Nat) => if value.msb then -(n : Int) else n)

def floatAsInt (type : IntegerType) (value : BitVec 64) : Except Failure Int :=
  if !isFiniteDouble value then .error .invalidNumber
  else match integralDouble value with
    | none => .error .typeMismatch
    | some integer =>
        match type.cast integer with
        | none => .error .overflow
        | some integer => .ok integer

section

variable [Conversions]

def intText (type : IntegerType) (value : Bytes) : Except Failure Int :=
  match parseDecimal type value with
  | .ok integer => .ok integer
  | .error .invalidCharacter =>
      match Conversions.parseDouble value with
      | none => .error .invalidCharacter
      | some value => floatAsInt type value
  | .error e => .error e

def intValue (type : IntegerType) (jsonValue : JsonValue) : Except Failure Int :=
  match jsonValue with
  | .integer value =>
      if value < type.low ∨ type.high < value then .error .overflow else .ok value
  | .float value => floatAsInt type value
  | .numberString value => intText type value
  | .string value => parseDecimal type value
  | _ => .error .typeMismatch

end

/-! ## Floats -/

/-- A float type with what the parser needs of it. -/
structure FloatFormat (width : Nat) where
  parse : Bytes → Option (BitVec width)
  fromInt : Int → BitVec width
  fromDouble : BitVec 64 → BitVec width
  nan : BitVec width
  infinity : BitVec width
  negativeInfinity : BitVec width
  isFinite : BitVec width → Bool

section

variable [Conversions]

def doubleFormat : FloatFormat 64 where
  parse := Conversions.parseDouble
  fromInt := Conversions.doubleFromInt
  fromDouble value := value
  nan := 0x7ff8000000000000
  infinity := 0x7ff0000000000000
  negativeInfinity := 0xfff0000000000000
  isFinite := isFiniteDouble

def singleFormat : FloatFormat 32 where
  parse := Conversions.parseSingle
  fromInt := Conversions.singleFromInt
  fromDouble := Conversions.singleFromDouble
  nan := 0x7fc00000
  infinity := 0x7f800000
  negativeInfinity := 0xff800000
  isFinite value := value.toNat / 2 ^ 23 % 2 ^ 8 != 255

def numberAsFloat {width : Nat} (format : FloatFormat width) (jsonValue : JsonValue) :
    Except Failure (BitVec width) :=
  let parsed (text : Bytes) : Except Failure (BitVec width) :=
    match format.parse text with
    | none => .error .invalidCharacter
    | some value => .ok value
  let finite (value : BitVec width) : Except Failure (BitVec width) :=
    if format.isFinite value then .ok value else .error .invalidNumber
  match jsonValue with
  | .integer value => finite (format.fromInt value)
  | .float value => finite (format.fromDouble value)
  | .numberString value => do finite (← parsed value)
  | .string value =>
      if value == ascii "NaN" then .ok format.nan
      else if value == ascii "Infinity" then .ok format.infinity
      else if value == ascii "-Infinity" then .ok format.negativeInfinity
      else parsed value
  | _ => .error .typeMismatch

/-! ## Scalars and keys -/

/-- The value of an integer type that holds the integer. -/
def integerValue (scalar : ScalarType) (value : Int) : Value :=
  match scalar with
  | .int32 => .int32 (.ofInt 32 value)
  | .int64 => .int64 (.ofInt 64 value)
  | .uint32 => .uint32 (.ofInt 32 value)
  | .uint64 => .uint64 (.ofInt 64 value)
  | .sint32 => .sint32 (.ofInt 32 value)
  | .sint64 => .sint64 (.ofInt 64 value)
  | .fixed32 => .fixed32 (.ofInt 32 value)
  | .fixed64 => .fixed64 (.ofInt 64 value)
  | .sfixed32 => .sfixed32 (.ofInt 32 value)
  | _ => .sfixed64 (.ofInt 64 value)

def base64Failure : Base64Stop → Failure
  | .error .invalidPadding => .invalidPadding
  | .error .invalidCharacter => .invalidCharacter
  | .overflow | .outOfBounds | .assertion => .panic
  | .fuel => .fuel

def parseScalar (scalar : ScalarType) (jsonValue : JsonValue) : Except Failure Value :=
  let number (type : IntegerType) : Except Failure Value :=
    (intValue type jsonValue).map (integerValue scalar)
  match scalar with
  | .double => (numberAsFloat doubleFormat jsonValue).map .double
  | .float => (numberAsFloat singleFormat jsonValue).map .float
  | .int32 | .sint32 | .sfixed32 => number .i32
  | .int64 | .sint64 | .sfixed64 => number .i64
  | .uint32 | .fixed32 => number .u32
  | .uint64 | .fixed64 => number .u64
  | .bool =>
      match jsonValue with
      | .bool value => .ok (.boolean value)
      | _ => .error .typeMismatch
  | .string =>
      match jsonValue with
      | .string value => .ok (.string value)
      | _ => .error .typeMismatch
  | .bytes =>
      match jsonValue with
      | .string value => ((decodeBase64 value).mapError base64Failure).map .bytes
      | _ => .error .typeMismatch

end

def parseMapKey (scalar : ScalarType) (key : Bytes) : Except Failure Value :=
  let number (type : IntegerType) : Except Failure Value :=
    (parseDecimal type key).map (integerValue scalar)
  match scalar with
  | .bool =>
      if key == ascii "true" then .ok (.boolean true)
      else if key == ascii "false" then .ok (.boolean false)
      else .error .typeMismatch
  | .string => .ok (.string key)
  | .int32 | .sint32 | .sfixed32 => number .i32
  | .int64 | .sint64 | .sfixed64 => number .i64
  | .uint32 | .fixed32 => number .u32
  | .uint64 | .fixed64 => number .u64
  | .double | .float | .bytes => .error .typeMismatch

end Json

end Pbz
