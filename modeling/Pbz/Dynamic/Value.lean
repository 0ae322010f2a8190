import Pbz.Registry

set_option autoImplicit false

/-! # Dynamic values

The values a `DynamicMessage` stores, and the payload codecs of the scalar types. Numbers are
their bits; a pointer to a message or a map entry is the message or the entry itself.
-/

namespace Pbz

structure UnknownField where
  number : Nat
  wireType : WireType
  data : Bytes
  deriving DecidableEq, Repr

mutual

inductive Value where
  | double (v : BitVec 64)
  | float (v : BitVec 32)
  | int32 (v : BitVec 32)
  | int64 (v : BitVec 64)
  | uint32 (v : BitVec 32)
  | uint64 (v : BitVec 64)
  | sint32 (v : BitVec 32)
  | sint64 (v : BitVec 64)
  | fixed32 (v : BitVec 32)
  | fixed64 (v : BitVec 64)
  | sfixed32 (v : BitVec 32)
  | sfixed64 (v : BitVec 64)
  | boolean (v : Bool)
  | string (v : Bytes)
  | bytes (v : Bytes)
  | enumeration (v : BitVec 32)
  | message (message : DynamicMessage)
  | group (message : DynamicMessage)
  | mapEntry (key value : Value)

structure FieldValue where
  descriptor : FieldDescriptor
  values : List Value

structure DynamicMessage where
  descriptor : MessageDescriptor
  fields : List FieldValue
  unknownFields : List UnknownField

end

def DynamicMessage.init (descriptor : MessageDescriptor) : DynamicMessage :=
  { descriptor, fields := [], unknownFields := [] }

/-! ## Equality of keys -/

/-- `==` on `f32`: a NaN equals nothing, the two zeros are equal. -/
def floatEqual (a b : BitVec 32) : Bool :=
  let magnitude (x : BitVec 32) : Nat := x.toNat % 2 ^ 31
  magnitude a ≤ 0x7f800000 && magnitude b ≤ 0x7f800000
    && (a == b || (magnitude a == 0 && magnitude b == 0))

/-- `==` on `f64`. -/
def doubleEqual (a b : BitVec 64) : Bool :=
  let magnitude (x : BitVec 64) : Nat := x.toNat % 2 ^ 63
  magnitude a ≤ 0x7ff0000000000000 && magnitude b ≤ 0x7ff0000000000000
    && (a == b || (magnitude a == 0 && magnitude b == 0))

/-- `valueEqual`. On messages, groups and map entries the source compares pointers, and two
stored values are never the same object. -/
def valueEqual : Value → Value → Bool
  | .boolean a, .boolean b => a == b
  | .int32 a, .int32 b => a == b
  | .int64 a, .int64 b => a == b
  | .uint32 a, .uint32 b => a == b
  | .uint64 a, .uint64 b => a == b
  | .sint32 a, .sint32 b => a == b
  | .sint64 a, .sint64 b => a == b
  | .fixed32 a, .fixed32 b => a == b
  | .fixed64 a, .fixed64 b => a == b
  | .sfixed32 a, .sfixed32 b => a == b
  | .sfixed64 a, .sfixed64 b => a == b
  | .float a, .float b => floatEqual a b
  | .double a, .double b => doubleEqual a b
  | .string a, .string b => a == b
  | .bytes a, .bytes b => a == b
  | .enumeration a, .enumeration b => a == b
  | _, _ => false

theorem floatEqual_comm (a b : BitVec 32) : floatEqual a b = floatEqual b a := by
  simp only [floatEqual, Bool.and_comm, Bool.beq_comm (a := a)]

theorem doubleEqual_comm (a b : BitVec 64) : doubleEqual a b = doubleEqual b a := by
  simp only [doubleEqual, Bool.and_comm, Bool.beq_comm (a := a)]

theorem valueEqual_comm (a b : Value) : valueEqual a b = valueEqual b a := by
  cases a <;> cases b <;>
    simp only [valueEqual, floatEqual_comm, doubleEqual_comm, Bool.beq_comm]

theorem floatEqual_trans {a b c : BitVec 32} (h1 : floatEqual a b = true)
    (h2 : floatEqual b c = true) : floatEqual a c = true := by
  simp only [floatEqual, Bool.and_eq_true, Bool.or_eq_true, beq_iff_eq] at h1 h2 ⊢
  refine ⟨⟨h1.1.1, h2.1.2⟩, ?_⟩
  rcases h1.2 with rfl | ⟨ha, hb⟩
  · exact h2.2
  · rcases h2.2 with rfl | ⟨-, hc⟩
    · exact Or.inr ⟨ha, hb⟩
    · exact Or.inr ⟨ha, hc⟩

theorem doubleEqual_trans {a b c : BitVec 64} (h1 : doubleEqual a b = true)
    (h2 : doubleEqual b c = true) : doubleEqual a c = true := by
  simp only [doubleEqual, Bool.and_eq_true, Bool.or_eq_true, beq_iff_eq] at h1 h2 ⊢
  refine ⟨⟨h1.1.1, h2.1.2⟩, ?_⟩
  rcases h1.2 with rfl | ⟨ha, hb⟩
  · exact h2.2
  · rcases h2.2 with rfl | ⟨-, hc⟩
    · exact Or.inr ⟨ha, hb⟩
    · exact Or.inr ⟨ha, hc⟩

theorem valueEqual_trans {a b c : Value} (h1 : valueEqual a b = true)
    (h2 : valueEqual b c = true) : valueEqual a c = true := by
  cases a <;> cases b <;> simp only [valueEqual, Bool.false_eq_true] at h1 <;>
    cases c <;> simp only [valueEqual, Bool.false_eq_true] at h2 ⊢ <;>
    first
    | exact floatEqual_trans h1 h2
    | exact doubleEqual_trans h1 h2
    | (rw [beq_iff_eq] at *; rw [h1, h2])

/-! ## UTF-8 -/

def utf8Continuation (b : UInt8) : Bool := 0x80 ≤ b && b ≤ 0xbf

/-- `std.unicode.utf8ValidateSlice`: shortest forms only, no surrogates, at most U+10FFFF. -/
def utf8ValidateSlice : Bytes → Bool
  | [] => true
  | b0 :: rest =>
      if b0 < 0x80 then utf8ValidateSlice rest
      else if b0 < 0xc2 then false
      else match rest with
        | [] => false
        | b1 :: rest =>
            if b0 < 0xe0 then utf8Continuation b1 && utf8ValidateSlice rest
            else match rest with
              | [] => false
              | b2 :: rest =>
                  if b0 < 0xf0 then
                    (if b0 == 0xe0 then 0xa0 ≤ b1 && b1 ≤ 0xbf
                      else if b0 == 0xed then 0x80 ≤ b1 && b1 ≤ 0x9f
                      else utf8Continuation b1)
                    && utf8Continuation b2 && utf8ValidateSlice rest
                  else match rest with
                    | [] => false
                    | b3 :: rest =>
                        b0 < 0xf5
                        && (if b0 == 0xf0 then 0x90 ≤ b1 && b1 ≤ 0xbf
                          else if b0 == 0xf4 then 0x80 ≤ b1 && b1 ≤ 0x8f
                          else utf8Continuation b1)
                        && utf8Continuation b2 && utf8Continuation b3 && utf8ValidateSlice rest

/-! ## Scalar payloads -/

/-- The value is stored under the tag of the scalar type. -/
def Value.hasScalarType : Value → ScalarType → Bool
  | .double _, .double => true
  | .float _, .float => true
  | .int32 _, .int32 => true
  | .int64 _, .int64 => true
  | .uint32 _, .uint32 => true
  | .uint64 _, .uint64 => true
  | .sint32 _, .sint32 => true
  | .sint64 _, .sint64 => true
  | .fixed32 _, .fixed32 => true
  | .fixed64 _, .fixed64 => true
  | .sfixed32 _, .sfixed32 => true
  | .sfixed64 _, .sfixed64 => true
  | .boolean _, .bool => true
  | .string _, .string => true
  | .bytes _, .bytes => true
  | _, _ => false

/-- The varint of an `i32`, widened to 64 bits first. -/
def writeVarintInt32 (v : BitVec 32) : Bytes := writeVarint (v.signExtend 64).toNat

def encodeScalarPayload (kind : FieldKind) (value : Value) : Except Error Bytes :=
  match kind, value with
  | .scalar .double, .double v => .ok (littleBytes 8 v.toNat)
  | .scalar .float, .float v => .ok (littleBytes 4 v.toNat)
  | .scalar .int32, .int32 v => .ok (writeVarintInt32 v)
  | .scalar .int64, .int64 v => .ok (writeVarint v.toNat)
  | .scalar .uint32, .uint32 v => .ok (writeVarint v.toNat)
  | .scalar .uint64, .uint64 v => .ok (writeVarint v.toNat)
  | .scalar .sint32, .sint32 v => .ok (writeVarint (zigZagEncode32 v).toNat)
  | .scalar .sint64, .sint64 v => .ok (writeVarint (zigZagEncode64 v).toNat)
  | .scalar .fixed32, .fixed32 v => .ok (littleBytes 4 v.toNat)
  | .scalar .fixed64, .fixed64 v => .ok (littleBytes 8 v.toNat)
  | .scalar .sfixed32, .sfixed32 v => .ok (littleBytes 4 v.toNat)
  | .scalar .sfixed64, .sfixed64 v => .ok (littleBytes 8 v.toNat)
  | .scalar .bool, .boolean v => .ok (writeVarint (if v then 1 else 0))
  | .scalar .string, .string v => .ok (lengthPrefixed v)
  | .scalar .bytes, .bytes v => .ok (lengthPrefixed v)
  | .enumeration _, .enumeration v => .ok (writeVarintInt32 v)
  | _, _ => .error .typeMismatch

/-- What a read yields, with a function applied to what it read. -/
def ReadResult.map {α β : Type} (f : α → β) (r : ReadResult α) : ReadResult β :=
  match r with
  | .error e => .error e
  | .ok (v, rest) => .ok (f v, rest)

def readInt32 (input : Bytes) : ReadResult (BitVec 32) :=
  (readVarint input).map (BitVec.ofNat 32)

def decodeScalarLike (kind : FieldKind) (input : Bytes) : ReadResult Value :=
  match kind with
  | .scalar .double => (readRawLittle 8 input).map (fun raw => .double (BitVec.ofNat 64 raw))
  | .scalar .float => (readRawLittle 4 input).map (fun raw => .float (BitVec.ofNat 32 raw))
  | .scalar .int32 => (readInt32 input).map .int32
  | .scalar .int64 => (readVarint input).map (fun raw => .int64 (BitVec.ofNat 64 raw))
  | .scalar .uint32 => (readVarint input).map (fun raw => .uint32 (BitVec.ofNat 32 raw))
  | .scalar .uint64 => (readVarint input).map (fun raw => .uint64 (BitVec.ofNat 64 raw))
  | .scalar .sint32 =>
      (readVarint input).map (fun raw => .sint32 (zigZagDecode32 (BitVec.ofNat 32 raw)))
  | .scalar .sint64 =>
      (readVarint input).map (fun raw => .sint64 (zigZagDecode64 (BitVec.ofNat 64 raw)))
  | .scalar .fixed32 => (readRawLittle 4 input).map (fun raw => .fixed32 (BitVec.ofNat 32 raw))
  | .scalar .fixed64 => (readRawLittle 8 input).map (fun raw => .fixed64 (BitVec.ofNat 64 raw))
  | .scalar .sfixed32 => (readRawLittle 4 input).map (fun raw => .sfixed32 (BitVec.ofNat 32 raw))
  | .scalar .sfixed64 => (readRawLittle 8 input).map (fun raw => .sfixed64 (BitVec.ofNat 64 raw))
  | .scalar .bool => (readVarint input).map (fun raw => .boolean (raw != 0))
  | .enumeration _ => (readInt32 input).map .enumeration
  | _ => .error .typeMismatch

/-- The width of a fixed-width scalar in a packed payload. -/
def fixedWidthPackedScalarSize : ScalarType → Option Nat
  | .fixed32 | .sfixed32 | .float => some 4
  | .fixed64 | .sfixed64 | .double => some 8
  | _ => none

theorem readInt32_writeVarintInt32 (v : BitVec 32) (rest : Bytes) :
    readInt32 (writeVarintInt32 v ++ rest) = .ok (v, rest) := by
  have hv : BitVec.ofNat 32 (v.signExtend 64).toNat = v := by
    have hs : (v.signExtend 64).setWidth 32 = v := by
      apply BitVec.eq_of_getLsbD_eq
      intro i hi
      simp [BitVec.getLsbD_signExtend, hi]
      omega
    rw [BitVec.ofNat_toNat, hs]
  rw [readInt32, writeVarintInt32, readVarint_writeVarint (BitVec.isLt _)]
  simp only [ReadResult.map, hv]

theorem readRawLittle_toNat {w : Nat} (n : Nat) (hw : 2 ^ w = 256 ^ n) (v : BitVec w)
    (rest : Bytes) : readRawLittle n (littleBytes n v.toNat ++ rest) = .ok (v.toNat, rest) :=
  readRawLittle_littleBytes n _ (hw ▸ v.isLt) rest

/-- A scalar payload, other than a string's, is read back. -/
theorem decodeScalarLike_encodeScalarPayload {scalar : ScalarType} {value : Value}
    (h : value.hasScalarType scalar = true) (hp : scalar.packable = true) :
    ∃ payload, encodeScalarPayload (.scalar scalar) value = .ok payload ∧ 0 < payload.length
      ∧ ∀ rest, decodeScalarLike (.scalar scalar) (payload ++ rest) = .ok (value, rest) := by
  have h64 : ∀ v : BitVec 64, ∀ rest,
      readVarint (writeVarint v.toNat ++ rest) = .ok (v.toNat, rest) :=
    fun v => readVarint_writeVarint v.isLt
  have h32 : ∀ v : BitVec 32, ∀ rest,
      readVarint (writeVarint v.toNat ++ rest) = .ok (v.toNat, rest) :=
    fun v => readVarint_writeVarint (by have := v.isLt; omega)
  have hfix8 := @readRawLittle_toNat 64 8 (by norm_num)
  have hfix4 := @readRawLittle_toNat 32 4 (by norm_num)
  have hz32 : ∀ v, zigZagDecode32 (zigZagEncode32 v) = v := zigZagDecode_zigZagEncode (by decide)
  have hz64 : ∀ v, zigZagDecode64 (zigZagEncode64 v) = v := zigZagDecode_zigZagEncode (by decide)
  have hbool : ∀ b : Bool, ∀ rest,
      readVarint (writeVarint (if b then 1 else 0) ++ rest) = .ok (if b then 1 else 0, rest) :=
    fun b => readVarint_writeVarint (by split <;> omega)
  cases value <;> cases scalar <;> simp only [Value.hasScalarType, Bool.false_eq_true] at h <;>
    simp only [ScalarType.packable, Bool.false_eq_true] at hp <;>
    refine ⟨_, rfl, ?_, fun rest => ?_⟩ <;>
    first
    | exact writeVarint_length_pos _
    | simp only [littleBytes_length, Nat.zero_lt_succ]
    | simp only [decodeScalarLike, readInt32_writeVarintInt32, h64, h32, hfix8, hfix4, hbool,
        ReadResult.map, BitVec.ofNat_toNat, BitVec.setWidth_eq, hz32, hz64]
  next v => cases v <;> rfl

end Pbz
