import Pbz.Dynamic.Consume
import Pbz.Wire.TagLoop

set_option autoImplicit false

/-! # Structs on the wire

`Struct`, `Value` and `ListValue` contain each other, to any depth. A field of a struct is an entry
of a map: a message of a key and a value, both of which may be missing or come more than once. Keys
are distinct in what is decoded, where a later field takes the place of an earlier one.
-/

namespace Pbz

namespace Wkt

inductive StructError where
  | wire (e : Error)
  | invalidUtf8
  | invalidNumber
  | invalidNullValue
  /-- The model has gone down fewer levels than the bytes have. -/
  | fuel
  deriving DecidableEq, Repr

mutual

inductive Value where
  | nullValue
  | numberValue (value : BitVec 64)
  | stringValue (value : Bytes)
  | boolValue (value : Bool)
  | structValue (value : Struct)
  | listValue (value : ListValue)

structure Struct where
  fields : List StructField

structure StructField where
  key : Bytes
  value : Value

structure ListValue where
  values : List Value

end

def ensureUtf8 (value : Bytes) : Except StructError Unit :=
  if !utf8ValidateSlice value then .error .invalidUtf8 else .ok ()

def isNan (value : BitVec 64) : Bool := value.toNat % 2 ^ 63 > 0x7ff0000000000000

def isPositiveInf (value : BitVec 64) : Bool := value == 0x7ff0000000000000

def isNegativeInf (value : BitVec 64) : Bool := value == 0xfff0000000000000

def ensureFinite (value : BitVec 64) : Except StructError Unit :=
  if isNan value || isPositiveInf value || isNegativeInf value then .error .invalidNumber else .ok ()

/-! ## Encoding -/

/-- What a writer appends, its error among those of the codec. -/
def written (result : Except Error Bytes) : Except StructError Bytes := result.mapError .wire

def writeInt32 (number : Nat) (value : BitVec 32) : Except Error Bytes := do
  let tag ← writeTag number .varint
  return tag ++ writeVarintInt32 value

def writeDouble (number : Nat) (value : BitVec 64) : Except Error Bytes := do
  let tag ← writeTag number .fixed64
  return tag ++ littleBytes 8 value.toNat

def writeBool (number : Nat) (value : Bool) : Except Error Bytes := do
  let tag ← writeTag number .varint
  return tag ++ [if value then 1 else 0]

def writeString (number : Nat) (value : Bytes) : Except Error Bytes := writeBytes number value

mutual

def Value.encode : Value → Except StructError Bytes
  | .nullValue => written (writeInt32 1 0)
  | .numberValue value => do
      ensureFinite value
      written (writeDouble 2 value)
  | .stringValue value => do
      ensureUtf8 value
      written (writeString 3 value)
  | .boolValue value => written (writeBool 4 value)
  | .structValue value => do
      let payload ← value.encode
      written (writeMessage 5 payload)
  | .listValue value => do
      let payload ← value.encode
      written (writeMessage 6 payload)
termination_by structural x => x

def Struct.encode : Struct → Except StructError Bytes
  | { fields } => encodeFields fields
termination_by structural x => x

/-- The loop over the fields. -/
def encodeFields : List StructField → Except StructError Bytes
  | [] => .ok []
  | field :: rest => do
      let entry ← field.encode
      let first ← written (writeMessage 1 entry)
      let others ← encodeFields rest
      return first ++ others
termination_by structural x => x

def StructField.encode : StructField → Except StructError Bytes
  | { key, value } => do
      ensureUtf8 key
      let keyBytes ← written (writeString 1 key)
      let valueBytes ← value.encode
      let payload ← written (writeMessage 2 valueBytes)
      return keyBytes ++ payload
termination_by structural x => x

def ListValue.encode : ListValue → Except StructError Bytes
  | { values } => encodeValues values
termination_by structural x => x

/-- The loop over the values. -/
def encodeValues : List Value → Except StructError Bytes
  | [] => .ok []
  | value :: rest => do
      let valueBytes ← value.encode
      let first ← written (writeMessage 1 valueBytes)
      let others ← encodeValues rest
      return first ++ others
termination_by structural x => x

end

/-! ## Decoding -/

/-- The only number of the enum is 0. -/
def ensureNullValue (number : BitVec 32) : Except StructError Unit :=
  if number != 0 then .error .invalidNullValue else .ok ()

def readDouble (input : Bytes) : ReadResult (BitVec 64) :=
  (readRawLittle 8 input).map (BitVec.ofNat 64)

def readBool (input : Bytes) : ReadResult Bool := (readVarint input).map (· != 0)

def appendOrReplaceStructField : List StructField → StructField → List StructField
  | [], field => [field]
  | existing :: rest, field =>
      if existing.key == field.key then field :: rest
      else existing :: appendOrReplaceStructField rest field

section

/-! The decoders of a level, given that of the values one level below. -/

variable (decodeValue : Bytes → Except StructError Value)

def fieldCases : TagLoop.Cases StructField StructError := fun field tag rest =>
  match tag.number with
  | 1 => some (TagLoop.readCase .wire .lengthDelimited readBytes (fun raw => do
      ensureUtf8 raw
      return { field with key := raw }) tag rest)
  | 2 => some (TagLoop.readCase .wire .lengthDelimited readBytes (fun raw => do
      let value ← decodeValue raw
      return { field with value := value }) tag rest)
  | _ => none

def decodeStructFieldWith (bytes : Bytes) : Except StructError StructField :=
  TagLoop.decode .wire (fieldCases decodeValue) { key := [], value := .nullValue } bytes

def structCases : TagLoop.Cases (List StructField) StructError := fun fields tag rest =>
  match tag.number with
  | 1 => some (TagLoop.readCase .wire .lengthDelimited readBytes (fun raw => do
      let field ← decodeStructFieldWith decodeValue raw
      return appendOrReplaceStructField fields field) tag rest)
  | _ => none

def decodeStructWith (bytes : Bytes) : Except StructError Struct := do
  let fields ← TagLoop.decode .wire (structCases decodeValue) [] bytes
  return { fields := fields }

def listCases : TagLoop.Cases (List Value) StructError := fun values tag rest =>
  match tag.number with
  | 1 => some (TagLoop.readCase .wire .lengthDelimited readBytes (fun raw => do
      let value ← decodeValue raw
      return values ++ [value]) tag rest)
  | _ => none

def decodeListWith (bytes : Bytes) : Except StructError ListValue := do
  let values ← TagLoop.decode .wire (listCases decodeValue) [] bytes
  return { values := values }

/-- The last member of the oneof stays. -/
def valueCases : TagLoop.Cases Value StructError := fun _ tag rest =>
  match tag.number with
  | 1 => some (TagLoop.readCase .wire .varint readInt32 (fun number => do
      ensureNullValue number
      return .nullValue) tag rest)
  | 2 => some (TagLoop.readCase .wire .fixed64 readDouble (fun number => do
      ensureFinite number
      return .numberValue number) tag rest)
  | 3 => some (TagLoop.readCase .wire .lengthDelimited readBytes (fun raw => do
      ensureUtf8 raw
      return .stringValue raw) tag rest)
  | 4 => some (TagLoop.readCase .wire .varint readBool (fun value => .ok (.boolValue value)) tag rest)
  | 5 => some (TagLoop.readCase .wire .lengthDelimited readBytes (fun raw => do
      let nested ← decodeStructWith decodeValue raw
      return .structValue nested) tag rest)
  | 6 => some (TagLoop.readCase .wire .lengthDelimited readBytes (fun raw => do
      let nested ← decodeListWith decodeValue raw
      return .listValue nested) tag rest)
  | _ => none

end

/-- The decoder of values that goes down so many levels. -/
def decodeValueFrom : Nat → Bytes → Except StructError Value
  | 0, _ => .error .fuel
  | levels + 1, bytes =>
      TagLoop.decode .wire (valueCases (decodeValueFrom levels)) .nullValue bytes

/-- A level takes bytes for its tag and its length. -/
def Value.decode (bytes : Bytes) : Except StructError Value :=
  decodeValueFrom (bytes.length + 1) bytes

def Struct.decode (bytes : Bytes) : Except StructError Struct := decodeStructWith Value.decode bytes

def ListValue.decode (bytes : Bytes) : Except StructError ListValue :=
  decodeListWith Value.decode bytes

/-! ## Equality -/

def Struct.fieldValue (self : Struct) (key : Bytes) : Option Value :=
  (self.fields.find? (fun field => field.key == key)).map StructField.value

mutual

def valueEqual : Value → Value → Bool
  | .nullValue, .nullValue => true
  | .numberValue a, .numberValue b => doubleEqual a b
  | .stringValue a, .stringValue b => a == b
  | .boolValue a, .boolValue b => a == b
  | .structValue a, .structValue b => structEqual a b
  | .listValue a, .listValue b => listValueEqual a b
  | _, _ => false
termination_by structural a => a

def structEqual : Struct → Struct → Bool
  | { fields }, b => if fields.length != b.fields.length then false else fieldsEqual fields b
termination_by structural a => a

/-- The loop over the fields. -/
def fieldsEqual : List StructField → Struct → Bool
  | [], _ => true
  | lhs :: rest, b => if !fieldEqual lhs b then false else fieldsEqual rest b
termination_by structural a => a

/-- The field of the other struct with the key has the value. -/
def fieldEqual : StructField → Struct → Bool
  | { key, value }, b =>
      match b.fieldValue key with
      | none => false
      | some rhs => valueEqual value rhs
termination_by structural a => a

def listValueEqual : ListValue → ListValue → Bool
  | { values }, b => if values.length != b.values.length then false else valuesEqual values b.values
termination_by structural a => a

/-- The loop over the values of two lists. -/
def valuesEqual : List Value → List Value → Bool
  | lhs :: rest, rhs :: others => if !valueEqual lhs rhs then false else valuesEqual rest others
  | _, _ => true
termination_by structural a => a

end

/-! ## Valid values -/

/-- The exponent does not stand for an infinity or for no number. -/
def Finite (value : BitVec 64) : Prop := value.toNat / 2 ^ 52 % 2 ^ 11 ≠ 2 ^ 11 - 1

mutual

def Value.Valid : Value → Prop
  | .numberValue value => Finite value
  | .stringValue value => utf8ValidateSlice value = true
  | .structValue value => value.Valid
  | .listValue value => value.Valid
  | _ => True
termination_by structural x => x

/-- The keys are distinct. -/
def Struct.Valid : Struct → Prop
  | { fields } => (fields.map StructField.key).Nodup ∧ FieldsValid fields
termination_by structural x => x

def FieldsValid : List StructField → Prop
  | [] => True
  | field :: rest => field.Valid ∧ FieldsValid rest
termination_by structural x => x

def StructField.Valid : StructField → Prop
  | { key, value } => utf8ValidateSlice key = true ∧ value.Valid
termination_by structural x => x

def ListValue.Valid : ListValue → Prop
  | { values } => ValuesValid values
termination_by structural x => x

def ValuesValid : List Value → Prop
  | [] => True
  | value :: rest => value.Valid ∧ ValuesValid rest
termination_by structural x => x

end

theorem ensureFinite_iff {value : BitVec 64} : ensureFinite value = .ok () ↔ Finite value := by
  have hlt : value.toNat < 2 ^ 64 := value.isLt
  have hpositive : value = 0x7ff0000000000000 ↔ value.toNat = 0x7ff0000000000000 :=
    BitVec.toNat_eq
  have hnegative : value = 0xfff0000000000000 ↔ value.toNat = 0xfff0000000000000 :=
    BitVec.toNat_eq
  rw [ensureFinite, Finite]
  split
  · next h =>
    simp only [isNan, isPositiveInf, isNegativeInf, Bool.or_eq_true, decide_eq_true_eq, beq_iff_eq,
      hpositive, hnegative] at h
    constructor
    · intro hok
      cases hok
    · intro hfinite
      omega
  · next h =>
    simp only [isNan, isPositiveInf, isNegativeInf, Bool.or_eq_true, decide_eq_true_eq, beq_iff_eq,
      hpositive, hnegative] at h
    exact iff_of_true rfl (by omega)

/-! ## Levels -/

theorem readDouble_bounded : Bounded readDouble := (readRawLittle_bounded 8).map _

theorem readBool_bounded : Bounded readBool := readVarint_bounded.map _

theorem readCase_shrinks {α σ : Type} {expected : WireType} {read : Bytes → ReadResult α}
    (hread : Bounded read) {store : α → Except StructError σ} {tag : Tag} {input rest : Bytes}
    {state : σ} (h : some (TagLoop.readCase .wire expected read store tag input)
      = some (.ok (state, rest))) : rest.length ≤ input.length := by
  obtain ⟨value, hvalue, -⟩ := TagLoop.of_readCase (Option.some.inj h)
  exact hread.shrinks _ _ _ hvalue

section

variable (decodeValue : Bytes → Except StructError Value)

theorem fieldCases_shrinking : TagLoop.Shrinking (fieldCases decodeValue) := by
  intro field tag rest field' rest' h
  unfold fieldCases at h
  split at h
  · exact readCase_shrinks readBytes_bounded h
  · exact readCase_shrinks readBytes_bounded h
  · cases h

theorem structCases_shrinking : TagLoop.Shrinking (structCases decodeValue) := by
  intro fields tag rest fields' rest' h
  unfold structCases at h
  split at h
  · exact readCase_shrinks readBytes_bounded h
  · cases h

theorem listCases_shrinking : TagLoop.Shrinking (listCases decodeValue) := by
  intro values tag rest values' rest' h
  unfold listCases at h
  split at h
  · exact readCase_shrinks readBytes_bounded h
  · cases h

theorem valueCases_shrinking : TagLoop.Shrinking (valueCases decodeValue) := by
  intro value tag rest value' rest' h
  unfold valueCases at h
  split at h
  · exact readCase_shrinks readInt32_bounded h
  · exact readCase_shrinks readDouble_bounded h
  · exact readCase_shrinks readBytes_bounded h
  · exact readCase_shrinks readBool_bounded h
  · exact readCase_shrinks readBytes_bounded h
  · exact readCase_shrinks readBytes_bounded h
  · cases h

end

section

variable {decodeValue other : Bytes → Except StructError Value} {bytes : Bytes}

/-- What is read of a payload is shorter than the payload and its length. -/
theorem agree_payload {input raw rest : Bytes}
    (h : ∀ raw, raw.length < bytes.length → decodeValue raw = other raw)
    (hinput : input.length < bytes.length) (hread : readBytes input = .ok (raw, rest)) :
    ∀ inner, inner.length ≤ raw.length → decodeValue inner = other inner := by
  intro inner hinner
  have hlength := readBytes_value_length hread
  exact h inner (by omega)

theorem decodeStructFieldWith_congr
    (h : ∀ raw, raw.length < bytes.length → decodeValue raw = other raw) :
    decodeStructFieldWith decodeValue bytes = decodeStructFieldWith other bytes := by
  refine TagLoop.decode_congr (fieldCases_shrinking decodeValue) (fun field tag input hinput => ?_) _
  unfold fieldCases
  split
  · rfl
  · refine congrArg some (TagLoop.readCase_congr (fun raw rest hread => ?_) tag)
    rw [agree_payload h hinput hread raw (Nat.le_refl _)]
  · rfl

theorem decodeStructWith_congr
    (h : ∀ raw, raw.length < bytes.length → decodeValue raw = other raw) :
    decodeStructWith decodeValue bytes = decodeStructWith other bytes := by
  have hfields : TagLoop.decode .wire (structCases decodeValue) [] bytes
      = TagLoop.decode .wire (structCases other) [] bytes := by
    refine TagLoop.decode_congr (structCases_shrinking decodeValue)
      (fun fields tag input hinput => ?_) _
    unfold structCases
    split
    · refine congrArg some (TagLoop.readCase_congr (fun raw rest hread => ?_) tag)
      rw [decodeStructFieldWith_congr fun inner hinner =>
        agree_payload h hinput hread inner (Nat.le_of_lt hinner)]
    · rfl
  rw [decodeStructWith, hfields, decodeStructWith]

theorem decodeListWith_congr
    (h : ∀ raw, raw.length < bytes.length → decodeValue raw = other raw) :
    decodeListWith decodeValue bytes = decodeListWith other bytes := by
  have hvalues : TagLoop.decode .wire (listCases decodeValue) [] bytes
      = TagLoop.decode .wire (listCases other) [] bytes := by
    refine TagLoop.decode_congr (listCases_shrinking decodeValue)
      (fun values tag input hinput => ?_) _
    unfold listCases
    split
    · refine congrArg some (TagLoop.readCase_congr (fun raw rest hread => ?_) tag)
      rw [agree_payload h hinput hread raw (Nat.le_refl _)]
    · rfl
  rw [decodeListWith, hvalues, decodeListWith]

theorem decodeValueWith_congr
    (h : ∀ raw, raw.length < bytes.length → decodeValue raw = other raw) :
    TagLoop.decode .wire (valueCases decodeValue) .nullValue bytes
      = TagLoop.decode .wire (valueCases other) .nullValue bytes := by
  refine TagLoop.decode_congr (valueCases_shrinking decodeValue) (fun value tag input hinput => ?_) _
  unfold valueCases
  split
  · rfl
  · rfl
  · rfl
  · rfl
  · refine congrArg some (TagLoop.readCase_congr (fun raw rest hread => ?_) tag)
    rw [decodeStructWith_congr fun inner hinner =>
      agree_payload h hinput hread inner (Nat.le_of_lt hinner)]
  · refine congrArg some (TagLoop.readCase_congr (fun raw rest hread => ?_) tag)
    rw [decodeListWith_congr fun inner hinner =>
      agree_payload h hinput hread inner (Nat.le_of_lt hinner)]
  · rfl

end

/-- With more levels than there are bytes the number of levels does not matter. -/
theorem decodeValueFrom_levels {levels others : Nat} {bytes : Bytes} (h : bytes.length < levels)
    (hothers : bytes.length < others) :
    decodeValueFrom levels bytes = decodeValueFrom others bytes := by
  induction levels generalizing others bytes with
  | zero => exact absurd h (Nat.not_lt_zero _)
  | succ levels ih =>
      cases others with
      | zero => exact absurd hothers (Nat.not_lt_zero _)
      | succ others =>
          rw [decodeValueFrom, decodeValueFrom]
          exact decodeValueWith_congr fun raw hraw => ih (by omega) (by omega)

/-- The decoder of values calls itself. -/
theorem Value.decode_eq (bytes : Bytes) :
    Value.decode bytes = TagLoop.decode .wire (valueCases Value.decode) .nullValue bytes := by
  rw [Value.decode, decodeValueFrom]
  refine decodeValueWith_congr fun raw hraw => ?_
  rw [Value.decode]
  exact decodeValueFrom_levels hraw (Nat.lt_succ_self _)

end Wkt

end Pbz
