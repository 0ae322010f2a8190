import Pbz.Json.FieldNames
import Pbz.Json.Presence
import Pbz.Json.WellKnown
import Pbz.Dynamic.Decode

set_option autoImplicit false

/-! # Writing messages as JSON

`stringify` and the functions that it calls for the values of fields. A message is written by
functions that call each other for the messages stored in it, and for those that the bytes of an
`Any` hold: here they take the `Writers` of those messages, and `writersAt` goes down as many
levels as it is told.
-/

namespace Pbz

namespace Json

/-- How floats are printed: the shortest digits that read back, without an exponent. -/
class FloatTexts where
  formatDouble : BitVec 64 → Bytes
  doubleFromSingle : BitVec 32 → BitVec 64

/-! ## Scalars and keys -/

/-- The format `{d}` of an integer. -/
def formatInt (value : Int) : Bytes :=
  let digits := (Nat.toDigits 10 value.natAbs).map (fun c => UInt8.ofNat c.toNat)
  if value < 0 then 0x2d :: digits else digits

/-- `writeJsonStringFmt` -/
def quoted (text : Bytes) : Bytes := 0x22 :: text ++ [0x22]

def isNanDouble (value : BitVec 64) : Bool := value.toNat % 2 ^ 63 > 0x7ff0000000000000

def writeBase64String (bytes : Bytes) : Bytes := quoted (encodeBase64 .standard true bytes)

/-- The integer of a value of the scalar type. -/
def integerOf (scalar : ScalarType) (value : Value) : Except Failure Int :=
  match scalar, value with
  | .int32, .int32 v => .ok v.toInt
  | .sint32, .sint32 v => .ok v.toInt
  | .sfixed32, .sfixed32 v => .ok v.toInt
  | .uint32, .uint32 v => .ok v.toNat
  | .fixed32, .fixed32 v => .ok v.toNat
  | .int64, .int64 v => .ok v.toInt
  | .sint64, .sint64 v => .ok v.toInt
  | .sfixed64, .sfixed64 v => .ok v.toInt
  | .uint64, .uint64 v => .ok v.toNat
  | .fixed64, .fixed64 v => .ok v.toNat
  | _, _ => .error .typeMismatch

section

variable [FloatTexts]

def writeFloat (value : BitVec 64) : Bytes :=
  if isNanDouble value then quoted (ascii "NaN")
  else if value == 0x7ff0000000000000 then quoted (ascii "Infinity")
  else if value == 0xfff0000000000000 then quoted (ascii "-Infinity")
  else FloatTexts.formatDouble value

def writeScalar (scalar : ScalarType) (value : Value) : Except Failure Bytes :=
  match scalar with
  | .double =>
      match value with
      | .double v => .ok (writeFloat v)
      | _ => .error .typeMismatch
  | .float =>
      match value with
      | .float v => .ok (writeFloat (FloatTexts.doubleFromSingle v))
      | _ => .error .typeMismatch
  | .int32 | .uint32 | .sint32 | .fixed32 | .sfixed32 =>
      (integerOf scalar value).map formatInt
  | .int64 | .uint64 | .sint64 | .fixed64 | .sfixed64 =>
      (integerOf scalar value).map (fun integer => quoted (formatInt integer))
  | .bool =>
      match value with
      | .boolean v => .ok (if v then ascii "true" else ascii "false")
      | _ => .error .typeMismatch
  | .string =>
      match value with
      | .string v => writeJsonString v
      | _ => .error .typeMismatch
  | .bytes =>
      match value with
      | .bytes v => .ok (writeBase64String v)
      | _ => .error .typeMismatch

end

def writeMapKey (scalar : ScalarType) (value : Value) : Except Failure Bytes :=
  match scalar with
  | .bool =>
      match value with
      | .boolean v => writeJsonString (if v then ascii "true" else ascii "false")
      | _ => .error .typeMismatch
  | .string =>
      match value with
      | .string v => writeJsonString v
      | _ => .error .typeMismatch
  | .float | .double | .bytes => .error .typeMismatch
  | _ => (integerOf scalar value).map (fun integer => quoted (formatInt integer))

/-! ## Enums -/

def writeEnum (file : FileDescriptor) (registry : Option Registry) (current : MessageDescriptor)
    (options : Options) (name : Bytes) (value : Value) : Except Failure Bytes :=
  match value with
  | .enumeration number =>
      if typeNameEqualsInFile file name (ascii "google.protobuf.NullValue") && number == 0 then
        .ok (ascii "null")
      else
        let named := if options.enumAsName then
            (registryEnumDescriptor file registry current name).bind (fun enumeration =>
              enumeration.values.find? (fun enumValue => enumValue.number == number))
          else none
        match named with
        | some enumValue => writeJsonString enumValue.name
        | none => .ok (formatInt number.toInt)
  | _ => .error .typeMismatch

/-! ## Defaults of absent fields -/

section

variable (defaultValue : Option OptionValue)

def defaultText : Bytes :=
  match defaultValue with
  | some (.string text) | some (.identifier text) => text
  | _ => []

def defaultBool : Bool := (defaultValue.bind optionAsBool).getD false

def parseIntegerDefault (type : IntegerType) (text : Bytes) : Option Int :=
  let body := match text with
    | c :: rest => if c == 0x2b || c == 0x2d then rest else text
    | [] => []
  match body with
  | [] => none
  | 0x30 :: c :: _ =>
      if toLower c == 0x78 || toLower c == 0x6f || toLower c == 0x62 then parseInt type text 0
      else parseInt type text 8
  | _ => parseInt type text 10

def defaultInt (type : IntegerType) : Int :=
  match defaultValue with
  | some (.integer v) => (type.cast v).getD 0
  | some (.unsignedInteger v) => (type.cast v).getD 0
  | some (.identifier text) | some (.string text) => (parseIntegerDefault type text).getD 0
  | _ => 0

def parseSpecialFloatDefault (text : Bytes) : Option (BitVec 64) :=
  let negative := text.head? == some 0x2d
  let body := if negative || text.head? == some 0x2b then text.tail else text
  if eqlIgnoreCase body (ascii "inf") || eqlIgnoreCase body (ascii "infinity") then
    some (if negative then 0xfff0000000000000 else 0x7ff0000000000000)
  else if eqlIgnoreCase body (ascii "nan") then some 0x7ff8000000000000
  else none

def defaultFloat [Conversions] : BitVec 64 :=
  match defaultValue with
  | some (.float bits) => bits
  | some (.integer v) => Conversions.doubleFromInt v
  | some (.unsignedInteger v) => Conversions.doubleFromInt v
  | some (.identifier text) | some (.string text) =>
      ((parseSpecialFloatDefault text).or (Conversions.parseDouble text)).getD 0
  | _ => 0

def writeDefaultScalar [Conversions] [FloatTexts] (scalar : ScalarType) : Except Failure Bytes :=
  match scalar with
  | .double | .float => .ok (writeFloat (defaultFloat defaultValue))
  | .int32 | .sint32 | .sfixed32 => .ok (formatInt (defaultInt defaultValue .i32))
  | .int64 | .sint64 | .sfixed64 => .ok (quoted (formatInt (defaultInt defaultValue .i64)))
  | .uint32 | .fixed32 => .ok (formatInt (defaultInt defaultValue .u32))
  | .uint64 | .fixed64 => .ok (quoted (formatInt (defaultInt defaultValue .u64)))
  | .bool => .ok (if defaultBool defaultValue then ascii "true" else ascii "false")
  | .string => writeJsonString (defaultText defaultValue)
  | .bytes => .ok (writeBase64String (defaultText defaultValue))

def defaultEnumNumber (file : FileDescriptor) (registry : Option Registry)
    (current : MessageDescriptor) (name : Bytes) : BitVec 32 :=
  let enumeration := registryEnumDescriptor file registry current name
  match defaultValue with
  | some (.integer v) => .ofInt 32 ((IntegerType.i32.cast v).getD 0)
  | some (.unsignedInteger v) => .ofInt 32 ((IntegerType.i32.cast v).getD 0)
  | some (.identifier text) | some (.string text) =>
      match parseInt .i32 text 10 with
      | some number => .ofInt 32 number
      | none =>
          ((enumeration.bind (fun enumeration => enumeration.findValue text)).map
            EnumValueDescriptor.number).getD 0
  | some _ => 0
  | none =>
      ((enumeration.bind (fun enumeration => enumeration.values.head?)).map
        EnumValueDescriptor.number).getD 0

end

section

variable (file : FileDescriptor) (registry : Option Registry) (current : MessageDescriptor)
  (field : FieldDescriptor)

def shouldPrintAbsentField : Bool :=
  if field.oneofName.isSome then false
  else match field.kind with
    | .scalar _ | .enumeration _ | .map _ _ => true
    | .message name => (registryEnumDescriptor file registry current name).isSome
    | .group _ => field.cardinality == .repeated

def writeAbsentFieldDefault [Conversions] [FloatTexts] (options : Options) :
    Except Failure Bytes :=
  let writeDefaultEnum (name : Bytes) : Except Failure Bytes :=
    writeEnum file registry current options name
      (.enumeration (defaultEnumNumber field.defaultValue file registry current name))
  if field.kind.isMap then .ok (ascii "\x7b\x7d")
  else if field.cardinality == .repeated then .ok (ascii "[]")
  else match field.kind with
    | .scalar scalar => writeDefaultScalar field.defaultValue scalar
    | .enumeration name => writeDefaultEnum name
    | .message name =>
        if (registryEnumDescriptor file registry current name).isSome then writeDefaultEnum name
        else .ok (ascii "null")
    | _ => .ok (ascii "null")

end

/-! ## Messages -/

/-- The functions that call each other for the messages below. -/
structure Writers where
  writeMessage : FileDescriptor → DynamicMessage → Except Failure Bytes
  writeMessageContents : FileDescriptor → DynamicMessage → Except Failure (List Bytes)
  writeKnownMessage : FileDescriptor → Bytes → DynamicMessage → Except Failure (Option Bytes)
  writeStructMessage : DynamicMessage → Except Failure Bytes
  writeListValueMessage : DynamicMessage → Except Failure Bytes
  writeValueMessage : DynamicMessage → Except Failure Bytes

/-- The texts with commas between them. -/
def commaSeparated (texts : List Bytes) : Bytes := (texts.intersperse [0x2c]).flatten

def inBraces (members : List Bytes) : Bytes := 0x7b :: commaSeparated members ++ [0x7d]

def inBrackets (items : List Bytes) : Bytes := 0x5b :: commaSeparated items ++ [0x5d]

/-- What the writer makes of each element, up to the first error. -/
def writeEach {α : Type} (write : α → Except Failure Bytes) : List α → Except Failure (List Bytes)
  | [] => .ok []
  | x :: rest => do return (← write x) :: (← writeEach write rest)

/-! ### Structs, values and lists -/

section

variable (nested : Writers)

def writeStructEntry : Value → Except Failure Bytes
  | .mapEntry (.string key) (.message value) => do
      let key ← writeJsonString key
      return key ++ 0x3a :: (← nested.writeValueMessage value)
  | _ => .error .typeMismatch

def writeStructMessage (message : DynamicMessage) : Except Failure Bytes :=
  match message.get (ascii "fields") with
  | some fields => (writeEach (writeStructEntry nested) fields.values).map inBraces
  | none => .ok (inBraces [])

def writeListItem : Value → Except Failure Bytes
  | .message value => nested.writeValueMessage value
  | _ => .error .typeMismatch

def writeListValueMessage (message : DynamicMessage) : Except Failure Bytes :=
  match message.get (ascii "values") with
  | some values => (writeEach (writeListItem nested) values.values).map inBrackets
  | none => .ok (inBrackets [])

def writeValueMessage [FloatTexts] (message : DynamicMessage) : Except Failure Bytes :=
  if (message.get (ascii "null_value")).isSome then .ok (ascii "null")
  else match message.get (ascii "number_value") with
  | some field =>
      match field.values.head? with
      | some (.double value) =>
          if isFiniteDouble value then .ok (writeFloat value) else .error .invalidNumber
      | _ => .error .typeMismatch
  | none =>
  match message.get (ascii "string_value") with
  | some field =>
      match field.values.head? with
      | some (.string value) => writeJsonString value
      | _ => .error .typeMismatch
  | none =>
  match message.get (ascii "bool_value") with
  | some field =>
      match field.values.head? with
      | some (.boolean value) => .ok (if value then ascii "true" else ascii "false")
      | _ => .error .typeMismatch
  | none =>
  match message.get (ascii "struct_value") with
  | some field =>
      match field.values.head? with
      | some (.message value) => nested.writeStructMessage value
      | _ => .error .typeMismatch
  | none =>
  match message.get (ascii "list_value") with
  | some field =>
      match field.values.head? with
      | some (.message value) => nested.writeListValueMessage value
      | _ => .error .typeMismatch
  | none => .ok (ascii "null")

/-! ### Known messages -/

/-- The first value of the field with the name. -/
def firstValue (message : DynamicMessage) (name : String) : Option Value :=
  (message.get (ascii name)).bind (fun field => field.values.head?)

def readStringField (message : DynamicMessage) (name : String) : Bytes :=
  match firstValue message name with
  | some (.string value) => value
  | _ => []

def readBytesField (message : DynamicMessage) (name : String) : Bytes :=
  match firstValue message name with
  | some (.bytes value) => value
  | _ => []

def readInt64Field (message : DynamicMessage) (name : String) : BitVec 64 :=
  match firstValue message name with
  | some (.int64 value) => value
  | _ => 0

def readInt32Field (message : DynamicMessage) (name : String) : BitVec 32 :=
  match firstValue message name with
  | some (.int32 value) => value
  | _ => 0

variable [KnownTexts] [FloatTexts]

def writeFieldMaskPath : Value → Except Failure Bytes
  | .string path => do
      KnownTexts.validateFieldMaskPath path
      return defaultJsonName path
  | _ => .error .typeMismatch

def writeFieldMaskMessage (message : DynamicMessage) : Except Failure Bytes :=
  match message.get (ascii "paths") with
  | some field =>
      (writeEach writeFieldMaskPath field.values).map (fun paths => quoted (commaSeparated paths))
  | none => .ok (quoted [])

def writeWrapperValue (kind : FieldKind) (value : Value) : Except Failure Bytes :=
  match kind with
  | .scalar scalar => writeScalar scalar value
  | _ => .error .typeMismatch

def writeWrapperMessage (kind : FieldKind) (message : DynamicMessage) : Except Failure Bytes :=
  match (message.get (ascii "value")).bind (fun field => field.values.getLast?) with
  | some value => writeWrapperValue kind value
  | none => .ok (ascii "null")

variable (registry : Option Registry)

/-- The payload of an `Any`, decoded as its type. -/
def decodePayload (payloadFile : FileDescriptor) (descriptor : MessageDescriptor)
    (value : Bytes) : Except Failure DynamicMessage :=
  match (DynamicMessage.init descriptor).decodeWithRegistry payloadFile registry value with
  | (_, .error e) => .error (.encoding e)
  | (message, .ok _) => .ok message

/-- `std.json.Stringify.value` of a byte slice: a string if it is UTF-8, else an array. -/
def stringifyBytes (value : Bytes) : Bytes :=
  if utf8ValidateSlice value then JsonString.quote value
  else inBrackets (value.map (fun byte => formatInt byte.toNat))

def writeAnyMessage (file : FileDescriptor) (message : DynamicMessage) : Except Failure Bytes :=
  let typeUrl := readStringField message "type_url"
  let value := readBytesField message "value"
  if typeUrl.isEmpty && value.isEmpty then .ok (inBraces [])
  else match resolveAnyTypeWithRegistry file registry message.descriptor typeUrl with
    | none => KnownTexts.writeStandaloneAny typeUrl value
    | some descriptor => do
        let payloadFile := messageDefiningFile file registry descriptor
        let payload ← decodePayload registry payloadFile descriptor value
        let typeMember := quoted (ascii "@type") ++ 0x3a :: stringifyBytes typeUrl
        let typeName := anyTypeName typeUrl
        if anyUsesValueEnvelope typeName then do
          let text ←
            match ← nested.writeKnownMessage payloadFile typeName payload with
            | some text => .ok text
            | none => nested.writeMessage payloadFile payload
          return inBraces [typeMember, quoted (ascii "value") ++ 0x3a :: text]
        else do
          return inBraces (typeMember :: (← nested.writeMessageContents payloadFile payload))

/-- The text of a message that has a form of its own, `none` if it has none. -/
def writeKnownMessage (file : FileDescriptor) (name : Bytes) (message : DynamicMessage) :
    Except Failure (Option Bytes) :=
  if typeNameEquals name (ascii "google.protobuf.Timestamp") then
    (KnownTexts.writeTimestamp (readInt64Field message "seconds")
      (readInt32Field message "nanos")).map some
  else if typeNameEquals name (ascii "google.protobuf.Duration") then
    (KnownTexts.writeDuration (readInt64Field message "seconds")
      (readInt32Field message "nanos")).map some
  else if typeNameEquals name (ascii "google.protobuf.Any") then
    (writeAnyMessage nested registry file message).map some
  else if typeNameEquals name (ascii "google.protobuf.FieldMask") then
    (writeFieldMaskMessage message).map some
  else if typeNameEquals name (ascii "google.protobuf.Empty") then .ok (some (inBraces []))
  else if typeNameEquals name (ascii "google.protobuf.Struct") then
    (writeStructMessage nested message).map some
  else if typeNameEquals name (ascii "google.protobuf.Value") then
    (writeValueMessage nested message).map some
  else if typeNameEquals name (ascii "google.protobuf.ListValue") then
    (writeListValueMessage nested message).map some
  else match wrapperKind name with
    | some kind => (writeWrapperMessage kind message).map some
    | none => .ok none

/-! ### Values and fields -/

variable (options : Options)

def writeValue (file : FileDescriptor) (current : MessageDescriptor) (kind : FieldKind)
    (value : Value) : Except Failure Bytes :=
  match kind with
  | .scalar scalar => writeScalar scalar value
  | .enumeration name => writeEnum file registry current options name value
  | .message name =>
      if (registryEnumDescriptor file registry current name).isSome then
        writeEnum file registry current options name value
      else match value with
        | .message message => do
            let messageFile := messageDefiningFile file registry message.descriptor
            match ← nested.writeKnownMessage messageFile name message with
            | some text => return text
            | none => nested.writeMessage messageFile message
        | _ => .error .typeMismatch
  | .group _ =>
      match value with
      | .group message =>
          nested.writeMessage (messageDefiningFile file registry message.descriptor) message
      | _ => .error .typeMismatch
  | .map _ _ => .error .typeMismatch

def writeMapEntry (file : FileDescriptor) (current : MessageDescriptor) (keyType : ScalarType)
    (valueKind : FieldKind) : Value → Except Failure Bytes
  | .mapEntry key value => do
      let key ← writeMapKey keyType key
      return key ++ 0x3a :: (← writeValue nested registry options file current valueKind value)
  | _ => .error .typeMismatch

def writeMap (file : FileDescriptor) (current : MessageDescriptor) (field : FieldDescriptor)
    (values : List Value) : Except Failure Bytes :=
  match field.kind with
  | .map keyType valueKind =>
      (writeEach (writeMapEntry nested registry options file current keyType valueKind)
        values).map inBraces
  | _ => .error .typeMismatch

/-- What stands behind the name of a stored field. -/
def writeStored (file : FileDescriptor) (current : MessageDescriptor) (field : FieldDescriptor)
    (values : List Value) (last : Value) : Except Failure Bytes :=
  let writeOne := writeValue nested registry options file current field.kind
  if field.kind.isMap then writeMap nested registry options file current field values
  else if field.cardinality == .repeated then (writeEach writeOne values).map inBrackets
  else writeOne last

def shouldSkipDefaultJsonField (file : FileDescriptor) (current : MessageDescriptor)
    (entry : FieldValue) : Bool :=
  if entry.descriptor.isRepeatedLike || entry.descriptor.oneofName.isSome then false
  else match entry.values with
    | [value] =>
        !jsonFieldHasPresence file registry current entry.descriptor
          && jsonValueIsDefault file registry current entry.descriptor value
    | _ => false

/-- One round of the first loop of `writeMessageContents`, `none` where nothing is written. -/
def writeEntry (file : FileDescriptor) (current : MessageDescriptor) (entry : FieldValue) :
    Except Failure (Option Bytes) :=
  match entry.values.getLast? with
  | none => .ok none
  | some last =>
      let fieldFile := fieldDefiningFile file registry entry.descriptor
      if shouldSkipDefaultJsonField registry fieldFile current entry then .ok none
      else do
        let name ← writeFieldName file registry entry.descriptor options
        let text ← writeStored nested registry options fieldFile current entry.descriptor
          entry.values last
        return some (name ++ 0x3a :: text)

/-- One round of the second loop, over the fields that are not stored. -/
def writeAbsent [Conversions] (file : FileDescriptor) (message : DynamicMessage)
    (field : FieldDescriptor) : Except Failure (Option Bytes) :=
  if (message.getByNumber field.number).isSome then .ok none
  else if !shouldPrintAbsentField file registry message.descriptor field then .ok none
  else do
    let name ← writeFieldName file registry field options
    let text ← writeAbsentFieldDefault file registry message.descriptor field options
    return some (name ++ 0x3a :: text)

/-- What the rounds of a loop write, up to the first error. -/
def writeSome {α : Type} (write : α → Except Failure (Option Bytes)) :
    List α → Except Failure (List Bytes)
  | [] => .ok []
  | x :: rest => do
      let text ← write x
      return text.toList ++ (← writeSome write rest)

/-- The members that `writeMessageContents` writes. -/
def writeMessageContents [Conversions] (file : FileDescriptor) (message : DynamicMessage) :
    Except Failure (List Bytes) := do
  let stored ← writeSome (writeEntry nested registry options file message.descriptor)
    message.fields
  let absent ←
    if options.alwaysPrintPrimitiveFields then
      writeSome (writeAbsent registry options file message) message.descriptor.fields
    else .ok []
  return stored ++ absent

def writeMessage [Conversions] (file : FileDescriptor) (message : DynamicMessage) :
    Except Failure Bytes :=
  (writeMessageContents nested registry options file message).map inBraces

end

/-! ## Levels -/

section

variable [Conversions] [KnownTexts] [FloatTexts] (registry : Option Registry) (options : Options)

/-- The writers of messages that may nest so many levels, decoded payloads among them. -/
def writersAt : Nat → Writers
  | 0 =>
      { writeMessage _ _ := .error .fuel
        writeMessageContents _ _ := .error .fuel
        writeKnownMessage _ _ _ := .error .fuel
        writeStructMessage _ := .error .fuel
        writeListValueMessage _ := .error .fuel
        writeValueMessage _ := .error .fuel }
  | levels + 1 =>
      let nested := writersAt levels
      { writeMessage := writeMessage nested registry options
        writeMessageContents := writeMessageContents nested registry options
        writeKnownMessage := writeKnownMessage nested registry
        writeStructMessage := writeStructMessage nested
        writeListValueMessage := writeListValueMessage nested
        writeValueMessage := writeValueMessage nested }

/-- `stringifyWithRegistry` -/
def stringify (levels : Nat) (file : FileDescriptor) (message : DynamicMessage) :
    Except Failure Bytes :=
  (writersAt registry options levels).writeMessage file message

end

end Json

end Pbz
