import Pbz.Json.FieldNames
import Pbz.Json.WellKnown
import Pbz.Dynamic.Deterministic
import Pbz.Dynamic.Required

set_option autoImplicit false

/-! # Reading messages from JSON

`fillMessage` and the functions that it calls for the values of members. They call each other for
the parts of a JSON value, and some of them for the value itself: here each takes a `Node`, whose
parts carry what the functions make of them, and `read` puts the readers to the parts from the
leaves up.
-/

namespace Pbz

namespace Json

/-! ## Nodes -/

/-- What the functions that call each other make of one JSON value. -/
structure Readers where
  parseValue : FileDescriptor → MessageDescriptor → FieldKind → Except Failure Value
  parseKnownMessage :
    FileDescriptor → MessageDescriptor → Bytes → Except Failure (Option DynamicMessage)
  parseValueMessage : FileDescriptor → MessageDescriptor → Except Failure DynamicMessage

mutual

/-- A JSON value; a leaf has no parts. -/
inductive Node where
  | leaf (value : JsonValue)
  | array (items : List Part)
  | object (members : List (Bytes × Part))

/-- A part of a JSON value, with its readers. -/
structure Part where
  node : Node
  readers : Readers

end

/-- The value as the functions see it that look into no array and no object. -/
def Node.json : Node → JsonValue
  | .leaf value => value
  | .array _ => .array []
  | .object _ => .object []

def Node.isNull : Node → Bool
  | .leaf .null => true
  | _ => false

/-! ## Enums and nulls -/

section

variable (file : FileDescriptor) (registry : Option Registry) (current : MessageDescriptor)

def fieldKindIsNullValueEnum (kind : FieldKind) : Bool :=
  match kind.enumName with
  | none => false
  | some enumName =>
      if typeNameEqualsInFile file enumName (ascii "google.protobuf.NullValue") then true
      else (registryEnumDescriptor file registry current enumName).any (fun enumeration =>
        (enumeration.findValue (ascii "NULL_VALUE")).isSome && enumeration.values.length == 1)

def jsonNullSkipsField (field : FieldDescriptor) : Bool :=
  let takesNull := match field.kind with
    | .message name => typeNameEqualsInFile file name (ascii "google.protobuf.Value")
    | .enumeration name =>
        field.oneofName.isSome
          && typeNameEqualsInFile file name (ascii "google.protobuf.NullValue")
    | _ => false
  !takesNull
    && !(field.oneofName.isSome && fieldKindIsNullValueEnum file registry current field.kind)

/-- The number of a closed enum that is none of its values. -/
def misfitsEnum (enumeration : Option EnumDescriptor) (number : BitVec 32) : Bool :=
  enumeration.any (fun enumeration =>
    enumIsClosed file registry enumeration && !enumHasNumber enumeration number)

def shouldIgnoreEnumParseError (options : Options) (kind : FieldKind) (failure : Failure) : Bool :=
  if !options.ignoreUnknownFields || failure != .invalidEnumValue then false
  else match kind with
    | .enumeration _ => true
    | .message name => (registryEnumDescriptor file registry current name).isSome
    | _ => false

variable [Conversions]

def parseEnumWithRegistry (name : Bytes) (json : JsonValue) : Except Failure Value :=
  let enumeration := registryEnumDescriptor file registry current name
  match json with
  | .string value =>
      match enumeration.bind (fun enumeration => enumeration.findValue value) with
      | some enumValue => .ok (.enumeration enumValue.number)
      | none =>
          match parseDecimal .i32 value with
          | .error _ => .error .invalidEnumValue
          | .ok number =>
              if misfitsEnum file registry enumeration (.ofInt 32 number) then
                .error .invalidEnumValue
              else .ok (.enumeration (.ofInt 32 number))
  | .null =>
      if typeNameEqualsInFile file name (ascii "google.protobuf.NullValue") then
        .ok (.enumeration 0)
      else if enumeration.any (fun enumeration =>
          (enumeration.findValue (ascii "NULL_VALUE")).any (fun value => value.number == 0)
            && enumeration.values.length == 1) then
        .ok (.enumeration 0)
      else .error .typeMismatch
  | json =>
      match intValue .i32 json with
      | .error e => .error e
      | .ok number =>
          if misfitsEnum file registry enumeration (.ofInt 32 number) then
            .error .invalidEnumValue
          else .ok (.enumeration (.ofInt 32 number))

end

/-! ## Objects -/

def seenJsonField (seenFields : List Nat) (number : Nat) : Bool := seenFields.contains number

def seenJsonOneof (seenFields : List Nat) (descriptor : MessageDescriptor) (oneofName : Bytes)
    (currentNumber : Nat) : Bool :=
  seenFields.any (fun seen =>
    seen != currentNumber
      && (descriptor.findFieldByNumber seen).any (fun field => field.oneofName == some oneofName))

section

variable (registry : Option Registry) (options : Options)

/-- One item of a repeated field, or none where its enum value is ignored. -/
def parseElement (fieldFile : FileDescriptor) (current : MessageDescriptor) (kind : FieldKind)
    (part : Part) : Except Failure (Option Value) :=
  match part.readers.parseValue fieldFile current kind with
  | .ok value => .ok (some value)
  | .error failure =>
      if shouldIgnoreEnumParseError fieldFile registry current options kind failure then .ok none
      else .error failure

/-- The loop of `parseMapField`. -/
def parseMapEntries (fieldFile : FileDescriptor) (field : FieldDescriptor) (keyType : ScalarType)
    (valueKind : FieldKind) (message : DynamicMessage) :
    List (Bytes × Part) → Except Failure DynamicMessage
  | [] => .ok message
  | (keyText, part) :: rest => do
      let key ← parseMapKey keyType keyText
      match ← parseElement registry options fieldFile message.descriptor valueKind part with
      | none => parseMapEntries fieldFile field keyType valueKind message rest
      | some value =>
          parseMapEntries fieldFile field keyType valueKind
            (message.add field (.mapEntry key value)) rest

def parseMapField (fieldFile : FileDescriptor) (message : DynamicMessage) (field : FieldDescriptor)
    (node : Node) : Except Failure DynamicMessage :=
  match field.kind with
  | .map keyType valueKind =>
      match node with
      | .object members =>
          parseMapEntries registry options fieldFile field keyType valueKind message members
      | _ => .error .typeMismatch
  | _ => .error .typeMismatch

/-- The loop over the items of a repeated field. -/
def parseItems (fieldFile : FileDescriptor) (field : FieldDescriptor) (message : DynamicMessage) :
    List Part → Except Failure DynamicMessage
  | [] => .ok message
  | part :: rest => do
      match ← parseElement registry options fieldFile message.descriptor field.kind part with
      | none => parseItems fieldFile field message rest
      | some value => parseItems fieldFile field (message.add field value) rest

/-- What a member stores in its field. -/
def storeMember (fieldFile : FileDescriptor) (message : DynamicMessage) (field : FieldDescriptor)
    (part : Part) : Except Failure DynamicMessage :=
  if field.kind.isMap then parseMapField registry options fieldFile message field part.node
  else if field.cardinality == .repeated then
    match part.node with
    | .array items => parseItems registry options fieldFile field message items
    | _ => .error .typeMismatch
  else do
    match ← parseElement registry options fieldFile message.descriptor field.kind part with
    | none => return message
    | some value => return message.add field value

/-- A message that is being filled, and the numbers of the fields seen so far. -/
structure Filling where
  message : DynamicMessage
  seenFields : List Nat := []

/-- One round of the loop of `fillMessageObject`. -/
def fillMember (file : FileDescriptor) (skipTypeField : Bool) (filling : Filling) (key : Bytes)
    (part : Part) : Except Failure Filling :=
  let current := filling.message.descriptor
  if skipTypeField && key == ascii "@type" then .ok filling
  else match findJsonField file registry current key with
    | none => if options.ignoreUnknownFields then .ok filling else .error .unknownField
    | some field =>
        let fieldFile := fieldDefiningFile file registry field
        if part.node.isNull && jsonNullSkipsField fieldFile registry current field then .ok filling
        else if seenJsonField filling.seenFields field.number then .error .duplicateField
        else if field.oneofName.any (fun oneofName =>
            seenJsonOneof filling.seenFields current oneofName field.number) then
          .error .duplicateField
        else do
          let message ← storeMember registry options fieldFile filling.message field part
          return { message, seenFields := filling.seenFields ++ [field.number] }

/-- The loop of `fillMessageObject`. -/
def fillMembers (file : FileDescriptor) (skipTypeField : Bool) (filling : Filling) :
    List (Bytes × Part) → Except Failure Filling
  | [] => .ok filling
  | (key, part) :: rest => do
      fillMembers file skipTypeField
        (← fillMember registry options file skipTypeField filling key part) rest

def fillMessageObject (file : FileDescriptor) (message : DynamicMessage)
    (members : List (Bytes × Part)) (skipTypeField : Bool) : Except Failure DynamicMessage :=
  (fillMembers registry options file skipTypeField { message } members).map Filling.message

def fillMessageNode (file : FileDescriptor) (message : DynamicMessage) (node : Node) :
    Except Failure DynamicMessage :=
  match node with
  | .object members => fillMessageObject registry options file message members false
  | _ => .error .typeMismatch

/-! ## Structs, values and lists -/

def orMismatch {α : Type} (value : Option α) : Except Failure α :=
  match value with
  | some value => .ok value
  | none => .error .typeMismatch

/-- The loop of `parseStructMessage`. -/
def parseStructEntries (file : FileDescriptor) (field : FieldDescriptor)
    (valueDesc : MessageDescriptor) (message : DynamicMessage) :
    List (Bytes × Part) → Except Failure DynamicMessage
  | [] => .ok message
  | (key, part) :: rest => do
      let value ← part.readers.parseValueMessage file valueDesc
      parseStructEntries file field valueDesc
        (message.add field (.mapEntry (.string key) (.message value))) rest

def parseStructMessage (file : FileDescriptor) (descriptor : MessageDescriptor) (node : Node) :
    Except Failure DynamicMessage :=
  match node with
  | .object members => do
      let field ← orMismatch (descriptor.findField (ascii "fields"))
      match field.kind with
      | .map _ (.message name) => do
          let valueDesc ← orMismatch (resolveMessageDescriptor file descriptor name)
          parseStructEntries file field valueDesc (.init descriptor) members
      | _ => .error .typeMismatch
  | _ => .error .typeMismatch

/-- The loop of `parseListValueMessage`. -/
def parseListItems (file : FileDescriptor) (field : FieldDescriptor)
    (valueDesc : MessageDescriptor) (message : DynamicMessage) :
    List Part → Except Failure DynamicMessage
  | [] => .ok message
  | part :: rest => do
      let value ← part.readers.parseValueMessage file valueDesc
      parseListItems file field valueDesc (message.add field (.message value)) rest

def parseListValueMessage (file : FileDescriptor) (descriptor : MessageDescriptor) (node : Node) :
    Except Failure DynamicMessage :=
  match node with
  | .array items => do
      let field ← orMismatch (descriptor.findField (ascii "values"))
      match field.kind with
      | .message name => do
          let valueDesc ← orMismatch (resolveMessageDescriptor file descriptor name)
          parseListItems file field valueDesc (.init descriptor) items
      | _ => .error .typeMismatch
  | _ => .error .typeMismatch

variable [Conversions] [KnownTexts]

def parseValueMessage (file : FileDescriptor) (descriptor : MessageDescriptor) (node : Node) :
    Except Failure DynamicMessage :=
  let stored (name : Bytes) (value : Except Failure Value) : Except Failure DynamicMessage := do
    let field ← orMismatch (descriptor.findField name)
    return (DynamicMessage.init descriptor).add field (← value)
  match node with
  | .leaf .null => stored (ascii "null_value") (.ok (.enumeration 0))
  | .leaf (.bool value) => stored (ascii "bool_value") (.ok (.boolean value))
  | .leaf (.integer value) =>
      stored (ascii "number_value") (.ok (.double (Conversions.doubleFromInt value)))
  | .leaf (.string value) => stored (ascii "string_value") (.ok (.string value))
  | .leaf json =>
      stored (ascii "number_value") ((numberAsFloat doubleFormat json).map .double)
  | .object members => do
      let structDesc ← orMismatch (resolveMessageDescriptor file descriptor (ascii "Struct"))
      stored (ascii "struct_value")
        ((parseStructMessage file structDesc (.object members)).map .message)
  | .array items => do
      let listDesc ← orMismatch (resolveMessageDescriptor file descriptor (ascii "ListValue"))
      stored (ascii "list_value")
        ((parseListValueMessage file listDesc (.array items)).map .message)

/-! ## `Any` -/

/-- The bytes of a payload, after the check that the options ask for. -/
def encodePayload (payloadFile : FileDescriptor) (payload : DynamicMessage) :
    Except Failure Bytes := do
  if options.validateAnyPayloads then
    payload.validateRequired.mapError (fun _ => .missingRequired)
  (payload.encodeDeterministicWithRegistry registry payloadFile).mapError .encoding

/-- Members other than `@type` and `value` are unknown. -/
def checkEnvelope (members : List (Bytes × Part)) : Except Failure Unit :=
  if members.all (fun member => member.1 == ascii "@type" || member.1 == ascii "value") then .ok ()
  else .error .unknownField

def parseAnyMessage (file : FileDescriptor) (descriptor : MessageDescriptor) (node : Node) :
    Except Failure DynamicMessage :=
  match node with
  | .object members => do
      let typeField ← orMismatch (descriptor.findField (ascii "type_url"))
      let valueField ← orMismatch (descriptor.findField (ascii "value"))
      match members.lookup (ascii "@type") with
      | none => fillMessageObject registry options file (.init descriptor) members false
      | some type =>
          match type.node with
          | .leaf (.string typeUrl) =>
              if !anyTypeUrlIsValid typeUrl then .error .typeMismatch
              else
                let message := (DynamicMessage.init descriptor).add typeField (.string typeUrl)
                let stored (encoded : Except Failure Bytes) : Except Failure DynamicMessage :=
                  encoded.map (fun encoded => message.add valueField (.bytes encoded))
                let flattened (payloadDesc : MessageDescriptor) : Except Failure DynamicMessage :=
                  let payloadFile := messageDefiningFile file registry payloadDesc
                  stored (do
                    encodePayload registry options payloadFile
                      (← fillMessageObject registry options payloadFile (.init payloadDesc) members
                        true))
                match members.lookup (ascii "value"),
                  resolveAnyTypeWithRegistry file registry descriptor typeUrl with
                | some value, some resolved =>
                    let payloadName := anyTypeName typeUrl
                    if anyUsesValueEnvelope payloadName then do
                      checkEnvelope members
                      let payloadFile := messageDefiningFile file registry resolved
                      let payload ← orMismatch
                        (← value.readers.parseKnownMessage payloadFile resolved payloadName)
                      stored (encodePayload registry options payloadFile payload)
                    else flattened resolved
                | some value, none => do
                    checkEnvelope members
                    match value.node with
                    | .leaf (.string encoded) =>
                        stored ((decodeBase64 encoded).mapError base64Failure)
                    | _ => .error .typeMismatch
                | none, some resolved => flattened resolved
                | none, none => .error .typeMismatch
          | _ => .error .typeMismatch
  | _ => .error .typeMismatch

/-! ## Known messages -/

def addKnownTimeFields (message : DynamicMessage) (time : BitVec 64 × BitVec 32) :
    Except Failure DynamicMessage := do
  let message ←
    if time.1 == 0 then .ok message
    else do
      return message.add (← orMismatch (message.descriptor.findField (ascii "seconds")))
        (.int64 time.1)
  if time.2 == 0 then .ok message
  else do
    return message.add (← orMismatch (message.descriptor.findField (ascii "nanos")))
      (.int32 time.2)

def parseWrapperValue (kind : FieldKind) (json : JsonValue) : Except Failure Value :=
  match kind with
  | .scalar scalar => parseScalar scalar json
  | _ => .error .typeMismatch

def parseWrapperMessage (descriptor : MessageDescriptor) (kind : FieldKind) (node : Node) :
    Except Failure DynamicMessage :=
  if node.isNull then .ok (.init descriptor)
  else do
    let field ← orMismatch (descriptor.findField (ascii "value"))
    return (DynamicMessage.init descriptor).add field (← parseWrapperValue kind node.json)

def parseEmptyMessage (descriptor : MessageDescriptor) (node : Node) :
    Except Failure DynamicMessage :=
  match node with
  | .object members => if members.isEmpty then .ok (.init descriptor) else .error .unknownField
  | _ => .error .typeMismatch

def parseFieldMaskMessage (descriptor : MessageDescriptor) (text : Bytes) :
    Except Failure DynamicMessage := do
  let paths ← KnownTexts.parseFieldMask text
  let field ← orMismatch (descriptor.findField (ascii "paths"))
  return paths.foldl (fun message path => message.add field (.string path)) (.init descriptor)

def parseKnownMessage (file : FileDescriptor) (descriptor : MessageDescriptor) (name : Bytes)
    (node : Node) : Except Failure (Option DynamicMessage) :=
  if typeNameEquals name (ascii "google.protobuf.Struct") then
    (parseStructMessage file descriptor node).map some
  else if typeNameEquals name (ascii "google.protobuf.Value") then
    (parseValueMessage file descriptor node).map some
  else if typeNameEquals name (ascii "google.protobuf.ListValue") then
    (parseListValueMessage file descriptor node).map some
  else match wrapperKind name with
  | some kind => (parseWrapperMessage descriptor kind node).map some
  | none =>
      if typeNameEquals name (ascii "google.protobuf.Empty") then
        (parseEmptyMessage descriptor node).map some
      else if typeNameEquals name (ascii "google.protobuf.Any") then
        (parseAnyMessage registry options file descriptor node).map some
      else match node with
      | .leaf (.string text) =>
          if typeNameEquals name (ascii "google.protobuf.Timestamp") then do
            return some (← addKnownTimeFields (.init descriptor)
              (← KnownTexts.parseTimestamp text))
          else if typeNameEquals name (ascii "google.protobuf.Duration") then do
            return some (← addKnownTimeFields (.init descriptor)
              (← KnownTexts.parseDuration text))
          else if typeNameEquals name (ascii "google.protobuf.Empty") then
            .ok (some (.init descriptor))
          else if typeNameEquals name (ascii "google.protobuf.FieldMask") then
            (parseFieldMaskMessage descriptor text).map some
          else .ok none
      | _ => .ok none

/-! ## Values -/

def parseValue (file : FileDescriptor) (current : MessageDescriptor) (kind : FieldKind)
    (node : Node) : Except Failure Value :=
  match kind with
  | .scalar scalar => parseScalar scalar node.json
  | .enumeration name => parseEnumWithRegistry file registry current name node.json
  | .message name =>
      if (registryEnumDescriptor file registry current name).isSome then
        parseEnumWithRegistry file registry current name node.json
      else do
        let descriptor ← orMismatch
          (resolveMessageDescriptorWithRegistry file registry current name)
        let descriptorFile := messageDefiningFile file registry descriptor
        match ← parseKnownMessage registry options descriptorFile descriptor name node with
        | some known => return .message known
        | none =>
            return .message
              (← fillMessageNode registry options descriptorFile (.init descriptor) node)
  | .group name => do
      let descriptor ← orMismatch (resolveMessageDescriptorWithRegistry file registry current name)
      let descriptorFile := messageDefiningFile file registry descriptor
      return .group (← fillMessageNode registry options descriptorFile (.init descriptor) node)
  | .map _ _ => .error .typeMismatch

/-! ## From the leaves up -/

/-- The readers of a node whose parts have theirs. -/
def readersOf (node : Node) : Readers where
  parseValue file current kind := parseValue registry options file current kind node
  parseKnownMessage file descriptor name :=
    parseKnownMessage registry options file descriptor name node
  parseValueMessage file descriptor := parseValueMessage file descriptor node

mutual

def read : JsonValue → Node
  | .array items => .array (readItems items)
  | .object members => .object (readMembers members)
  | .null => .leaf .null
  | .bool value => .leaf (.bool value)
  | .integer value => .leaf (.integer value)
  | .float value => .leaf (.float value)
  | .numberString text => .leaf (.numberString text)
  | .string text => .leaf (.string text)
termination_by structural x => x

def readItems : List JsonValue → List Part
  | [] => []
  | item :: rest =>
      { node := read item, readers := readersOf registry options (read item) } :: readItems rest
termination_by structural x => x

def readMembers : List (Bytes × JsonValue) → List (Bytes × Part)
  | [] => []
  | member :: rest => readMember member :: readMembers rest
termination_by structural x => x

def readMember : Bytes × JsonValue → Bytes × Part
  | (key, value) =>
      (key, { node := read value, readers := readersOf registry options (read value) })
termination_by structural x => x

end

/-- `fillMessageWithRegistry` -/
def fillMessage (file : FileDescriptor) (message : DynamicMessage) (json : JsonValue) :
    Except Failure DynamicMessage :=
  fillMessageNode registry options file message (read registry options json)

end

end Json

end Pbz
