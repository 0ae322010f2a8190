import Pbz.Dynamic.Encode
import Pbz.Lib.Loop

set_option autoImplicit false

/-! # The dynamic decoder

`DynamicMessage.decodeStream` and what it calls. A pass of its loop reads one field and stores
it; the message is returned also when the pass fails, since a failed `decode` leaves what it has
stored so far.

A reader at `levels` may descend that many times. The codec of the levels below is a parameter of
the definitions here (`none` when there is no level left) and the knot is tied in `nestedStream`.
-/

namespace Pbz

/-- `decodeStream` on a reader: the file, the message, the group that is open and the input. -/
abbrev StreamDecoder :=
  FileDescriptor → DynamicMessage → Option Nat → Bytes → DynamicMessage × Except Error Bytes

/-- `decodeMapEntryValue`: the file, the message type, the field, its key type and value kind and
the payload. The result is `none` if the entry is to be kept as an unknown field. -/
abbrev MapEntryDecoder :=
  FileDescriptor → MessageDescriptor → FieldDescriptor → ScalarType → FieldKind → Bytes →
    Except Error (Option Value)

/-- The outcome of one pass of the loop of `decodeStream`. -/
abbrev Pass := Loop.Step UInt8 DynamicMessage Error

/-! ## Values -/

def decodeStringValue (file : FileDescriptor) (field : FieldDescriptor) (bytes : Bytes) :
    Except Error Bytes :=
  if field.utf8Validation file == .verify && !utf8ValidateSlice bytes then .error .invalidUtf8
  else .ok bytes

section

variable (registry : Option Registry) (nested : Option StreamDecoder)

/-- `decodeMessagePayload` on a reader that has already descended. -/
def decodeMessagePayload (stream : StreamDecoder) (file : FileDescriptor)
    (current : MessageDescriptor) (name payload : Bytes) : Except Error Value :=
  match resolveMessageDescriptorWithRegistry file registry current name with
  | none => .error .typeMismatch
  | some descriptor =>
      let descriptorFile := messageDefiningFile file registry descriptor
      match stream descriptorFile (.init descriptor) none payload with
      | (_, .error e) => .error e
      | (message, .ok _) => .ok (.message message.deduplicateDecodedMapFields)

def decodeValue (file : FileDescriptor) (current : MessageDescriptor) (field : FieldDescriptor)
    (kind : FieldKind) (input : Bytes) : ReadResult Value :=
  match kind with
  | .scalar .string =>
      match readBytes input with
      | .error e => .error e
      | .ok (bytes, rest) =>
          match decodeStringValue file field bytes with
          | .error e => .error e
          | .ok value => .ok (.string value, rest)
  | .scalar .bytes => (readBytes input).map .bytes
  | .scalar scalar => decodeScalarLike (.scalar scalar) input
  | .enumeration name => decodeScalarLike (.enumeration name) input
  | .message name =>
      match readBytes input with
      | .error e => .error e
      | .ok (payload, rest) =>
          match nested with
          | none => .error .recursionLimitExceeded
          | some stream =>
              match decodeMessagePayload registry stream file current name payload with
              | .error e => .error e
              | .ok value => .ok (value, rest)
  | .group _ | .map _ _ => .error .typeMismatch

/-- The body of `decodeGroupValue` and `decodeDelimitedMessageValue`: a message up to the end tag
of the field's number. -/
def decodeGroupBody (file : FileDescriptor) (current : MessageDescriptor) (number : Nat)
    (name input : Bytes) : ReadResult DynamicMessage :=
  match resolveMessageDescriptorWithRegistry file registry current name with
  | none => .error .typeMismatch
  | some descriptor =>
      match nested with
      | none => .error .recursionLimitExceeded
      | some stream =>
          let descriptorFile := messageDefiningFile file registry descriptor
          match stream descriptorFile (.init descriptor) (some number) input with
          | (_, .error e) => .error e
          | (message, .ok rest) => .ok (message.deduplicateDecodedMapFields, rest)

def decodeGroupValue (file : FileDescriptor) (current : MessageDescriptor)
    (field : FieldDescriptor) (input : Bytes) : ReadResult Value :=
  match field.kind with
  | .group name => (decodeGroupBody registry nested file current field.number name input).map .group
  | _ => .error .typeMismatch

def decodeDelimitedMessageValue (file : FileDescriptor) (current : MessageDescriptor)
    (field : FieldDescriptor) (input : Bytes) : ReadResult Value :=
  match field.kind with
  | .message name =>
      (decodeGroupBody registry nested file current field.number name input).map .message
  | _ => .error .typeMismatch

/-! ## Map entries -/

/-- The value of a map entry that leaves it out. -/
def defaultValue (file : FileDescriptor) (current : MessageDescriptor) (kind : FieldKind) :
    Except Error Value :=
  match kind with
  | .scalar .double => .ok (.double 0)
  | .scalar .float => .ok (.float 0)
  | .scalar .int32 => .ok (.int32 0)
  | .scalar .int64 => .ok (.int64 0)
  | .scalar .uint32 => .ok (.uint32 0)
  | .scalar .uint64 => .ok (.uint64 0)
  | .scalar .sint32 => .ok (.sint32 0)
  | .scalar .sint64 => .ok (.sint64 0)
  | .scalar .fixed32 => .ok (.fixed32 0)
  | .scalar .fixed64 => .ok (.fixed64 0)
  | .scalar .sfixed32 => .ok (.sfixed32 0)
  | .scalar .sfixed64 => .ok (.sfixed64 0)
  | .scalar .bool => .ok (.boolean false)
  | .scalar .string => .ok (.string [])
  | .scalar .bytes => .ok (.bytes [])
  | .enumeration _ => .ok (.enumeration 0)
  | .message name =>
      match resolveMessageDescriptorWithRegistry file registry current name with
      | none => .error .typeMismatch
      | some descriptor => .ok (.message (.init descriptor))
  | .group _ | .map _ _ => .error .typeMismatch

/-- The key and the value read so far, and whether the loop ended with an undeclared value of a
closed enum. -/
structure MapEntryState where
  key : Option Value := none
  value : Option Value := none
  undeclared : Bool := false

/-- One pass of the loop of `decodeMapEntryValue`. -/
def mapEntryPass (levels : Nat) (file : FileDescriptor) (current : MessageDescriptor)
    (field : FieldDescriptor) (keyType : ScalarType) (valueKind : FieldKind)
    (state : MapEntryState) (input : Bytes) : Loop.Step UInt8 MapEntryState Error :=
  match nextTag input with
  | .error e => .fail state e
  | .ok none => .done state input
  | .ok (some (tag, rest)) =>
      if tag.number = 1 then
        if tag.wireType ≠ keyType.wireType then .fail state .invalidWireType
        else match decodeValue registry nested file current field (.scalar keyType) rest with
          | .error e => .fail state e
          | .ok (key, rest) => .next { state with key := some key } rest
      else if tag.number = 2 then
        match registryEnumDescriptor file registry current valueKind with
        | some enumeration =>
            if tag.wireType ≠ .varint then .fail state .invalidWireType
            else match readInt32 rest with
              | .error e => .fail state e
              | .ok (v, rest) =>
                  if enumIsClosed file registry enumeration && !enumHasNumber enumeration v then
                    .done { state with undeclared := true } rest
                  else .next { state with value := some (.enumeration v) } rest
        | none =>
            if tag.wireType ≠ valueKind.wireType then .fail state .invalidWireType
            else match decodeValue registry nested file current field valueKind rest with
              | .error e => .fail state e
              | .ok (v, rest) => .next { state with value := some v } rest
      else match skipValue levels tag rest with
        | .error e => .fail state e
        | .ok rest => .next state rest

/-- The entry that has been read, with defaults for what it left out. -/
def mapEntryOf (file : FileDescriptor) (current : MessageDescriptor) (keyType : ScalarType)
    (valueKind : FieldKind) (state : MapEntryState) : Except Error Value := do
  let key ← match state.key with
    | some key => .ok key
    | none => defaultValue registry file current (.scalar keyType)
  let value ← match state.value with
    | some value => .ok value
    | none =>
        if (registryEnumDescriptor file registry current valueKind).isSome then
          .ok (.enumeration 0)
        else defaultValue registry file current valueKind
  return .mapEntry key value

def decodeMapEntryValue (levels : Nat) : MapEntryDecoder :=
  fun file current field keyType valueKind payload =>
    match Loop.run (mapEntryPass registry nested levels file current field keyType valueKind) {}
        payload with
    | (_, .error e) => .error e
    | (state, .ok _) =>
        if state.undeclared then .ok none
        else match mapEntryOf registry file current keyType valueKind state with
          | .error e => .error e
          | .ok value => .ok (some value)

end

/-! ## Packed fields -/

/-- One pass over a packed payload. -/
def packedPass (read : Bytes → ReadResult Value) (values : List Value) (payload : Bytes) :
    Loop.Step UInt8 (List Value) Error :=
  if payload.isEmpty then .done values payload
  else match read payload with
    | .error e => .fail values e
    | .ok (value, rest) => .next (values ++ [value]) rest

/-- The scalars whose packed payload is a sequence of varints. -/
def packsAsVarint : ScalarType → Bool
  | .int32 | .int64 | .uint32 | .uint64 | .sint32 | .sint64 | .bool => true
  | _ => false

def addPackedVarintScalar (self : DynamicMessage) (field : FieldDescriptor) (scalar : ScalarType)
    (payload : Bytes) : DynamicMessage × Except Error Bytes :=
  if packsAsVarint scalar then
    let (values, result) := Loop.run (packedPass (decodeScalarLike (.scalar scalar))) [] payload
    (self.appendValues field values, result)
  else (self, .error .typeMismatch)

/-- The value of a fixed-width scalar with the given bits. -/
def fixedWidthValue (scalar : ScalarType) (raw : Nat) : Value :=
  match scalar with
  | .fixed64 => .fixed64 (BitVec.ofNat 64 raw)
  | .sfixed32 => .sfixed32 (BitVec.ofNat 32 raw)
  | .sfixed64 => .sfixed64 (BitVec.ofNat 64 raw)
  | .float => .float (BitVec.ofNat 32 raw)
  | .double => .double (BitVec.ofNat 64 raw)
  | _ => .fixed32 (BitVec.ofNat 32 raw)

def fixedWidthValues (scalar : ScalarType) (width : Nat) : Nat → Bytes → List Value
  | 0, _ => []
  | count + 1, payload =>
      fixedWidthValue scalar (ofLittleBytes (payload.take width))
        :: fixedWidthValues scalar width count (payload.drop width)

def addPackedFixedWidth (self : DynamicMessage) (field : FieldDescriptor) (scalar : ScalarType)
    (payload : Bytes) : DynamicMessage × Except Error Bytes :=
  match fixedWidthPackedScalarSize scalar with
  | none => (self, .error .typeMismatch)
  | some width =>
      if payload.length % width ≠ 0 then (self, .error .invalidWireType)
      else
        let count := payload.length / width
        (self.appendValues field (fixedWidthValues scalar width count payload), .ok [])

/-- `addUnknownVarintPayload`: the unknown field that holds one varint of a packed payload. -/
def unknownVarintPayload (number : Nat) (varint : Bytes) : Except Error UnknownField := do
  let tag ← writeTag number .varint
  return { number, wireType := .varint, data := tag ++ varint }

/-- What `addPackedEnum` appends to the field and to the unknown fields. -/
structure PackedEnum where
  values : List Value := []
  unknown : List UnknownField := []

def packedEnumPass (number : Nat) (enumeration : EnumDescriptor) (closed : Bool)
    (state : PackedEnum) (payload : Bytes) : Loop.Step UInt8 PackedEnum Error :=
  if payload.isEmpty then .done state payload
  else match readInt32 payload with
    | .error e => .fail state e
    | .ok (value, rest) =>
        if closed && !enumHasNumber enumeration value then
          match unknownVarintPayload number (consumed payload rest) with
          | .error e => .fail state e
          | .ok unknown => .next { state with unknown := state.unknown ++ [unknown] } rest
        else .next { state with values := state.values ++ [.enumeration value] } rest

def addPackedEnum (self : DynamicMessage) (field : FieldDescriptor)
    (enumeration : EnumDescriptor) (closed : Bool) (payload : Bytes) :
    DynamicMessage × Except Error Bytes :=
  let (state, result) := Loop.run (packedEnumPass field.number enumeration closed) {} payload
  let added := self.appendValues field state.values
  ({ added with unknownFields := added.unknownFields ++ state.unknown }, result)

/-- The packed values of an enum field whose type is not found, added one by one. -/
def packedAddPass (field : FieldDescriptor) (message : DynamicMessage) (payload : Bytes) : Pass :=
  if payload.isEmpty then .done message payload
  else match decodeScalarLike field.kind payload with
    | .error e => .fail message e
    | .ok (value, rest) => .next (message.add field value) rest

/-! ## Fields -/

/-- Store a value that has been read, or end the pass with the error of reading it. -/
def storeRead (message : DynamicMessage) (store : Value → DynamicMessage)
    (read : ReadResult Value) : Pass :=
  match read with
  | .error e => .fail message e
  | .ok (value, rest) => .next (store value) rest

/-- Read a packed payload and append what it holds. -/
def storePacked (message : DynamicMessage) (input : Bytes)
    (append : Bytes → DynamicMessage × Except Error Bytes) : Pass :=
  match readBytes input with
  | .error e => .fail message e
  | .ok (payload, rest) =>
      match append payload with
      | (message, .error e) => .fail message e
      | (message, .ok _) => .next message rest

section

variable (registry : Option Registry) (nested : Option StreamDecoder)

/-- The map branch of `decodeStream`: `input` starts with the tag, `rest` after it. -/
def decodeMapField (nestedEntry : Option MapEntryDecoder) (file : FileDescriptor)
    (message : DynamicMessage) (field : FieldDescriptor) (keyType : ScalarType)
    (valueKind : FieldKind) (tag : Tag) (input rest : Bytes) : Pass :=
  if tag.wireType ≠ .lengthDelimited then .fail message .invalidWireType
  else match readBytes rest with
    | .error e => .fail message e
    | .ok (payload, rest) =>
        match nestedEntry with
        | none => .fail message .recursionLimitExceeded
        | some decodeEntry =>
            match decodeEntry file message.descriptor field keyType valueKind payload with
            | .error e => .fail message e
            | .ok none =>
                .next (message.addUnknownRaw tag.number tag.wireType (consumed input rest)) rest
            | .ok (some value) => .next (message.addDecodedMapEntry field value) rest

/-- The branch of `decodeStream` for fields whose type is an enum. -/
def decodeEnumField (fieldFile : FileDescriptor) (message : DynamicMessage)
    (field : FieldDescriptor) (enumeration : EnumDescriptor) (tag : Tag) (input rest : Bytes) :
    Pass :=
  let closed := enumIsClosed fieldFile registry enumeration
  if tag.wireType = .lengthDelimited ∧ field.cardinality = .repeated then
    storePacked message rest (addPackedEnum message field enumeration closed)
  else if tag.wireType ≠ .varint then .fail message .invalidWireType
  else match readInt32 rest with
    | .error e => .fail message e
    | .ok (value, rest) =>
        if closed && !enumHasNumber enumeration value then
          .next (message.addUnknownRaw tag.number tag.wireType (consumed input rest)) rest
        else .next (message.add field (.enumeration value)) rest

/-- The last branches of `decodeStream`, for scalars, length-prefixed messages and enum fields
whose type is not found. `closedEnumDescriptor`, which they ask again, finds no enum here. -/
def decodeOtherField (fieldFile : FileDescriptor) (message : DynamicMessage)
    (field : FieldDescriptor) (tag : Tag) (rest : Bytes) : Pass :=
  if tag.wireType = .lengthDelimited ∧ field.isPackable = true then
    match field.kind with
    | .scalar scalar =>
        if (fixedWidthPackedScalarSize scalar).isSome then
          storePacked message rest (addPackedFixedWidth message field scalar)
        else storePacked message rest (addPackedVarintScalar message field scalar)
    | _ => storePacked message rest (Loop.run (packedAddPass field) message)
  else if tag.wireType ≠ field.kind.wireType then .fail message .invalidWireType
  else storeRead message (message.addOwned field)
    (decodeValue registry nested fieldFile message.descriptor field field.kind rest)

/-- A message-kind field that is written between group tags. -/
def isDelimitedField (fieldFile : FileDescriptor) (current : MessageDescriptor)
    (field : FieldDescriptor) : Bool :=
  field.kind.isMessage && (registryEnumDescriptor fieldFile registry current field.kind).isNone
    && field.messageEncoding fieldFile == .delimited

/-- What `decodeStream` does with a field it knows. -/
def decodeKnownField (nestedEntry : Option MapEntryDecoder) (file : FileDescriptor)
    (message : DynamicMessage) (field : FieldDescriptor) (tag : Tag) (input rest : Bytes) : Pass :=
  let fieldFile := fieldDefiningFile file registry field
  let current := message.descriptor
  if isDelimitedField registry fieldFile current field then
    if tag.wireType ≠ .startGroup then .fail message .invalidWireType
    else storeRead message (message.addOwned field)
      (decodeDelimitedMessageValue registry nested fieldFile current field rest)
  else match field.kind with
    | .group _ =>
        if tag.wireType ≠ .startGroup then .fail message .invalidWireType
        else storeRead message (message.addOwned field)
          (decodeGroupValue registry nested file current field rest)
    | .map keyType valueKind =>
        decodeMapField nestedEntry file message field keyType valueKind tag input rest
    | kind =>
        match registryEnumDescriptor fieldFile registry current kind with
        | some enumeration =>
            decodeEnumField registry fieldFile message field enumeration tag input rest
        | none => decodeOtherField registry nested fieldFile message field tag rest

/-! ## Message sets -/

/-- The type id and the payload of a message set item, as far as they have been read. -/
structure MessageSetItem where
  typeId : Option Nat := none
  payload : Option Bytes := none

def messageSetItemPass (levels : Nat) (item : MessageSetItem) (input : Bytes) :
    Loop.Step UInt8 MessageSetItem Error :=
  match nextTag input with
  | .error e => .fail item e
  | .ok none => .fail item .truncatedInput
  | .ok (some (tag, rest)) =>
      if tag.wireType = .endGroup then
        if tag.number ≠ 1 then .fail item .invalidFieldNumber else .done item rest
      else if tag.number = 2 then
        if tag.wireType ≠ .varint then .fail item .invalidWireType
        else match readVarint rest with
          | .error e => .fail item e
          | .ok (raw, rest) =>
              let raw := raw % 2 ^ 32
              if raw = 0 ∨ raw > maxFieldNumber then .fail item .invalidFieldNumber
              else .next { item with typeId := some raw } rest
      else if tag.number = 3 then
        if tag.wireType ≠ .lengthDelimited then .fail item .invalidWireType
        else match readBytes rest with
          | .error e => .fail item e
          | .ok (payload, rest) => .next { item with payload := some payload } rest
      else match skipValue levels tag rest with
        | .error e => .fail item e
        | .ok rest => .next item rest

/-- `addMessageSetPayload`; the reader stands inside the item, and `nested` below it. -/
def addMessageSetPayload (file : FileDescriptor) (message : DynamicMessage) (number : Nat)
    (payload : Bytes) : Except Error DynamicMessage :=
  match registryExtension registry message.descriptor number with
  | none => do
      let raw ← writeBytes number payload
      return message.addUnknownRaw number .lengthDelimited raw
  | some field =>
      match field.kind with
      | .message name =>
          if field.cardinality = .repeated ∨ field.cardinality = .required then
            .error .typeMismatch
          else match nested with
            | none => .error .recursionLimitExceeded
            | some stream => do
                let value ←
                  decodeMessagePayload registry stream file message.descriptor name payload
                return message.addOwned field value
      | _ => .error .typeMismatch

/-- `decodeMessageSetItem`, on a reader inside the item. -/
def decodeMessageSetItem (levels : Nat) (file : FileDescriptor) (message : DynamicMessage)
    (input : Bytes) : Pass :=
  match Loop.run (messageSetItemPass levels) {} input with
  | (_, .error e) => .fail message e
  | ({ typeId := some number, payload := some payload }, .ok rest) =>
      match addMessageSetPayload registry nested file message number payload with
      | .error e => .fail message e
      | .ok message => .next message rest
  | (_, .ok rest) => .next message rest

end

/-! ## Streams -/

/-- The field that a tag number stands for in a message. -/
def fieldForNumber (registry : Option Registry) (descriptor : MessageDescriptor)
    (number : Nat) : Option FieldDescriptor :=
  (descriptor.findFieldByNumber number).or (registryExtension registry descriptor number)

/-- One pass of the loop of `decodeStream`; `itemNested` is the codec below a message set item. -/
def decodePass (registry : Option Registry) (levels : Nat) (nested : Option StreamDecoder)
    (nestedEntry : Option MapEntryDecoder)
    (nestedItem : Option (FileDescriptor → DynamicMessage → Bytes → Pass)) (file : FileDescriptor)
    (endGroup : Option Nat) (message : DynamicMessage) (input : Bytes) : Pass :=
  match nextTag input with
  | .error e => .fail message e
  | .ok none => if endGroup.isSome then .fail message .truncatedInput else .done message input
  | .ok (some (tag, rest)) =>
      if tag.wireType = .endGroup then
        match endGroup with
        | some expected =>
            if tag.number ≠ expected then .fail message .invalidFieldNumber
            else .done message rest
        | none => .fail message .invalidWireType
      else if message.descriptor.messageSetWireFormat && tag.number == 1
          && tag.wireType == .startGroup then
        match nestedItem with
        | none => .fail message .recursionLimitExceeded
        | some decodeItem => decodeItem file message rest
      else match fieldForNumber registry message.descriptor tag.number with
        | none =>
            match skipValue levels tag rest with
            | .error e => .fail message e
            | .ok after =>
                .next (message.addUnknownRaw tag.number tag.wireType (consumed input after)) after
        | some field =>
            decodeKnownField registry nested nestedEntry file message field tag input rest

mutual

/-- `decodeStream` on a reader that may still descend `levels` times, after descending once;
`none` is `RecursionLimitExceeded`. -/
def nestedStream (registry : Option Registry) : Nat → Option StreamDecoder
  | 0 => none
  | levels + 1 => some fun file message endGroup input =>
      Loop.run (decodePass registry levels (nestedStream registry levels)
        (nestedMapEntry registry levels) (nestedMessageSetItem registry levels) file endGroup)
        message input

def nestedMapEntry (registry : Option Registry) : Nat → Option MapEntryDecoder
  | 0 => none
  | levels + 1 => some (decodeMapEntryValue registry (nestedStream registry levels) levels)

def nestedMessageSetItem (registry : Option Registry) :
    Nat → Option (FileDescriptor → DynamicMessage → Bytes → Pass)
  | 0 => none
  | levels + 1 => some (decodeMessageSetItem registry (nestedStream registry levels) levels)

end

/-- `decodeStream` on a reader that may still descend `levels` times. -/
def decodeStream (registry : Option Registry) (levels : Nat) : StreamDecoder :=
  fun file message endGroup input =>
    Loop.run (decodePass registry levels (nestedStream registry levels)
      (nestedMapEntry registry levels) (nestedMessageSetItem registry levels) file endGroup)
      message input

namespace DynamicMessage

def clear (self : DynamicMessage) : DynamicMessage := .init self.descriptor

/-- The message after `decodeWithRegistry`, and the error if there was one. The maps are
deduplicated only when the whole input has been read. -/
def decodeWithRegistry (self : DynamicMessage) (file : FileDescriptor)
    (registry : Option Registry) (bytes : Bytes) : DynamicMessage × Except Error Unit :=
  match decodeStream registry recursionLimit file self.clear none bytes with
  | (message, .error e) => (message, .error e)
  | (message, .ok _) => (message.deduplicateDecodedMapFields, .ok ())

def decode (self : DynamicMessage) (file : FileDescriptor) (bytes : Bytes) :
    DynamicMessage × Except Error Unit :=
  self.decodeWithRegistry file none bytes

end DynamicMessage

end Pbz
