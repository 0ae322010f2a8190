import Pbz.Codegen.EmittedMessage

set_option autoImplicit false

/-! # Emitted decoders

The `decode` that `codegen.zig` emits, for fields of every kind. What a decoder reads for one field
of its input (`MemberAction`) does not depend on the struct it fills; a `Reads` is the list of these
actions for an input, and `decode` carries them out one after the other.

The decoders of the levels below a reader stand in a list, the next one first, so that its length is
the number of levels that the reader may still descend. What `optionInt` and its like make of an
explicit default is a parameter (`explicitDefault`); nothing here depends on it.
-/

namespace Pbz

/-- What an emitted decoder does for one field of the input. -/
inductive MemberAction where
  | set (field : FieldDescriptor) (value : Value)
  | append (field : FieldDescriptor) (items : List Element) (raws : List Bytes)
  | keep (raw : Bytes)
  | join (field : FieldDescriptor) (payload : Bytes)
  | merge (field : FieldDescriptor) (struct : GeneratedStruct) (message : EmittedMessage)
  | put (field : FieldDescriptor) (entry : Value × Element)
  | choose (field : FieldDescriptor) (oneof : Bytes) (element : Element)

abbrev EmittedDecoder := GeneratedStruct → Bytes → Except Error EmittedMessage

namespace Codegen

/-! ## Defaults -/

def zeroScalar : ScalarType → Value
  | .double => .double 0
  | .float => .float 0
  | .int32 => .int32 0
  | .int64 => .int64 0
  | .uint32 => .uint32 0
  | .uint64 => .uint64 0
  | .sint32 => .sint32 0
  | .sint64 => .sint64 0
  | .fixed32 => .fixed32 0
  | .fixed64 => .fixed64 0
  | .sfixed32 => .sfixed32 0
  | .sfixed64 => .sfixed64 0
  | .bool => .boolean false
  | .string => .string []
  | .bytes => .bytes []

def firstEnumValue (file : FileDescriptor) (name : Bytes) : BitVec 32 :=
  match (file.findEnumDeep name).bind (fun enumeration => enumeration.values.head?) with
  | some value => value.number
  | none => 0

section

variable (explicitDefault : FieldKind → OptionValue → Option Value)

/-- The literal that `writeFieldKindDefault` emits. -/
def fieldKindDefault (file : FileDescriptor) (kind : FieldKind) (default : Option OptionValue) :
    Value :=
  match default.bind (explicitDefault kind) with
  | some value => value
  | none =>
      match kind with
      | .scalar scalar => zeroScalar scalar
      | .enumeration name => .enumeration (firstEnumValue file name)
      | _ => .bytes []

/-- The emitted `init`. A number without a field has the value `false`. -/
def initMessage (s : GeneratedStruct) : EmittedMessage :=
  { member := fun number =>
      { value :=
          match s.message.findFieldByNumber number with
          | some field => fieldKindDefault explicitDefault s.file field.kind field.defaultValue
          | none => .boolean false
        has := false, payload := [], nested := none, items := [], entries := [] }
    oneof := fun _ => none
    unknownFields := [] }

end

/-! ## Reading one field -/

/-- Read something behind the tag and make an action of it and of the bytes of the whole field,
those from `input` on. -/
def reading {α : Type} (read : Bytes → ReadResult α) (make : α → Bytes → Except Error MemberAction)
    (input rest : Bytes) : Except Error (MemberAction × Bytes) :=
  match read rest with
  | .error e => .error e
  | .ok (found, rest) =>
      match make found (consumed input rest) with
      | .error e => .error e
      | .ok action => .ok (action, rest)

def tagSize (number : Nat) (wireType : WireType) : Nat :=
  (writeVarint (rawTagValue number wireType)).length

/-- The body of a group. Its end is found from the size of the end tag as it would be written. -/
def readGroupBytes (levels number : Nat) (input : Bytes) : ReadResult Bytes :=
  match skipGroup levels number input with
  | .error e => .error e
  | .ok rest => .ok (input.take (input.length - rest.length - tagSize number .endGroup), rest)

/-- `writeMessagePayloadRead`. -/
def readMessagePayload (file : FileDescriptor) (field : FieldDescriptor) (levels : Nat)
    (input : Bytes) : ReadResult Bytes :=
  if field.kind.isGroup || fieldMessageEncoding file field == .delimited then
    readGroupBytes levels field.number input
  else readBytes input

def skipRead (levels : Nat) (tag : Tag) (input : Bytes) : ReadResult Unit :=
  match skipValue levels tag input with
  | .error e => .error e
  | .ok rest => .ok ((), rest)

def enumKnown (file : FileDescriptor) (name : Bytes) (value : BitVec 32) : Bool :=
  match file.findEnumDeep name with
  | some enumeration => enumeration.values.any (fun known => known.number == value)
  | none => false

/-- One value of a field that is neither a message nor a map. -/
def storeValue (field : FieldDescriptor) (value : Value) : MemberAction :=
  if field.cardinality == .repeated then .append field [.value value] []
  else match field.oneofName with
    | some oneof => .choose field oneof (.value value)
    | none => .set field value

/-- `appendRawVarintPayload`: the raw field that it appends. -/
def rawVarintPayload (number : Nat) (payload : Bytes) : Except Error Bytes :=
  match writeTag number .varint with
  | .error e => .error e
  | .ok tag => .ok (tag ++ payload)

/-- One value of the packed payload of a closed enum. -/
def closedEnumPass (file : FileDescriptor) (name : Bytes) (number : Nat)
    (found : List Element × List Bytes) (input : Bytes) :
    Loop.Step UInt8 (List Element × List Bytes) Error :=
  if input.isEmpty then .done found input
  else match readInt32 input with
    | .error e => .fail found e
    | .ok (value, rest) =>
        if enumKnown file name value then
          .next (found.1 ++ [.value (.enumeration value)], found.2) rest
        else match rawVarintPayload number (consumed input rest) with
          | .error e => .fail found e
          | .ok raw => .next (found.1, found.2 ++ [raw]) rest

def readClosedEnumPayload (file : FileDescriptor) (field : FieldDescriptor) (name payload : Bytes) :
    Except Error MemberAction :=
  match Loop.run (closedEnumPass file name field.number) ([], []) payload with
  | (_, .error e) => .error e
  | ((items, raws), .ok _) => .ok (.append field items raws)

/-- A scalar or an open enum: a packed payload or one value. -/
def readPlain (file : FileDescriptor) (field : FieldDescriptor) (isPacked : Bool)
    (input rest : Bytes) : Except Error (MemberAction × Bytes) :=
  if isPacked then
    reading readBytes (fun payload _ =>
      (packedAppend field payload).map (fun values => .append field (values.map .value) []))
      input rest
  else reading (readOne file field) (fun value _ => .ok (storeValue field value)) input rest

/-- A closed enum keeps the fields with numbers it does not know. -/
def readClosedEnum (file : FileDescriptor) (field : FieldDescriptor) (name : Bytes) (isPacked : Bool)
    (input rest : Bytes) : Except Error (MemberAction × Bytes) :=
  if isPacked then
    reading readBytes (fun payload _ => readClosedEnumPayload file field name payload) input rest
  else
    reading readInt32 (fun value raw =>
      .ok (if enumKnown file name value then storeValue field (.enumeration value) else .keep raw))
      input rest

/-- `r.nested` and `decodeFromReader`. -/
def decodeNested (below : List EmittedDecoder) (t : GeneratedStruct) (payload : Bytes) :
    Except Error EmittedMessage :=
  match below with
  | [] => .error .recursionLimitExceeded
  | decode :: _ => decode t payload

/-- The element that a typed or an untyped payload becomes. -/
def messageElement (below : List EmittedDecoder) (struct : Option GeneratedStruct)
    (payload : Bytes) : Except Error Element :=
  match struct with
  | none => .ok (.payload payload)
  | some t => (decodeNested below t payload).map .message

/-- `writeDecodeMessageField`, from the payload on. -/
def storeMessage (s : GeneratedStruct) (below : List EmittedDecoder) (field : FieldDescriptor)
    (payload : Bytes) : Except Error MemberAction :=
  if field.cardinality == .repeated then
    (messageElement below (s.typedRepeated field) payload).map (fun item => .append field [item] [])
  else match field.oneofName with
    | some oneof =>
        (messageElement below (s.typedOneof field) payload).map (.choose field oneof)
    | none =>
        match s.typedSingular field with
        | some t => (decodeNested below t payload).map (.merge field t)
        | none => .ok (.join field payload)

/-! ### Map entries -/

structure EmittedEntry where
  key : Value
  value : Element
  skip : Bool := false

section

variable (explicitDefault : FieldKind → OptionValue → Option Value)

def initEntry (s : GeneratedStruct) (field : FieldDescriptor) (key : ScalarType)
    (value : FieldKind) : EmittedEntry :=
  { key := fieldKindDefault explicitDefault s.file (.scalar key) none
    value :=
      match s.typedMapValue field with
      | some t => .message (initMessage explicitDefault t)
      | none =>
          match value with
          | .message _ | .group _ => .payload []
          | _ => .value (fieldKindDefault explicitDefault s.file value none) }

/-- The value of a map entry, `none` for a number that a closed enum does not know. -/
def readEntryValue (s : GeneratedStruct) (below : List EmittedDecoder) (field : FieldDescriptor)
    (value : FieldKind) (input : Bytes) : ReadResult (Option Element) :=
  match value with
  | .scalar scalar => (readScalarField s.file field scalar input).map (fun v => some (.value v))
  | .enumeration name =>
      (readInt32 input).map (fun v =>
        if enumIsClosed s.file name && !enumKnown s.file name v then none
        else some (.value (.enumeration v)))
  | .message _ =>
      match readBytes input with
      | .error e => .error e
      | .ok (payload, rest) =>
          match messageElement below (s.typedMapValue field) payload with
          | .error e => .error e
          | .ok element => .ok (some element, rest)
  | _ => .error .typeMismatch

/-- One field of a map entry; `below` is for the reader of the entry. -/
def mapEntryPass (s : GeneratedStruct) (below : List EmittedDecoder) (field : FieldDescriptor)
    (key : ScalarType) (value : FieldKind) (entry : EmittedEntry) (input : Bytes) :
    Loop.Step UInt8 EmittedEntry Error :=
  match nextTag input with
  | .error e => .fail entry e
  | .ok none => .done entry input
  | .ok (some (tag, rest)) =>
      if tag.number = 1 then
        match readScalarField s.file field key rest with
        | .error e => .fail entry e
        | .ok (found, rest) => .next { entry with key := found } rest
      else if tag.number = 2 then
        match readEntryValue s below field value rest with
        | .error e => .fail entry e
        | .ok (none, rest) => .next { entry with skip := true } rest
        | .ok (some found, rest) => .next { entry with value := found } rest
      else match skipValue below.length tag rest with
        | .error e => .fail entry e
        | .ok rest => .next entry rest

/-- `writeDecodeMapField`, from the payload on; `raw` is the whole field. -/
def storeMapEntry (s : GeneratedStruct) (below : List EmittedDecoder) (field : FieldDescriptor)
    (key : ScalarType) (value : FieldKind) (payload raw : Bytes) : Except Error MemberAction :=
  match below with
  | [] => .error .recursionLimitExceeded
  | _ :: below =>
      match Loop.run (mapEntryPass s below field key value)
          (initEntry explicitDefault s field key value) payload with
      | (_, .error e) => .error e
      | (entry, .ok _) => .ok (if entry.skip then .keep raw else .put field (entry.key, entry.value))

/-! ### Fields -/

/-- The cases of `writeDecodeField`. -/
def readField (s : GeneratedStruct) (below : List EmittedDecoder) (field : FieldDescriptor)
    (tag : Tag) (input rest : Bytes) : Except Error (MemberAction × Bytes) :=
  let isPacked := field.isPackable && tag.wireType == .lengthDelimited
  match field.kind with
  | .scalar _ => readPlain s.file field isPacked input rest
  | .enumeration name =>
      if enumIsClosed s.file name then readClosedEnum s.file field name isPacked input rest
      else readPlain s.file field isPacked input rest
  | .message _ | .group _ =>
      reading (readMessagePayload s.file field below.length)
        (fun payload _ => storeMessage s below field payload) input rest
  | .map key value =>
      reading readBytes (storeMapEntry explicitDefault s below field key value) input rest

/-- `appendSkippedRawField`. -/
def readUnknownField (below : List EmittedDecoder) (tag : Tag) (input rest : Bytes) :
    Except Error (MemberAction × Bytes) :=
  reading (skipRead below.length tag) (fun _ raw => .ok (.keep raw)) input rest

/-- One field of the input in the loop of `writeDecode`, `none` at its end. -/
def readMemberByNumber (s : GeneratedStruct) (below : List EmittedDecoder) (input : Bytes) :
    Except Error (Option (MemberAction × Bytes)) :=
  match nextTag input with
  | .error e => .error e
  | .ok none => .ok none
  | .ok (some (tag, rest)) =>
      match s.message.findFieldByNumber tag.number with
      | some field => (readField explicitDefault s below field tag input rest).map some
      | none => (readUnknownField below tag input rest).map some

/-- One field of the input in the loop of `writeRawTagDecodeLoop`, `none` at its end. -/
def readMemberByRawTag (s : GeneratedStruct) (below : List EmittedDecoder) (input : Bytes) :
    Except Error (Option (MemberAction × Bytes)) :=
  if input.isEmpty then .ok none
  else match readRawTag input with
    | .error e => .error e
    | .ok (rawTag, rest) =>
        match switchCase s.message (rawTagCase s.file) rawTag with
        | some (field, isPacked) => (readPlain s.file field isPacked input rest).map some
        | none =>
            match Tag.decode rawTag with
            | .error e => .error e
            | .ok tag => (readUnknownField below tag input rest).map some

def readMember (s : GeneratedStruct) (below : List EmittedDecoder) (input : Bytes) :
    Except Error (Option (MemberAction × Bytes)) :=
  if messageCanFastRawTagDecode s.file s.message then readMemberByRawTag s below input
  else readMemberByNumber explicitDefault s below input

end

end Codegen

/-! ## Storing -/

namespace EmittedMessage

def changeMember (self : EmittedMessage) (number : Nat) (change : Member → Except Error Member) :
    Except Error EmittedMessage :=
  match change (self.member number) with
  | .error e => .error e
  | .ok own => .ok { self with member := Function.update self.member number own }

/-- Carry out one action. Only the merge of a typed message can fail. -/
def act (s : GeneratedStruct) (self : EmittedMessage) : MemberAction → Except Error EmittedMessage
  | .set field value =>
      self.changeMember field.number (fun own =>
        .ok { own with
              value := value
              has := if Codegen.hasPresence s.file field then true else own.has })
  | .append field items raws =>
      { self with unknownFields := self.unknownFields ++ raws }.changeMember field.number (fun own =>
        .ok { own with items := own.items ++ items })
  | .keep raw => .ok { self with unknownFields := self.unknownFields ++ [raw] }
  | .join field payload => self.changeMember field.number (fun own => .ok (own.joinPayload payload))
  | .merge field t message =>
      self.changeMember field.number (fun own =>
        (mergeNested t own.nested (some message)).map (fun merged => { own with nested := merged }))
  | .put field entry =>
      self.changeMember field.number (fun own =>
        .ok { own with entries := Codegen.putMapEntry own.entries entry })
  | .choose field oneof element =>
      .ok { self with oneof := Function.update self.oneof oneof (some (field.number, element)) }

end EmittedMessage

namespace Codegen

section

variable (explicitDefault : FieldKind → OptionValue → Option Value)

def decodeMemberPass (s : GeneratedStruct) (below : List EmittedDecoder) (self : EmittedMessage)
    (input : Bytes) : Loop.Step UInt8 EmittedMessage Error :=
  match readMember explicitDefault s below input with
  | .error e => .fail self e
  | .ok none => .done self input
  | .ok (some (action, rest)) =>
      match self.act s action with
      | .error e => .fail self e
      | .ok self => .next self rest

/-- The emitted `decodeFromReader`. -/
def decodeFromReader (below : List EmittedDecoder) : EmittedDecoder := fun s input =>
  match Loop.run (decodeMemberPass explicitDefault s below) (initMessage explicitDefault s) input with
  | (_, .error e) => .error e
  | (self, .ok _) => .ok self

/-- The decoders of the levels below a reader. -/
def decodersBelow : Nat → List EmittedDecoder
  | 0 => []
  | levels + 1 => decodeFromReader explicitDefault (decodersBelow levels) :: decodersBelow levels

/-- The emitted `decode`. -/
def decodeEmitted (s : GeneratedStruct) (bytes : Bytes) : Except Error EmittedMessage :=
  decodeFromReader explicitDefault (decodersBelow explicitDefault recursionLimit) s bytes

end

end Codegen

end Pbz
