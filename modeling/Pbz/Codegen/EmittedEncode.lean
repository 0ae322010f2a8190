import Pbz.Codegen.EmittedLayers
import Pbz.Codegen.HotReaders
import Pbz.Dynamic.Encode
import Pbz.Lib.Filling
import Pbz.Wire.Cursor

set_option autoImplicit false

/-! # Emitted encoders

The encoders that `codegen.zig` emits for a message: `writeTo`, `writeToAssumeCapacity` and the
direct `encodeIntoAssumeCapacity`. Their templates go through the fields in the same way and issue
the same writes, so what they have in common is a program of commands (`writeProgram`), and each
encoder says what a command does. `encodedSize` has templates of its own.

Two more encoders are emitted for maps in order of their keys; they are not here.
-/

namespace Pbz

/-- How an encoder can stop: with an error of the source, with an index or a capacity outside of its
buffer, or with its bytes moved out of the buffer that it was given. -/
inductive EncodeFault where
  | error (e : Error)
  | noSpaceLeft
  | outOfBounds
  | moved
  deriving DecidableEq

/-- A list of bytes with a capacity. A list that grows moves out of its buffer. -/
structure Writer where
  buffer : FilledBuffer UInt8
  moved : Bool := false

/-- The emitted methods of one value. -/
structure EncodeMethods where
  encodedSize : Nat
  writeTo : Except Error Bytes
  writeToAssumeCapacity : Writer → Except EncodeFault Writer
  encodeIntoAssumeCapacity : Bool → Bytes → Except EncodeFault (FilledBuffer UInt8)

namespace Codegen

/-! ## Sizes of values -/

/-- `wire.tagSize` of a field number that the generator accepts. -/
def tagWidth (number : Nat) (wireType : WireType) : Nat :=
  encodedVarintSize (rawTagValue number wireType)

/-- `writeScalarPayloadSizeExpr`. -/
def scalarPayloadSize : ScalarType → Value → Nat
  | .double, _ | .fixed64, _ | .sfixed64, _ => 8
  | .float, _ | .fixed32, _ | .sfixed32, _ => 4
  | .int32, .int32 v => encodedVarintSize (v.signExtend 64).toNat
  | .int64, .int64 v => encodedVarintSize v.toNat
  | .uint32, .uint32 v => encodedVarintSize v.toNat
  | .uint64, .uint64 v => encodedVarintSize v.toNat
  | .sint32, .sint32 v => encodedVarintSize (zigZagEncode32 v).toNat
  | .sint64, .sint64 v => encodedVarintSize (zigZagEncode64 v).toNat
  | .bool, _ => 1
  | .string, .string s => encodedVarintSize s.length + s.length
  | .bytes, .bytes s => encodedVarintSize s.length + s.length
  | _, _ => 0

/-- The scalars and enums of `writeKindPayloadSizeExpr`. -/
def payloadSize : FieldKind → Value → Nat
  | .scalar scalar, value => scalarPayloadSize scalar value
  | .enumeration _, .enumeration v => encodedVarintSize (v.signExtend 64).toNat
  | _, _ => 0

/-- `fixedPackedScalarWidth`. -/
def fixedPackedWidth : FieldKind → Option Nat
  | .scalar .double | .scalar .fixed64 | .scalar .sfixed64 => some 8
  | .scalar .float | .scalar .fixed32 | .scalar .sfixed32 => some 4
  | .scalar .bool => some 1
  | _ => none

/-- The `packed_len` of all templates. -/
def packedLength (kind : FieldKind) (values : List Value) : Nat :=
  match fixedPackedWidth kind with
  | some width => values.length * width
  | none => (values.map (payloadSize kind)).sum

/-- `maxPackedScalarWidth`, and the width of an enum. -/
def maxPackedWidth : FieldKind → Nat
  | .scalar .bool => 1
  | .scalar .uint32 | .scalar .sint32 => 5
  | .scalar .double | .scalar .fixed64 | .scalar .sfixed64 => 8
  | .scalar .float | .scalar .fixed32 | .scalar .sfixed32 => 4
  | _ => 10

/-! ## Programs -/

/-- How a message that is kept as bytes is written: behind its length or between two tags. -/
inductive KeptForm where
  | lengthPrefixed
  | delimited
  | group
  deriving DecidableEq

/-- One write of the emitted code. For some messages that are kept as bytes `writeToAssumeCapacity`
still calls the writers that let the list grow (`grows`). -/
inductive Command (ρ : Type) where
  | check (valid : Bool)
  | tag (number : Nat) (wireType : WireType)
  | varint (value : Nat)
  | slice (data : Bytes)
  | payload (kind : FieldKind) (value : Value)
  | packed (number : Nat) (kind : FieldKind) (hkind : kind.packable = true) (values : List Value)
  | kept (grows : Bool) (form : KeptForm) (number : Nat) (bytes : Bytes)
  | body (delimited : Bool) (message : ρ)

/-- Only fields of these kinds are packed. -/
theorem packable_of_resolvedPacked {field : FieldDescriptor} {file : FileDescriptor}
    (h : field.resolvedPacked file = true) : field.kind.packable = true := by
  rw [FieldDescriptor.resolvedPacked] at h
  split at h
  · cases h
  · next hpackable =>
    rw [Bool.not_eq_true, Bool.not_eq_false', FieldDescriptor.isPackable,
      Bool.and_eq_true] at hpackable
    exact hpackable.2

/-- The elements of a slice of scalars or enums. -/
def itemValue {ρ : Type} : Held ρ → Option Value
  | .value value => some value
  | _ => none

section

variable {ρ : Type} (size : ρ → Nat) (s : GeneratedStruct) (field : FieldDescriptor)

/-- `if (!pbz.validateUtf8(value)) return error.InvalidUtf8`, for strings that are verified. -/
def utf8Check (kind : FieldKind) (value : Value) : List (Command ρ) :=
  match kind, value with
  | .scalar .string, .string bytes =>
      if field.utf8Validation s.file == .verify then [.check (utf8ValidateSlice bytes)] else []
  | _, _ => []

/-- A scalar or an enum behind its tag. -/
def writeValue (value : Value) : List (Command ρ) :=
  utf8Check s field field.kind value
    ++ [.tag field.number field.kind.wireType, .payload field.kind value]

def keptForm : KeptForm :=
  if field.kind.isGroup then .group
  else if fieldMessageEncoding s.file field == .delimited then .delimited
  else .lengthPrefixed

/-- The elements of a packed field. -/
def writePacked (hpacked : field.resolvedPacked s.file = true) (values : List Value) :
    List (Command ρ) :=
  [.packed field.number field.kind (packable_of_resolvedPacked hpacked) values]

/-- A message that is kept as bytes. -/
def writeKept (grows : Bool) (bytes : Bytes) : List (Command ρ) :=
  [.kept grows (keptForm s field) field.number bytes]

/-- A message that is a struct. -/
def writeTyped (message : ρ) : List (Command ρ) :=
  if field.kind.isGroup then
    [.tag field.number .startGroup, .body true message, .tag field.number .endGroup]
  else
    [.tag field.number .lengthDelimited, .varint (size message), .body false message]

/-- An element of a repeated field, or the member of a oneof. -/
def writeElement (struct : Option GeneratedStruct) (grows : Bool) :
    Held (GeneratedStruct → ρ) → List (Command ρ)
  | .value value => writeValue s field value
  | .payload bytes => writeKept s field grows bytes
  | .message message =>
      match struct with
      | none => []
      | some t => writeTyped size field (message t)

/-- `writeMapEntryFieldSizeExpr` of the key. -/
def mapKeySize (key : ScalarType) (value : Value) : Nat :=
  tagWidth 1 key.wireType + payloadSize (.scalar key) value

/-- `writeMapEntryValueFieldSizeExpr`. -/
def mapValueSize (kind : FieldKind) : Held (GeneratedStruct → ρ) → Nat
  | .value value => tagWidth 2 kind.wireType + payloadSize kind value
  | .payload bytes => tagWidth 2 kind.wireType + (encodedVarintSize bytes.length + bytes.length)
  | .message message =>
      match s.typedMapValue field with
      | none => 0
      | some t => 1 + encodedVarintSize (size (message t)) + size (message t)

/-- `writeMapEntryValueWriteCall`. -/
def writeMapValue (kind : FieldKind) : Held (GeneratedStruct → ρ) → List (Command ρ)
  | .value value => [.tag 2 kind.wireType, .payload kind value]
  | .payload bytes => [.kept false .lengthPrefixed 2 bytes]
  | .message message =>
      match s.typedMapValue field with
      | none => []
      | some t =>
          [.tag 2 .lengthDelimited, .varint (size (message t)), .body false (message t)]

def mapValueCheck (kind : FieldKind) : Held (GeneratedStruct → ρ) → List (Command ρ)
  | .value value => utf8Check s field kind value
  | _ => []

/-- `writeEncodeMapEntryBody`. -/
def writeMapEntry (key : ScalarType) (kind : FieldKind)
    (entry : Value × Held (GeneratedStruct → ρ)) : List (Command ρ) :=
  utf8Check s field (.scalar key) entry.1 ++ mapValueCheck s field kind entry.2
    ++ [.tag field.number .lengthDelimited,
        .varint (mapKeySize key entry.1 + mapValueSize size s field kind entry.2),
        .tag 1 key.wireType, .payload (.scalar key) entry.1]
    ++ writeMapValue size s field kind entry.2

/-- A scalar or an enum with one value is written if its flag is set or, without a flag, if it is
not the default. -/
def isWritten (slot : MemberLayer (GeneratedStruct → ρ)) : Bool :=
  if hasPresence s.file field then slot.has else defaultSkipCondition slot.value

/-- `writeEncodeField`. -/
def writeEncodeField (slot : MemberLayer (GeneratedStruct → ρ)) : List (Command ρ) :=
  match field.kind with
  | .map key kind => slot.entries.flatMap (writeMapEntry size s field key kind)
  | .message _ | .group _ =>
      if field.cardinality == .repeated then
        slot.items.flatMap (writeElement size s field (s.typedRepeated field) true)
      else match s.typedSingular field with
        | some t => slot.nested.toList.flatMap (fun message => writeTyped size field (message t))
        | none => if slot.has then writeKept s field true slot.payload else []
  | .scalar _ | .enumeration _ =>
      if field.cardinality == .repeated then
        if hpacked : field.resolvedPacked s.file = true then
          if slot.items.isEmpty then []
          else writePacked s field hpacked (slot.items.filterMap itemValue)
        else slot.items.flatMap (writeElement size s field none true)
      else if isWritten s field slot then writeValue s field slot.value else []

/-- The member of a oneof with the number that is set. -/
def oneofField (oneof : OneofDescriptor) (number : Nat) : Option FieldDescriptor :=
  s.message.fields.find? (fun field =>
    field.number == number && field.oneofName == some oneof.name)

/-- `writeEncodeOneof`. -/
def writeEncodeOneof (layer : Layer (GeneratedStruct → ρ)) (oneof : OneofDescriptor) :
    List (Command ρ) :=
  match layer.oneof oneof.name with
  | none => []
  | some (number, held) =>
      match oneofField s oneof number with
      | none => []
      | some field => writeElement size s field (s.typedOneof field) false held

/-- The writes of an encoder. -/
def writeProgram (layer : Layer (GeneratedStruct → ρ)) : List (Command ρ) :=
  s.ownFields.flatMap (fun field => writeEncodeField size s field (layer.member field.number))
    ++ s.message.oneofs.flatMap (writeEncodeOneof size s layer)
    ++ layer.unknownFields.map .slice

/-! ## Sizes -/

/-- `writeSingleFieldEncodedSizeExpr` and the sizes of typed messages. -/
def elementSize (struct : Option GeneratedStruct) : Held (GeneratedStruct → ρ) → Nat
  | .value value => tagWidth field.number field.kind.wireType + payloadSize field.kind value
  | .payload bytes =>
      if field.kind.isGroup then
        tagWidth field.number .startGroup + tagWidth field.number .endGroup + bytes.length
      else
        tagWidth field.number .lengthDelimited + (encodedVarintSize bytes.length + bytes.length)
  | .message message =>
      match struct with
      | none => 0
      | some t =>
          let payloadLen := size (message t)
          if field.kind.isGroup then
            tagWidth field.number .startGroup + tagWidth field.number .endGroup + payloadLen
          else
            tagWidth field.number .lengthDelimited + encodedVarintSize payloadLen + payloadLen

/-- One turn of `writeEncodedSizeMapField`. -/
def mapEntrySize (key : ScalarType) (kind : FieldKind)
    (entry : Value × Held (GeneratedStruct → ρ)) : Nat :=
  let entryLen := mapKeySize key entry.1 + mapValueSize size s field kind entry.2
  tagWidth field.number .lengthDelimited + encodedVarintSize entryLen + entryLen

/-- `writeEncodedSizeField`. -/
def encodedSizeField (slot : MemberLayer (GeneratedStruct → ρ)) : Nat :=
  match field.kind with
  | .map key kind => (slot.entries.map (mapEntrySize size s field key kind)).sum
  | .message _ | .group _ =>
      if field.cardinality == .repeated then
        (slot.items.map (elementSize size field (s.typedRepeated field))).sum
      else match s.typedSingular field with
        | some t => (slot.nested.toList.map (fun message =>
            elementSize size field (some t) (.message message))).sum
        | none => if slot.has then elementSize size field none (.payload slot.payload) else 0
  | .scalar _ | .enumeration _ =>
      if field.cardinality == .repeated then
        if field.resolvedPacked s.file then
          if slot.items.isEmpty then 0
          else
            let packedLen := packedLength field.kind (slot.items.filterMap itemValue)
            tagWidth field.number .lengthDelimited + encodedVarintSize packedLen + packedLen
        else (slot.items.map (elementSize size field none)).sum
      else if isWritten s field slot then elementSize size field none (.value slot.value) else 0

/-- `writeEncodedSizeOneof`. -/
def encodedSizeOneof (layer : Layer (GeneratedStruct → ρ)) (oneof : OneofDescriptor) : Nat :=
  match layer.oneof oneof.name with
  | none => 0
  | some (number, held) =>
      match oneofField s oneof number with
      | none => 0
      | some field => elementSize size field (s.typedOneof field) held

/-- `writeEncodedSize`. -/
def encodedSizeOf (layer : Layer (GeneratedStruct → ρ)) : Nat :=
  (s.ownFields.map (fun field => encodedSizeField size s field (layer.member field.number))).sum
    + (s.message.oneofs.map (encodedSizeOneof size s layer)).sum
    + (layer.unknownFields.map List.length).sum

end

/-! ## `writeTo` -/

/-- A packed field that is not empty. -/
def packedBytes (number : Nat) (kind : FieldKind) (values : List Value) : Except Error Bytes := do
  let tag ← writeTag number .lengthDelimited
  let payloads ← encodePayloads (encodeScalarPayload kind) values
  return tag ++ writeVarint (packedLength kind values) ++ payloads

def keptBytes (form : KeptForm) (number : Nat) (bytes : Bytes) : Except Error Bytes :=
  match form with
  | .lengthPrefixed => writeMessage number bytes
  | .delimited | .group => writeGroup number (.ok bytes)

/-- What a command appends to a list that may grow. -/
def commandBytes : Command EncodeMethods → Except Error Bytes
  | .check valid => if valid then .ok [] else .error .invalidUtf8
  | .tag number wireType => writeTag number wireType
  | .varint value => .ok (writeVarint value)
  | .slice data => .ok data
  | .payload kind value => encodeScalarPayload kind value
  | .packed number kind _ values => packedBytes number kind values
  | .kept _ form number bytes => keptBytes form number bytes
  | .body _ message => message.writeTo

def programBytes : List (Command EncodeMethods) → Except Error Bytes
  | [] => .ok []
  | command :: rest => do
      let first ← commandBytes command
      let others ← programBytes rest
      return first ++ others

end Codegen

/-! ## `writeToAssumeCapacity` -/

namespace Writer

/-- A writer with these cells as its capacity. -/
def ofCells (cells : Bytes) : Writer := { buffer := .ofCells cells }

def appendSliceAssumeCapacity (data : Bytes) (w : Writer) : Except EncodeFault Writer :=
  (w.buffer.pushAllOr .outOfBounds data).map (fun buffer => { w with buffer })

/-- A list without room for the data gets a new buffer, with some cells more than it needs
(`spare`). -/
def appendSlice (spare : Nat → Nat) (data : Bytes) (w : Writer) : Writer :=
  match w.buffer.pushAll data with
  | some buffer => { w with buffer }
  | none =>
      { buffer :=
          { cells := w.buffer.contents ++ data
              ++ List.replicate (spare (w.buffer.used + data.length)) 0
            used := w.buffer.used + data.length
            fits := by simp only [List.length_append, FilledBuffer.length_contents]; omega }
        moved := true }

end Writer

namespace Codegen

/-- A write that a writer may refuse with an error. -/
def appendResult (append : Bytes → Writer → Except EncodeFault Writer) (data : Except Error Bytes)
    (w : Writer) : Except EncodeFault Writer :=
  match data with
  | .error e => .error (.error e)
  | .ok data => append data w

/-- `writeTagAssumeCapacity`, which takes any number for a field number. -/
def tagAssumeCapacity (number : Nat) (wireType : WireType) (w : Writer) :
    Except EncodeFault Writer :=
  w.appendSliceAssumeCapacity (writeVarint (rawTagValue number wireType))

def keptAssumeCapacity (form : KeptForm) (number : Nat) (bytes : Bytes) (w : Writer) :
    Except EncodeFault Writer :=
  match form with
  | .lengthPrefixed => do
      let w ← tagAssumeCapacity number .lengthDelimited w
      w.appendSliceAssumeCapacity (lengthPrefixed bytes)
  | .delimited | .group => do
      let w ← tagAssumeCapacity number .startGroup w
      let w ← w.appendSliceAssumeCapacity bytes
      tagAssumeCapacity number .endGroup w

section

variable (spare : Nat → Nat)

/-- What a command appends to a list with a capacity. -/
def commandAssumeCapacity (command : Command EncodeMethods) (w : Writer) :
    Except EncodeFault Writer :=
  match command with
  | .check valid => if valid then .ok w else .error (.error .invalidUtf8)
  | .tag number wireType => tagAssumeCapacity number wireType w
  | .varint value => w.appendSliceAssumeCapacity (writeVarint value)
  | .slice data => w.appendSliceAssumeCapacity data
  | .payload kind value =>
      appendResult Writer.appendSliceAssumeCapacity (encodeScalarPayload kind value) w
  | .packed number kind _ values => do
      let w ← tagAssumeCapacity number .lengthDelimited w
      let w ← w.appendSliceAssumeCapacity (writeVarint (packedLength kind values))
      appendResult Writer.appendSliceAssumeCapacity
        (encodePayloads (encodeScalarPayload kind) values) w
  | .kept true form number bytes =>
      appendResult (fun data w => .ok (w.appendSlice spare data)) (keptBytes form number bytes) w
  | .kept false form number bytes => keptAssumeCapacity form number bytes w
  | .body _ message => message.writeToAssumeCapacity w

def programAssumeCapacity : List (Command EncodeMethods) → Writer → Except EncodeFault Writer
  | [], w => .ok w
  | command :: rest, w => commandAssumeCapacity spare command w >>= programAssumeCapacity rest

end

/-! ## `encodeIntoAssumeCapacity` -/

/-- A writer of `wire.zig` that fills a slice. -/
def toSlice (write : FilledBuffer UInt8 → Option (FilledBuffer UInt8)) (b : FilledBuffer UInt8) :
    Except EncodeFault (FilledBuffer UInt8) :=
  match write b with
  | none => .error .outOfBounds
  | some b => .ok b

def copySlice (data : Bytes) (b : FilledBuffer UInt8) : Except EncodeFault (FilledBuffer UInt8) :=
  b.pushAllOr .outOfBounds data

/-- `writeFastDirectTagValue`. -/
def directTag (number : Nat) (wireType : WireType) :
    FilledBuffer UInt8 → Except EncodeFault (FilledBuffer UInt8) :=
  let tag := rawTagValue number wireType
  if tag ≤ 255 then copySlice [UInt8.ofNat tag]
  else toSlice (Wire.writeVarintToSlice (BitVec.ofNat 64 tag))

/-- `writeFastDirectLengthDelimitedPayload`. -/
def directLengthDelimited (data : Bytes) (b : FilledBuffer UInt8) :
    Except EncodeFault (FilledBuffer UInt8) :=
  toSlice (Wire.writeVarintToSlice (BitVec.ofNat 64 data.length)) b >>= copySlice data

/-- `writeFastDirectScalarPayload`, and the payloads of enums. -/
def directPayload (kind : FieldKind) (value : Value) :
    FilledBuffer UInt8 → Except EncodeFault (FilledBuffer UInt8) :=
  match kind, value with
  | .scalar .double, .double v => copySlice (littleBytes 8 v.toNat)
  | .scalar .float, .float v => copySlice (littleBytes 4 v.toNat)
  | .scalar .fixed32, .fixed32 v => copySlice (littleBytes 4 v.toNat)
  | .scalar .fixed64, .fixed64 v => copySlice (littleBytes 8 v.toNat)
  | .scalar .sfixed32, .sfixed32 v => copySlice (littleBytes 4 v.toNat)
  | .scalar .sfixed64, .sfixed64 v => copySlice (littleBytes 8 v.toNat)
  | .scalar .int32, .int32 v => toSlice (Wire.writeDirectScalarVarintToSlice (v.signExtend 64))
  | .scalar .int64, .int64 v => toSlice (Wire.writeDirectScalarVarintToSlice v)
  | .scalar .uint32, .uint32 v => toSlice (Wire.writeDirectScalarVarintToSlice (v.setWidth 64))
  | .scalar .uint64, .uint64 v => toSlice (Wire.writeDirectScalarVarintToSlice v)
  | .scalar .sint32, .sint32 v =>
      toSlice (Wire.writeDirectScalarVarintToSlice ((zigZagEncode32 v).setWidth 64))
  | .scalar .sint64, .sint64 v => toSlice (Wire.writeDirectScalarVarintToSlice (zigZagEncode64 v))
  | .scalar .bool, .boolean v => copySlice [if v then 1 else 0]
  | .scalar .string, .string s | .scalar .bytes, .bytes s => directLengthDelimited s
  | .enumeration _, .enumeration v => toSlice (Wire.writeVarintToSlice (v.signExtend 64))
  | _, _ => fun _ => .error (.error .typeMismatch)

/-- `writeFastDirectPackedScalarPayload`, and the elements of packed enums. -/
def directPackedElement (kind : FieldKind) (value : Value) :
    FilledBuffer UInt8 → Except EncodeFault (FilledBuffer UInt8) :=
  match kind, value with
  | .scalar .int32, .int32 v => toSlice (Wire.writeVarintToSlice (v.signExtend 64))
  | .scalar .int64, .int64 v =>
      if v.toInt < 0 then toSlice (Wire.writeNegativeInt64VarintToSlice v)
      else toSlice (Wire.writeVarintToSlice v)
  | .scalar .uint32, .uint32 v => toSlice (Wire.writeUInt32VarintToSlice v)
  | .scalar .uint64, .uint64 v => toSlice (Wire.writeVarintToSlice v)
  | .scalar .sint32, .sint32 v => toSlice (Wire.writeVarintToSlice ((zigZagEncode32 v).setWidth 64))
  | .scalar .sint64, .sint64 v => toSlice (Wire.writeVarintToSlice (zigZagEncode64 v))
  | kind, value => directPayload kind value

/-- `packed_len_reserved`. -/
def reservedWidth (kind : FieldKind) (values : List Value) : Nat :=
  encodedVarintSize (values.length * maxPackedWidth kind)

/-- `writeFastDirectPackedScalarEncode` and `writeFastDirectPackedEnumEncode`. The elements are
written behind cells that are kept for their length, and moved if it needs fewer of them. -/
def directPacked (number : Nat) (kind : FieldKind) (values : List Value)
    (b : FilledBuffer UInt8) : Except EncodeFault (FilledBuffer UInt8) := do
  let b ← directTag number .lengthDelimited b
  match fixedPackedWidth kind with
  | some width =>
      let b ← toSlice (Wire.writeVarintToSlice (BitVec.ofNat 64 (values.length * width))) b
      FilledBuffer.forEach (directPackedElement kind) values b
  | none =>
      FilledBuffer.lengthFirst .outOfBounds (reservedWidth kind values) encodedVarintSize
        (fun length => toSlice (Wire.writeVarintToSlice (BitVec.ofNat 64 length)))
        (FilledBuffer.forEach (directPackedElement kind) values) b

/-- What a command writes into the cells. The index goes behind as many cells as a message says it
needs. -/
def commandDirect (validate : Bool) (command : Command EncodeMethods) (b : FilledBuffer UInt8) :
    Except EncodeFault (FilledBuffer UInt8) :=
  match command with
  | .check valid => if validate && !valid then .error (.error .invalidUtf8) else .ok b
  | .tag number wireType => directTag number wireType b
  | .varint value => toSlice (Wire.writeVarintToSlice (BitVec.ofNat 64 value)) b
  | .slice data => copySlice data b
  | .payload kind value => directPayload kind value b
  | .packed number kind _ values => directPacked number kind values b
  -- Only the values of maps are kept as bytes in messages that are encoded directly.
  | .kept _ _ number bytes => directTag number .lengthDelimited b >>= directLengthDelimited bytes
  | .body true message =>
      b.onSlice .outOfBounds b.room message.encodedSize
        (message.encodeIntoAssumeCapacity validate)
  | .body false message =>
      b.onSlice .outOfBounds message.encodedSize message.encodedSize
        (message.encodeIntoAssumeCapacity validate)

def programDirect (validate : Bool) (program : List (Command EncodeMethods)) :
    FilledBuffer UInt8 → Except EncodeFault (FilledBuffer UInt8) :=
  FilledBuffer.forEach (commandDirect validate) program

/-- `mapCanFastDirectEncode`, of the kind of the values. -/
def mapCanFastDirectEncode (kind : FieldKind) : Bool := !kind.isGroup && !kind.isMap

/-- The fields that keep a message from being encoded directly: those whose messages are kept as
bytes. -/
def fieldCanFastDirectEncode (s : GeneratedStruct) (field : FieldDescriptor) : Bool :=
  match field.kind with
  | .scalar _ | .enumeration _ => true
  | .message _ | .group _ =>
      if field.oneofName.isSome then (s.typedOneof field).isSome
      else if field.cardinality == .repeated then (s.typedRepeated field).isSome
      else (s.typedSingular field).isSome
  | .map _ kind => mapCanFastDirectEncode kind

/-- The fields that make the direct path worth it. -/
def fieldWantsDirectEncode (s : GeneratedStruct) (field : FieldDescriptor) : Bool :=
  (field.oneofName.isNone && hasPresence s.file field)
    || match field.kind with
      | .scalar .string | .scalar .bytes => true
      | .scalar _ | .enumeration _ =>
          field.cardinality == .repeated && field.resolvedPacked s.file
      | .message _ | .group _ | .map _ _ => true

def messageCanFastDirectEncode (s : GeneratedStruct) : Bool :=
  s.message.fields.all (fieldCanFastDirectEncode s)
    && (s.message.fields.any (fieldWantsDirectEncode s) || !s.message.oneofs.isEmpty
      || s.message.fields.length ≥ 8)

/-! ## The methods -/

/-- The cells of a writer that has not moved. -/
def inPlace (w : Writer) : Except EncodeFault (FilledBuffer UInt8) :=
  if w.moved then .error .moved else .ok w.buffer

/-- The methods that are emitted for a struct, from those of the messages in it. -/
def encodeMethods (spare : Nat → Nat) (layer : Layer (GeneratedStruct → EncodeMethods))
    (s : GeneratedStruct) : EncodeMethods :=
  let program := writeProgram EncodeMethods.encodedSize s layer
  { encodedSize := encodedSizeOf EncodeMethods.encodedSize s layer
    writeTo := programBytes program
    writeToAssumeCapacity := programAssumeCapacity spare program
    encodeIntoAssumeCapacity := fun validate cells =>
      if messageCanFastDirectEncode s then programDirect validate program (.ofCells cells)
      else programAssumeCapacity spare program (.ofCells cells) >>= inPlace }

end Codegen

namespace EmittedMessage

variable (spare : Nat → Nat) (s : GeneratedStruct) (self : EmittedMessage)

/-- The methods of a value; `spare` is how far a list grows beyond what it needs. -/
def methods : EncodeMethods := self.fold (Codegen.encodeMethods spare) s

def encodedSize : Nat := (self.methods spare s).encodedSize

def writeTo : Except Error Bytes := (self.methods spare s).writeTo

/-- The emitted `encode`: the list gets its capacity in advance. -/
def encode : Except EncodeFault Bytes :=
  let size := self.encodedSize spare s
  ((self.methods spare s).writeToAssumeCapacity
    (.ofCells (List.replicate (size + spare size) 0))).map (fun w => w.buffer.contents)

/-- The emitted `encodeInto`: the bytes stand in the front of the buffer. -/
def encodeInto (buffer : Bytes) : Except EncodeFault Bytes :=
  let size := self.encodedSize spare s
  if buffer.length < size then .error .noSpaceLeft
  else
    ((self.methods spare s).writeToAssumeCapacity (.ofCells (buffer.take size))
      >>= Codegen.inPlace).map FilledBuffer.contents

/-- The emitted `encodeIntoAssumeCapacity` and, without `validate`, its form for trusted strings. -/
def encodeIntoAssumeCapacity (validate : Bool) (buffer : Bytes) : Except EncodeFault Bytes :=
  ((self.methods spare s).encodeIntoAssumeCapacity validate buffer).map FilledBuffer.contents

end EmittedMessage

end Pbz
