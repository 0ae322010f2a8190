import Pbz.Dynamic.Reading
import Pbz.Dynamic.Dedup

set_option autoImplicit false

/-! # Well-typed messages

A message is well typed for a file, without a registry, when its entries hold values of their
fields' kinds and its type names resolve to the descriptors of the values. The predicate counts
levels as the decoder does: a nested message or group takes one, a message that is the value of a
map entry two.

`DynamicMessage.prune` is a message without the entries that the encoder passes over.
-/

namespace Pbz

/-! ## Values -/

/-- A scalar of the field's type; a string is valid UTF-8 if the field's strings are verified. -/
structure ScalarTyped (file : FileDescriptor) (field : FieldDescriptor) (scalar : ScalarType)
    (value : Value) : Prop where
  hasType : value.hasScalarType scalar = true
  verified : ∀ s, value = .string s → field.utf8Validation file = .verify →
    utf8ValidateSlice s = true

/-- A number of the enum that the kind names, a declared one if the enum is closed. -/
def EnumTyped (file : FileDescriptor) (current : MessageDescriptor) (kind : FieldKind)
    (v : BitVec 32) : Prop :=
  ∃ enumeration, registryEnumDescriptor file none current kind = some enumeration
    ∧ (enumIsClosed file none enumeration = true → enumHasNumber enumeration v = true)

/-- The name resolves to the message's own descriptor, and to no enum. -/
structure ReferenceTyped (file : FileDescriptor) (current : MessageDescriptor) (name : Bytes)
    (message : DynamicMessage) : Prop where
  noEnum : registryEnumDescriptor file none current (.message name) = none
  resolves : resolveMessageDescriptor file current name = some message.descriptor

/-- A value of a scalar, enum or message kind; `nested` is the demand on messages one level
down. -/
def ElementTyped (nested : DynamicMessage → Prop) (file : FileDescriptor)
    (current : MessageDescriptor) (field : FieldDescriptor) : FieldKind → Value → Prop
  | .scalar scalar, value => ScalarTyped file field scalar value
  | .enumeration name, .enumeration v => EnumTyped file current (.enumeration name) v
  | .message name, .enumeration v => EnumTyped file current (.message name) v
  | .message name, .message message =>
      ReferenceTyped file current name message ∧ nested message
  | _, _ => False

/-- A key and a value of a map entry. -/
def MapElementsTyped (nested : DynamicMessage → Prop) (file : FileDescriptor)
    (current : MessageDescriptor) (field : FieldDescriptor) (keyType : ScalarType)
    (valueKind : FieldKind) (key value : Value) : Prop :=
  ScalarTyped file field keyType key ∧ ElementTyped nested file current field valueKind value

/-- The demand on the key and the value of a map entry. -/
abbrev EntryDemand :=
  MessageDescriptor → FieldDescriptor → ScalarType → FieldKind → Value → Value → Prop

/-- A value of the field's kind. -/
def ValueTyped (nested : DynamicMessage → Prop) (nestedEntry : EntryDemand)
    (file : FileDescriptor) (current : MessageDescriptor) (field : FieldDescriptor)
    (value : Value) : Prop :=
  match field.kind, value with
  | .group name, .group message =>
      resolveMessageDescriptor file current name = some message.descriptor ∧ nested message
  | .map keyType valueKind, .mapEntry k v => nestedEntry current field keyType valueKind k v
  | kind, value => ElementTyped nested file current field kind value

/-! ## Messages -/

/-- Two entries that are not both members of one oneof, unless one of them is empty. -/
def OneMember (a b : FieldValue) : Prop :=
  a.values ≠ [] → b.values ≠ [] → ∀ name,
    a.descriptor.oneofName = some name → b.descriptor.oneofName ≠ some name

/-- What the schema checks guarantee of a message type: the field numbers are different and fit a
tag, and a message set has no fields of its own. -/
structure MessageDescriptor.Valid (descriptor : MessageDescriptor) : Prop where
  unique : (descriptor.fields.map FieldDescriptor.number).Nodup
  numbers : ∀ field ∈ descriptor.fields, ValidNumber field.number
  messageSet : descriptor.messageSetWireFormat = true → descriptor.fields = []

/-- An entry for a field of the message type, not for an extension. -/
structure EntryTyped (nested : DynamicMessage → Prop) (nestedEntry : EntryDemand)
    (file : FileDescriptor) (current : MessageDescriptor) (entry : FieldValue) : Prop where
  declared : entry.descriptor ∈ current.fields
  noExtension : entry.descriptor.extendee = none
  typed : ∀ value ∈ entry.values,
    ValueTyped nested nestedEntry file current entry.descriptor value
  singular : entry.descriptor.isRepeatedLike = false → entry.values.length ≤ 1
  keys : DistinctKeys entry.values

structure MessageTyped (nested : DynamicMessage → Prop) (nestedEntry : EntryDemand)
    (file : FileDescriptor) (message : DynamicMessage) : Prop where
  valid : message.descriptor.Valid
  entries : ∀ entry ∈ message.fields,
    EntryTyped nested nestedEntry file message.descriptor entry
  unique : (message.fields.map (fun entry => entry.descriptor.number)).Nodup
  oneofs : message.fields.Pairwise OneMember
  unknown : message.unknownFields = []

mutual

/-- Well typed for a reader that still has to descend: false where no level is left. -/
def NestedTyped (file : FileDescriptor) : Nat → DynamicMessage → Prop
  | 0 => fun _ => False
  | levels + 1 => MessageTyped (NestedTyped file levels) (NestedEntryTyped file levels) file

def NestedEntryTyped (file : FileDescriptor) : Nat → EntryDemand
  | 0 => fun _ _ _ _ _ _ => False
  | levels + 1 => MapElementsTyped (NestedTyped file levels) file

end

/-- Well typed, and nested no deeper than `levels`. -/
def WellTyped (file : FileDescriptor) (levels : Nat) (message : DynamicMessage) : Prop :=
  MessageTyped (NestedTyped file levels) (NestedEntryTyped file levels) file message

/-! ## What the encoder passes over -/

mutual

/-- The message without its empty entries and without the singular fields that hold their default
and have no presence, at every level. -/
def DynamicMessage.prune (file : FileDescriptor) : DynamicMessage → DynamicMessage
  | { descriptor, fields, unknownFields } =>
      { descriptor, fields := pruneEntries file descriptor fields, unknownFields }
termination_by structural x => x

def pruneEntries (file : FileDescriptor) (current : MessageDescriptor) :
    List FieldValue → List FieldValue
  | [] => []
  | entry :: rest => pruneEntry file current entry ++ pruneEntries file current rest
termination_by structural x => x

def pruneEntry (file : FileDescriptor) (current : MessageDescriptor) :
    FieldValue → List FieldValue
  | { descriptor, values } =>
      if values.isEmpty || skipsDefault file none current descriptor values then []
      else [{ descriptor, values := pruneValues file values }]
termination_by structural x => x

def pruneValues (file : FileDescriptor) : List Value → List Value
  | [] => []
  | value :: rest => value.prune file :: pruneValues file rest
termination_by structural x => x

def Value.prune (file : FileDescriptor) : Value → Value
  | .message message => .message (message.prune file)
  | .group message => .group (message.prune file)
  | .mapEntry key value => .mapEntry key (value.prune file)
  | value => value
termination_by structural x => x

end

@[simp] theorem prune_descriptor (file : FileDescriptor) (message : DynamicMessage) :
    (message.prune file).descriptor = message.descriptor := by
  cases message
  rfl

theorem pruneValues_eq_map (file : FileDescriptor) (values : List Value) :
    pruneValues file values = values.map (Value.prune file) := by
  induction values with
  | nil => rfl
  | cons value rest ih => rw [pruneValues, ih, List.map_cons]

theorem prune_of_scalar {file : FileDescriptor} {value : Value} {scalar : ScalarType}
    (h : value.hasScalarType scalar = true) : value.prune file = value := by
  cases value <;> first | rfl | (cases scalar <;> simp [Value.hasScalarType] at h)

/-! ## With a registry

The same with a registry: entries may belong to extensions, message sets hold extension messages,
and unknown fields are those that the decoder keeps as unknown again. A nested message is looked at
in the file it is defined in. -/

/-- The demand on a nested message, by the file that defines it. -/
abbrev MessageDemand := FileDescriptor → DynamicMessage → Prop

/-- The demand on a map entry of a message of the file. -/
abbrev FileEntryDemand := FileDescriptor → EntryDemand

/-- The file in which the types of a field's values are looked up. -/
def elementFile (registry : Option Registry) (file : FileDescriptor)
    (current : MessageDescriptor) (field : FieldDescriptor) : FileDescriptor :=
  if current.messageSetWireFormat || field.kind.isMap then file
  else fieldDefiningFile file registry field

@[simp] theorem elementFile_none (file : FileDescriptor) (current : MessageDescriptor)
    (field : FieldDescriptor) : elementFile none file current field = file := by
  simp [elementFile]

/-- In a message set a length-delimited unknown field is written as an item and kept in the
shortest form; any other unknown field stays as it is. -/
def UnknownField.settled (descriptor : MessageDescriptor) (unknown : UnknownField) :
    UnknownField :=
  if descriptor.messageSetWireFormat = true ∧ unknown.wireType = .lengthDelimited then
    match nextTag unknown.data with
    | .ok (some (tag, rest)) =>
        if tag.number = unknown.number ∧ tag.wireType = .lengthDelimited then
          match readBytes rest with
          | .ok (payload, []) =>
              { unknown with
                data := writeVarint (unknown.number * 8 + WireType.lengthDelimited.toNat)
                  ++ lengthPrefixed payload }
          | _ => unknown
        else unknown
    | _ => unknown
  else unknown

/-- What the encoder writes for an unknown field. -/
def encodeUnknownField (descriptor : MessageDescriptor) (unknown : UnknownField) :
    Except Error Bytes :=
  if descriptor.messageSetWireFormat then encodeUnknownMessageSetField unknown
  else .ok unknown.data

section

variable (registry : Option Registry)

/-- What is written for the unknown field is read as one unknown field again. -/
def UnknownTyped (levels : Nat) (file : FileDescriptor) (descriptor : MessageDescriptor)
    (unknown : UnknownField) : Prop :=
  ∃ bytes, encodeUnknownField descriptor unknown = .ok bytes
    ∧ ∀ endGroup rest, readFieldAt registry levels file endGroup descriptor (bytes ++ rest)
      = { actions := [.unknown [unknown.settled descriptor]], ending := .next rest }

def EnumTypedWith (file : FileDescriptor) (current : MessageDescriptor) (kind : FieldKind)
    (v : BitVec 32) : Prop :=
  ∃ enumeration, registryEnumDescriptor file registry current kind = some enumeration
    ∧ (enumIsClosed file registry enumeration = true → enumHasNumber enumeration v = true)

structure ReferenceTypedWith (file : FileDescriptor) (current : MessageDescriptor)
    (name : Bytes) (message : DynamicMessage) : Prop where
  noEnum : registryEnumDescriptor file registry current (.message name) = none
  resolves : resolveMessageDescriptorWithRegistry file registry current name
    = some message.descriptor

def ElementTypedWith (nested : MessageDemand) (file : FileDescriptor)
    (current : MessageDescriptor) (field : FieldDescriptor) : FieldKind → Value → Prop
  | .scalar scalar, value => ScalarTyped file field scalar value
  | .enumeration name, .enumeration v => EnumTypedWith registry file current (.enumeration name) v
  | .message name, .enumeration v => EnumTypedWith registry file current (.message name) v
  | .message name, .message message =>
      ReferenceTypedWith registry file current name message
        ∧ nested (messageDefiningFile file registry message.descriptor) message
  | _, _ => False

def MapElementsTypedWith (nested : MessageDemand) (file : FileDescriptor)
    (current : MessageDescriptor) (field : FieldDescriptor) (keyType : ScalarType)
    (valueKind : FieldKind) (key value : Value) : Prop :=
  ScalarTyped file field keyType key
    ∧ ElementTypedWith registry nested file current field valueKind value

/-- A group: its name resolves to its descriptor, and the encoder, which starts from the file of
the field, and the decoder, which starts from the file of the message, find one file for it. -/
structure GroupTypedWith (nested : MessageDemand) (file : FileDescriptor)
    (current : MessageDescriptor) (field : FieldDescriptor) (name : Bytes)
    (message : DynamicMessage) : Prop where
  resolves : resolveMessageDescriptorWithRegistry file registry current name
    = some message.descriptor
  oneFile : messageDefiningFile (fieldDefiningFile file registry field) registry
      message.descriptor
    = messageDefiningFile file registry message.descriptor
  nested : nested (messageDefiningFile file registry message.descriptor) message

def ValueTypedWith (nested : MessageDemand) (nestedEntry : FileEntryDemand)
    (file : FileDescriptor) (current : MessageDescriptor) (field : FieldDescriptor)
    (value : Value) : Prop :=
  match field.kind, value with
  | .group name, .group message =>
      GroupTypedWith registry nested file current field name message
  | .map keyType valueKind, .mapEntry k v =>
      nestedEntry file current field keyType valueKind k v
  | kind, value =>
      ElementTypedWith registry nested (fieldDefiningFile file registry field) current field kind
        value

/-- An entry for a field that the schema has under its number: a field of the message type or an
extension of it that the registry knows. -/
structure EntryTypedWith (nested : MessageDemand) (nestedEntry : FileEntryDemand)
    (file : FileDescriptor) (current : MessageDescriptor) (entry : FieldValue) : Prop where
  found : fieldForNumber registry current entry.descriptor.number = some entry.descriptor
  number : ValidNumber entry.descriptor.number
  targets : validateFieldTargetsMessage file registry current entry.descriptor = .ok ()
  packs : resolvedPackedForEncoding file registry current entry.descriptor = true →
    scalarLikeKindForEncoding file registry current entry.descriptor.kind
      = scalarLikeKindForEncoding (fieldDefiningFile file registry entry.descriptor) registry
          current entry.descriptor.kind
  typed : ∀ value ∈ entry.values,
    ValueTypedWith registry nested nestedEntry file current entry.descriptor value
  singular : entry.descriptor.isRepeatedLike = false → entry.values.length ≤ 1
  keys : DistinctKeys entry.values

/-- An entry of a message set: a message of an extension that the registry knows. -/
structure ItemTypedWith (nestedItem : MessageDemand) (file : FileDescriptor)
    (host : MessageDescriptor) (entry : FieldValue) : Prop where
  found : registryExtension registry host entry.descriptor.number = some entry.descriptor
  number : ValidNumber entry.descriptor.number
  allowed : messageSetEntryAllowed file registry host entry.descriptor = true
  typed : ∀ value ∈ entry.values, ∃ name message, entry.descriptor.kind = .message name
    ∧ value = .message message
    ∧ resolveMessageDescriptorWithRegistry file registry host name = some message.descriptor
    ∧ nestedItem (messageDefiningFile file registry message.descriptor) message
  singular : entry.values.length ≤ 1

structure MessageTypedWith (levels : Nat) (nested : MessageDemand)
    (nestedEntry : FileEntryDemand) (nestedItem : MessageDemand) (file : FileDescriptor)
    (message : DynamicMessage) : Prop where
  entries : message.descriptor.messageSetWireFormat = false → ∀ entry ∈ message.fields,
    EntryTypedWith registry nested nestedEntry file message.descriptor entry
  items : message.descriptor.messageSetWireFormat = true → ∀ entry ∈ message.fields,
    ItemTypedWith registry nestedItem file message.descriptor entry
  unique : (message.fields.map (fun entry => entry.descriptor.number)).Nodup
  oneofs : message.fields.Pairwise OneMember
  unknown : ∀ unknown ∈ message.unknownFields,
    UnknownTyped registry levels file message.descriptor unknown

mutual

def NestedTypedWith : Nat → MessageDemand
  | 0 => fun _ _ => False
  | levels + 1 =>
      MessageTypedWith registry levels (NestedTypedWith levels) (NestedEntryTypedWith levels)
        (NestedItemTypedWith levels)

def NestedEntryTypedWith : Nat → FileEntryDemand
  | 0 => fun _ _ _ _ _ _ _ => False
  | levels + 1 => MapElementsTypedWith registry (NestedTypedWith levels)

/-- An item of a message set takes a level of its own. -/
def NestedItemTypedWith : Nat → MessageDemand
  | 0 => fun _ _ => False
  | levels + 1 => NestedTypedWith levels

end

/-- Well typed with a registry, and nested no deeper than `levels`. -/
def WellTypedWith (file : FileDescriptor) (levels : Nat) (message : DynamicMessage) : Prop :=
  MessageTypedWith registry levels (NestedTypedWith registry levels)
    (NestedEntryTypedWith registry levels) (NestedItemTypedWith registry levels) file message

mutual

/-- `DynamicMessage.prune` with a registry: what the encoder passes over is left out, and the
unknown fields have the form in which the decoder keeps them. -/
def DynamicMessage.pruneWith (file : FileDescriptor) : DynamicMessage → DynamicMessage
  | { descriptor, fields, unknownFields } =>
      { descriptor, fields := pruneEntriesWith file descriptor fields,
        unknownFields := unknownFields.map (UnknownField.settled descriptor) }
termination_by structural x => x

def pruneEntriesWith (file : FileDescriptor) (current : MessageDescriptor) :
    List FieldValue → List FieldValue
  | [] => []
  | entry :: rest => pruneEntryWith file current entry ++ pruneEntriesWith file current rest
termination_by structural x => x

def pruneEntryWith (file : FileDescriptor) (current : MessageDescriptor) :
    FieldValue → List FieldValue
  | { descriptor, values } =>
      if values.isEmpty || skipsDefault file registry current descriptor values then []
      else
        [{ descriptor,
           values := pruneValuesWith (elementFile registry file current descriptor) values }]
termination_by structural x => x

def pruneValuesWith (file : FileDescriptor) : List Value → List Value
  | [] => []
  | value :: rest => value.pruneWith file :: pruneValuesWith file rest
termination_by structural x => x

def Value.pruneWith (file : FileDescriptor) : Value → Value
  | .message message =>
      .message (message.pruneWith (messageDefiningFile file registry message.descriptor))
  | .group message =>
      .group (message.pruneWith (messageDefiningFile file registry message.descriptor))
  | .mapEntry key value => .mapEntry key (value.pruneWith file)
  | value => value
termination_by structural x => x

end

variable {registry}

@[simp] theorem pruneWith_descriptor (file : FileDescriptor) (message : DynamicMessage) :
    (message.pruneWith registry file).descriptor = message.descriptor := by
  cases message
  rfl

theorem pruneValuesWith_eq_map (file : FileDescriptor) (values : List Value) :
    pruneValuesWith registry file values = values.map (Value.pruneWith registry file) := by
  induction values with
  | nil => rfl
  | cons value rest ih => rw [pruneValuesWith, ih, List.map_cons]

theorem pruneWith_of_scalar {file : FileDescriptor} {value : Value} {scalar : ScalarType}
    (h : value.hasScalarType scalar = true) : value.pruneWith registry file = value := by
  cases value <;> first | rfl | (cases scalar <;> simp [Value.hasScalarType] at h)

end

end Pbz
