import Pbz.Dynamic.Store

set_option autoImplicit false

/-! # The dynamic encoder

`DynamicMessage.encodeWithRegistry` and what it calls. A writer is the bytes it appended; the
source's nested writers are the byte strings that `writeMessage` is given.
-/

namespace Pbz

@[simp] theorem ok_bind {α β : Type} (a : α) (f : α → Except Error β) :
    (Except.ok a >>= f) = f a := rfl

@[simp] theorem error_bind {α β : Type} (e : Error) (f : α → Except Error β) :
    ((Except.error e : Except Error α) >>= f) = .error e := rfl

/-! ## Scalars -/

/-- `validateScalarUtf8` -/
def validateScalarUtf8 (file : FileDescriptor) (field : FieldDescriptor) (kind : FieldKind)
    (value : Value) : Except Error Unit :=
  if field.utf8Validation file != .verify then .ok ()
  else match kind, value with
    | .scalar .string, .string s => if utf8ValidateSlice s then .ok () else .error .invalidUtf8
    | _, _ => .ok ()

def encodeScalar (file : FileDescriptor) (field : FieldDescriptor) (number : Nat)
    (scalar : ScalarType) (value : Value) : Except Error Bytes := do
  validateScalarUtf8 file field (.scalar scalar) value
  let tag ← writeTag number scalar.wireType
  let payload ← encodeScalarPayload (.scalar scalar) value
  return tag ++ payload

def encodeEnumeration (number : Nat) (v : BitVec 32) : Except Error Bytes := do
  let tag ← writeTag number .varint
  return tag ++ writeVarintInt32 v

/-! ## Packed fields -/

/-- The payloads of some values, one after the other. -/
def encodePayloads (payload : Value → Except Error Bytes) : List Value → Except Error Bytes
  | [] => .ok []
  | value :: rest => do
      let first ← payload value
      let others ← encodePayloads payload rest
      return first ++ others

/-- The sum of the sizes of some `int32` varints. -/
def packedInt32Length : List Value → Except Error Nat
  | [] => .ok 0
  | .int32 v :: rest => do
      let others ← packedInt32Length rest
      return encodedVarintSize (v.signExtend 64).toNat + others
  | _ :: _ => .error .typeMismatch

def encodePackedInt32 (field : FieldDescriptor) (values : List Value) : Except Error Bytes := do
  let packedLen ← packedInt32Length values
  let tag ← writeTag field.number .lengthDelimited
  let payloads ← encodePayloads (encodeScalarPayload (.scalar .int32)) values
  return tag ++ writeVarint packedLen ++ payloads

def encodePackedFixedWidth (field : FieldDescriptor) (values : List Value) (scalar : ScalarType)
    (width : Nat) : Except Error Bytes := do
  let tag ← writeTag field.number .lengthDelimited
  let payloads ← encodePayloads (encodeScalarPayload (.scalar scalar)) values
  return tag ++ writeVarint (values.length * width) ++ payloads

def encodeScalarPayloadWithValidation (file : FileDescriptor) (field : FieldDescriptor)
    (kind : FieldKind) (value : Value) : Except Error Bytes := do
  validateScalarUtf8 file field kind value
  encodeScalarPayload kind value

def encodePackedWithRegistry (registry : Option Registry) (file : FileDescriptor)
    (current : MessageDescriptor) (field : FieldDescriptor) (values : List Value) :
    Except Error Bytes :=
  let fieldFile := fieldDefiningFile file registry field
  let general (kind : FieldKind) : Except Error Bytes := do
    let payloads ← encodePayloads (encodeScalarPayloadWithValidation fieldFile field kind) values
    writeBytes field.number payloads
  match scalarLikeKindForEncoding file registry current field.kind with
  | .scalar scalar =>
      if scalar = .int32 then encodePackedInt32 field values
      else match fixedWidthPackedScalarSize scalar with
        | some width => encodePackedFixedWidth field values scalar width
        | none => general (.scalar scalar)
  | kind => general kind

/-! ## Defaults that are not written -/

def isDefaultSingularValue (field : FieldDescriptor) (value : Value) : Bool :=
  if field.defaultValue.isSome then false
  else match field.kind, value with
    | .scalar .double, .double v => v == 0
    | .scalar .float, .float v => v == 0
    | .scalar .int32, .int32 v => v == 0
    | .scalar .int64, .int64 v => v == 0
    | .scalar .uint32, .uint32 v => v == 0
    | .scalar .uint64, .uint64 v => v == 0
    | .scalar .sint32, .sint32 v => v == 0
    | .scalar .sint64, .sint64 v => v == 0
    | .scalar .fixed32, .fixed32 v => v == 0
    | .scalar .fixed64, .fixed64 v => v == 0
    | .scalar .sfixed32, .sfixed32 v => v == 0
    | .scalar .sfixed64, .sfixed64 v => v == 0
    | .scalar .bool, .boolean v => !v
    | .scalar .string, .string v => v.isEmpty
    | .scalar .bytes, .bytes v => v.isEmpty
    | .enumeration _, .enumeration v => v == 0
    | _, _ => false

def isDefaultSingularValueForEncoding (file : FileDescriptor) (registry : Option Registry)
    (current : MessageDescriptor) (field : FieldDescriptor) (value : Value) : Bool :=
  if field.defaultValue.isSome then false
  else match fieldKindIsRegistryEnum (fieldDefiningFile file registry field) registry current
      field.kind with
    | none => isDefaultSingularValue field value
    | some _ =>
        match value with
        | .enumeration v => v == 0
        | _ => false

/-- An entry that `encodeWithRegistry` passes over: a singular field without presence that holds
its default. -/
def skipsDefault (file : FileDescriptor) (registry : Option Registry)
    (current : MessageDescriptor) (field : FieldDescriptor) (values : List Value) : Bool :=
  !field.isRepeatedLike && !fieldHasPresenceForEncoding file registry current field
    && match values with
      | [value] => isDefaultSingularValueForEncoding file registry current field value
      | _ => false

def validateFieldTargetsMessage (file : FileDescriptor) (registry : Option Registry)
    (current : MessageDescriptor) (field : FieldDescriptor) : Except Error Unit :=
  if field.extendee.isNone then .ok ()
  else if extensionFieldTargetsMessage file registry current field then .ok ()
  else .error .typeMismatch

/-! ## Message sets -/

def writeMessageSetItem (typeId : Nat) (payload : Bytes) : Except Error Bytes := do
  let start ← writeTag 1 .startGroup
  let idTag ← writeTag 2 .varint
  let message ← writeMessage 3 payload
  let stop ← writeTag 1 .endGroup
  return start ++ idTag ++ writeVarint typeId ++ message ++ stop

/-- A length-delimited unknown field becomes an item again, any other is written as it is. -/
def encodeUnknownMessageSetField (unknown : UnknownField) : Except Error Bytes :=
  if unknown.wireType = .lengthDelimited then
    match nextTag unknown.data with
    | .error e => .error e
    | .ok none => .ok unknown.data
    | .ok (some (tag, rest)) =>
        if tag.number = unknown.number ∧ tag.wireType = .lengthDelimited then
          match readBytes rest with
          | .error e => .error e
          | .ok (payload, rest) =>
              if rest.isEmpty then writeMessageSetItem unknown.number payload
              else .ok unknown.data
        else .ok unknown.data
  else .ok unknown.data

def encodeUnknownMessageSetFields : List UnknownField → Except Error Bytes
  | [] => .ok []
  | unknown :: rest => do
      let first ← encodeUnknownMessageSetField unknown
      let others ← encodeUnknownMessageSetFields rest
      return first ++ others

def messageSetEntryAllowed (file : FileDescriptor) (registry : Option Registry)
    (host : MessageDescriptor) (field : FieldDescriptor) : Bool :=
  field.kind.isMessage && field.extendee.isSome && field.cardinality != .repeated
    && field.cardinality != .required && extensionFieldTargetsMessage file registry host field

/-! ## Messages -/

/-- A message between its group tags. -/
def writeGroup (number : Nat) (message : Except Error Bytes) : Except Error Bytes := do
  let start ← writeTag number .startGroup
  let body ← message
  let stop ← writeTag number .endGroup
  return start ++ body ++ stop

mutual

def DynamicMessage.encodeWithRegistry (registry : Option Registry) (file : FileDescriptor) :
    DynamicMessage → Except Error Bytes
  | { descriptor, fields, unknownFields } =>
      if descriptor.messageSetWireFormat then do
        let entries ← encodeMessageSetEntries registry file descriptor fields
        let unknown ← encodeUnknownMessageSetFields unknownFields
        return entries ++ unknown
      else do
        let entries ← encodeEntries registry file descriptor fields
        return entries ++ unknownFields.flatMap UnknownField.data
termination_by structural x => x

def encodeEntries (registry : Option Registry) (file : FileDescriptor)
    (current : MessageDescriptor) : List FieldValue → Except Error Bytes
  | [] => .ok []
  | entry :: rest => do
      let first ← encodeEntry registry file current entry
      let others ← encodeEntries registry file current rest
      return first ++ others
termination_by structural x => x

def encodeEntry (registry : Option Registry) (file : FileDescriptor)
    (current : MessageDescriptor) : FieldValue → Except Error Bytes
  | { descriptor := field, values } =>
      if values.isEmpty then .ok []
      else do
        validateFieldTargetsMessage file registry current field
        if skipsDefault file registry current field values then return []
        else if resolvedPackedForEncoding file registry current field then
          encodePackedWithRegistry registry file current field values
        else encodeValues registry file current field values
termination_by structural x => x

def encodeValues (registry : Option Registry) (file : FileDescriptor)
    (current : MessageDescriptor) (field : FieldDescriptor) : List Value → Except Error Bytes
  | [] => .ok []
  | value :: rest => do
      let first ← encodeField registry file current field value
      let others ← encodeValues registry file current field rest
      return first ++ others
termination_by structural x => x

def encodeField (registry : Option Registry) (file : FileDescriptor)
    (current : MessageDescriptor) (field : FieldDescriptor) (value : Value) :
    Except Error Bytes :=
  let fieldFile := fieldDefiningFile file registry field
  match field.kind, value with
  | .scalar scalar, value => encodeScalar fieldFile field field.number scalar value
  | .enumeration _, .enumeration v => encodeEnumeration field.number v
  | .message name, .enumeration v =>
      if (registryEnumDescriptor fieldFile registry current (.message name)).isNone then
        .error .typeMismatch
      else encodeEnumeration field.number v
  | .message name, .message message =>
      if (registryEnumDescriptor fieldFile registry current (.message name)).isSome then
        .error .typeMismatch
      else
        let messageFile := messageDefiningFile fieldFile registry message.descriptor
        let body := message.encodeWithRegistry registry messageFile
        if field.messageEncoding fieldFile = .delimited then writeGroup field.number body
        else body >>= writeMessage field.number
  | .group _, .group message =>
      let messageFile := messageDefiningFile fieldFile registry message.descriptor
      writeGroup field.number (message.encodeWithRegistry registry messageFile)
  | .map key valueKind, .mapEntry k v => do
      let keyBytes ← encodeMapElement registry file current field 1 (.scalar key) k
      let valueBytes ← encodeMapElement registry file current field 2 valueKind v
      writeMessage field.number (keyBytes ++ valueBytes)
  | _, _ => .error .typeMismatch
termination_by structural value

def encodeMapElement (registry : Option Registry) (file : FileDescriptor)
    (current : MessageDescriptor) (field : FieldDescriptor) (number : Nat) (kind : FieldKind)
    (value : Value) : Except Error Bytes :=
  match kind, value with
  | .scalar scalar, value => encodeScalar file field number scalar value
  | .enumeration _, .enumeration v => encodeEnumeration number v
  | .message name, .enumeration v =>
      if (registryEnumDescriptor file registry current (.message name)).isNone then
        .error .typeMismatch
      else encodeEnumeration number v
  | .message name, .message message =>
      if (registryEnumDescriptor file registry current (.message name)).isSome then
        .error .typeMismatch
      else
        let messageFile := messageDefiningFile file registry message.descriptor
        message.encodeWithRegistry registry messageFile >>= writeMessage number
  | _, _ => .error .typeMismatch
termination_by structural value

def encodeMessageSetEntries (registry : Option Registry) (file : FileDescriptor)
    (host : MessageDescriptor) : List FieldValue → Except Error Bytes
  | [] => .ok []
  | entry :: rest => do
      let first ← encodeMessageSetEntry registry file host entry
      let others ← encodeMessageSetEntries registry file host rest
      return first ++ others
termination_by structural x => x

def encodeMessageSetEntry (registry : Option Registry) (file : FileDescriptor)
    (host : MessageDescriptor) : FieldValue → Except Error Bytes
  | { descriptor := field, values } =>
      if messageSetEntryAllowed file registry host field then
        encodeMessageSetValues registry file field values
      else .error .typeMismatch
termination_by structural x => x

def encodeMessageSetValues (registry : Option Registry) (file : FileDescriptor)
    (field : FieldDescriptor) : List Value → Except Error Bytes
  | [] => .ok []
  | value :: rest => do
      let first ← encodeMessageSetValue registry file field value
      let others ← encodeMessageSetValues registry file field rest
      return first ++ others
termination_by structural x => x

def encodeMessageSetValue (registry : Option Registry) (file : FileDescriptor)
    (field : FieldDescriptor) : Value → Except Error Bytes
  | .message message => do
      let messageFile := messageDefiningFile file registry message.descriptor
      let payload ← message.encodeWithRegistry registry messageFile
      writeMessageSetItem field.number payload
  | _ => .error .typeMismatch
termination_by structural x => x

end

def DynamicMessage.encode (file : FileDescriptor) (self : DynamicMessage) : Except Error Bytes :=
  self.encodeWithRegistry none file

/-- What `encodedWithRegistry` hands out. -/
def DynamicMessage.encodedWithRegistry (self : DynamicMessage) (file : FileDescriptor)
    (registry : Option Registry) : Except Error Bytes :=
  self.encodeWithRegistry registry file

end Pbz
