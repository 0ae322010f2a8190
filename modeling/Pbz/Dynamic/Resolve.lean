import Pbz.Registry

set_option autoImplicit false

/-! # Type names of a dynamic message

How `dynamic.zig` finds the descriptor that a type name in a field stands for, and the facts about
a field that depend on it.
-/

namespace Pbz

/-! ## Messages -/

def resolveMessageDescriptor (file : FileDescriptor) (current : MessageDescriptor)
    (name : Bytes) : Option MessageDescriptor :=
  let trimmed := normalizeName name
  let leaf := afterLastDot trimmed
  if current.name == trimmed || current.name == leaf then some current
  else match current.findMessageDeep trimmed with
    | some message => some message
    | none => file.findMessageDeep trimmed

/-- `bufPrint` into a buffer of `scopeBufferSize` bytes. -/
def fitsBuffer (text : Bytes) : Option Bytes :=
  if text.length ≤ scopeBufferSize then some text else none

def formatMessageScope (package path : Bytes) : Option Bytes :=
  if package.isEmpty then fitsBuffer path else fitsBuffer (package ++ 0x2e :: path)

mutual

/-- `messageScopeInMessage` over the nested messages of a message. A path that does not fit its
buffer ends the search in this message, as the source returns null then. -/
def messageScopeInList (package path : Bytes) (target : Nat) :
    List MessageDescriptor → Option Bytes
  | [] => none
  | nested :: rest =>
      match fitsBuffer (path ++ 0x2e :: nested.name) with
      | none => none
      | some nestedPath =>
          if nested.address == target then formatMessageScope package nestedPath
          else match messageScopeInMessage package nestedPath target nested with
            | some found => some found
            | none => messageScopeInList package path target rest

def messageScopeInMessage (package path : Bytes) (target : Nat) :
    MessageDescriptor → Option Bytes
  | { messages, .. } => messageScopeInList package path target messages

end

/-- `messageScope` over the top-level messages of a file. -/
def messageScopeIn (package : Bytes) (target : Nat) : List MessageDescriptor → Option Bytes
  | [] => none
  | message :: rest =>
      if message.address == target then formatMessageScope package message.name
      else match messageScopeInMessage package message.name target message with
        | some path => some path
        | none => messageScopeIn package target rest

def messageScope (file : FileDescriptor) (current : MessageDescriptor) : Option Bytes :=
  messageScopeIn file.package current.address file.messages

/-- The scope from which a registry is searched for the type names of a message. -/
def lookupScope (file : FileDescriptor) (current : MessageDescriptor) : Option Bytes :=
  (messageScope file current).or (packageScope file)

def resolveMessageDescriptorWithRegistry (file : FileDescriptor) (registry : Option Registry)
    (current : MessageDescriptor) (name : Bytes) : Option MessageDescriptor :=
  match registry with
  | none => resolveMessageDescriptor file current name
  | some registry =>
      let scope := lookupScope file current
      let undotted := if name.contains 0x2e then none
        else resolveMessageDescriptor file current name
      (((undotted.or (registry.findMessageVisible file name scope)).or
        (registry.findMessage name scope)).or (resolveMessageDescriptor file current name))

/-! ## Enums -/

/-- The type name of a kind that may stand for an enum: the parser stores references to enums as
message kinds. -/
def FieldKind.enumName : FieldKind → Option Bytes
  | .enumeration name | .message name => some name
  | _ => none

def findEnumNearby (file : FileDescriptor) (current : MessageDescriptor) (name : Bytes) :
    Option EnumDescriptor :=
  (current.findEnumDeep name).or (file.findEnumDeep name)

def registryEnumDescriptor (file : FileDescriptor) (registry : Option Registry)
    (current : MessageDescriptor) (kind : FieldKind) : Option EnumDescriptor :=
  match kind.enumName with
  | none => none
  | some enumName =>
      match registry with
      | none => findEnumNearby file current enumName
      | some registry =>
          let scope := lookupScope file current
          let undotted := if enumName.contains 0x2e then none
            else findEnumNearby file current enumName
          (((undotted.or (registry.findEnumVisible file enumName scope)).or
            (registry.findEnum enumName scope)).or (findEnumNearby file current enumName))

def enumHasNumber (enumeration : EnumDescriptor) (number : BitVec 32) : Bool :=
  enumeration.values.any (fun value => value.number == number)

def enumIsClosed (file : FileDescriptor) (registry : Option Registry)
    (enumeration : EnumDescriptor) : Bool :=
  match enumeration.features with
  | some features => features.enumType == .closed
  | none => (enumDefiningFile file registry enumeration).features.enumType == .closed

def closedEnumDescriptor (file : FileDescriptor) (registry : Option Registry)
    (current : MessageDescriptor) (kind : FieldKind) : Option EnumDescriptor :=
  match registryEnumDescriptor file registry current kind with
  | none => none
  | some enumeration => if enumIsClosed file registry enumeration then some enumeration else none

/-! ## What a field encodes as -/

section

variable (file : FileDescriptor) (registry : Option Registry) (current : MessageDescriptor)

/-- `fieldKindIsRegistryEnum` -/
def fieldKindIsRegistryEnum (kind : FieldKind) : Option Bytes :=
  if (registryEnumDescriptor file registry current kind).isSome then kind.enumName else none

def scalarLikeKindForEncoding (kind : FieldKind) : FieldKind :=
  match fieldKindIsRegistryEnum file registry current kind with
  | some name => .enumeration name
  | none => kind

def fieldHasPresenceForEncoding (field : FieldDescriptor) : Bool :=
  let fieldFile := fieldDefiningFile file registry field
  if field.isRequired || field.proto3Optional || field.oneofName.isSome || field.kind.isGroup then
    true
  else if field.kind.isMessage && (fieldKindIsRegistryEnum fieldFile registry current field.kind).isNone
    then true
  else if field.cardinality == .repeated || field.kind.isMap then false
  else match field.features with
    | some features => features.fieldPresence != .implicit
    | none => fieldFile.features.fieldPresence != .implicit

def resolvedPackedForEncoding (field : FieldDescriptor) : Bool :=
  if field.cardinality != .repeated then false
  else
    let fieldFile := fieldDefiningFile file registry field
    let kind := scalarLikeKindForEncoding fieldFile registry current field.kind
    if !kind.packable then false
    else match field.packedOverride, field.features with
      | some isPacked, _ => isPacked
      | none, some features => features.repeatedFieldEncoding == .packedEncoding
      | none, none =>
          match fieldFile.fileSyntax with
          | .proto2 => false
          | .proto3 => true
          | .editions => fieldFile.features.repeatedFieldEncoding == .packedEncoding

/-- A field whose occurrences are merged into one message. -/
def shouldMergeSingularMessageField (field : FieldDescriptor) : Bool :=
  if field.cardinality == .repeated || field.kind.isMap then false
  else field.kind.isMessage || field.kind.isGroup

end

/-! ## Extensions -/

def extensionExtendsMessage (extendee : Bytes) (message : MessageDescriptor) : Bool :=
  let trimmed := normalizeName extendee
  trimmed == message.name || afterLastDot trimmed == message.name

def extensionFieldTargetsMessage (file : FileDescriptor) (registry : Option Registry)
    (current : MessageDescriptor) (field : FieldDescriptor) : Bool :=
  match field.extendee with
  | none => true
  | some extendee =>
      match registry with
      | some registry =>
          let owner := (registry.fileContainingExtension field).getD file
          match registry.findMessageVisible owner extendee (extensionScope owner field) with
          | some message => message.address == current.address
          | none => false
      | none =>
          if (file.findMessageDeep extendee).any (fun message => message.address == current.address)
            then true
          else extensionExtendsMessage extendee current

def registryExtension (registry : Option Registry) (descriptor : MessageDescriptor)
    (number : Nat) : Option FieldDescriptor :=
  match registry with
  | none => none
  | some registry => registry.findExtensionForMessage descriptor number

@[simp] theorem registryExtension_none (descriptor : MessageDescriptor) (number : Nat) :
    registryExtension none descriptor number = none := rfl

end Pbz
