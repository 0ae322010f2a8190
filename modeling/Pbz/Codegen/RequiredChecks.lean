import Pbz.Codegen.EmittedReads
import Pbz.Dynamic.Decode
import Pbz.Lib.Finding

set_option autoImplicit false

/-! # Emitted checks of required fields

The `validateRequiredRecursive` and the `missingRequiredFieldPath` that `codegen.zig` emits for a
struct. Both look for a required field that is absent, in the struct first and then in the messages
that it holds; messages that are held as bytes are decoded for it. The messages are those of the
fields, of the oneofs and of the extensions among the unknown fields.

The recursion takes fuel; what a check says is what it says with enough of it
(`Finding.Returns`).
-/

namespace Pbz

open Finding

/-! ## Extensions among the unknown fields -/

mutual

/-- `writeValidateScopedMessageExtensionPayloads`: the extensions that it goes through. -/
def scopesExtensions : List MessageDescriptor → List FieldDescriptor
  | [] => []
  | scope :: rest => scopeExtensions scope ++ scopesExtensions rest

def scopeExtensions : MessageDescriptor → List FieldDescriptor
  | { extensions, messages, .. } => extensions ++ scopesExtensions messages

end

namespace GeneratedStruct

/-- The extensions of the file of a struct. -/
def extensions (s : GeneratedStruct) : List FieldDescriptor :=
  s.file.extensions ++ scopesExtensions s.file.messages

/-- The struct of a message or a group. -/
def messageStruct (s : GeneratedStruct) : FieldKind → Option GeneratedStruct
  | .message typeName | .group typeName => s.nestedStruct typeName
  | _ => none

end GeneratedStruct

namespace Codegen

def findExtensionExtendeeInFile (file : FileDescriptor) (field : FieldDescriptor) :
    Option MessageDescriptor :=
  match field.extendee with
  | none => none
  | some extendee =>
      if normalizeName extendee != extendee then findMessageByQualifiedName file extendee
      else
        let inScope :=
          match extensionScope file field with
          | none => none
          | some scope =>
              ((enclosingScopes (scope.length + 1) scope).filter
                (fun (current : Bytes) =>
                  current.length + 1 + extendee.length ≤ scopeBufferSize)).findSome?
                  (fun current => findMessageByQualifiedName file (current ++ 0x2e :: extendee))
        inScope.or
          (if extendee.contains 0x2e then findMessageByQualifiedName file extendee else none)

def extensionAppliesToMessage (file : FileDescriptor) (message : MessageDescriptor)
    (field : FieldDescriptor) : Bool :=
  match field.extendee with
  | none => false
  | some extendee =>
      match findExtensionExtendeeInFile file field with
      | some resolved => resolved.address == message.address
      | none => message.name == normalizeName extendee || message.name == leafName extendee

def extensionUsesMessageSet (ctx : CodegenContext) (field : FieldDescriptor) : Bool :=
  match field.kind, field.extendee with
  | .message _, some extendee =>
      match ctx.resolveMessageReference extendee with
      | some reference => reference.message.messageSetWireFormat
      | none => false
  | _, _ => false

/-- Nothing may follow what has been read. -/
def atEnd {α : Type} : ReadResult α → Except Error α
  | .error e => .error e
  | .ok (value, rest) => if rest.isEmpty then .ok value else .error .invalidWireType

/-- The emitted `decodeMessageSetItem`. -/
def decodeMessageSetItem (field : FieldDescriptor) (input : Bytes) : ReadResult (Option Bytes) :=
  match Loop.run (messageSetItemPass recursionLimit) {} input with
  | (_, .error e) => .error e
  | (item, .ok rest) => .ok (if item.typeId = some field.number then item.payload else none, rest)

/-- The emitted `decodeValue` of an extension with messages. -/
def decodeExtensionValue (field : FieldDescriptor) (input : Bytes) : ReadResult Bytes :=
  if field.kind.isGroup then readGroupBytes recursionLimit field.number input else readBytes input

/-- The emitted `decodeRaw`. -/
def decodeRaw (ctx : CodegenContext) (field : FieldDescriptor) (raw : Bytes) :
    Except Error (Option Bytes) :=
  match nextTag raw with
  | .error e => .error e
  | .ok none => .ok none
  | .ok (some (tag, rest)) =>
      if extensionUsesMessageSet ctx field then
        if tag.number = 1 ∧ tag.wireType = .startGroup then atEnd (decodeMessageSetItem field rest)
        else if tag.number = field.number ∧ tag.wireType = .lengthDelimited then
          (atEnd (readBytes rest)).map some
        else .ok none
      else if tag.number ≠ field.number ∨ tag.wireType ≠ field.kind.wireType then .ok none
      else (atEnd (decodeExtensionValue field rest)).map some

/-- The emitted `decodeAllFromUnknown`. -/
def decodeAllFromUnknown (ctx : CodegenContext) (field : FieldDescriptor) (raws : List Bytes) :
    Except Error (List Bytes) :=
  (raws.mapM (decodeRaw ctx field)).map List.reduceOption

end Codegen

/-! ## The messages of a struct -/

/-- A message that a struct holds: the name of its field, its type and its struct or its bytes. -/
structure HeldMessage where
  name : Bytes
  struct : GeneratedStruct
  element : Element

namespace Codegen

/-- The messages of a field that is not in a oneof. A singular message that is held as bytes is one
of them if its member says so (`keeps`). -/
def fieldMessages (keeps : Member → Bool) (s : GeneratedStruct) (self : EmittedMessage)
    (field : FieldDescriptor) : List HeldMessage :=
  let own := self.member field.number
  match field.kind with
  | .map _ (.message typeName) =>
      match s.nestedStruct typeName with
      | none => []
      | some t => own.entries.map (fun entry => ⟨field.name, t, entry.2⟩)
  | kind =>
      match s.messageStruct kind with
      | none => []
      | some t =>
          if field.oneofName.isSome then []
          else if field.cardinality == .repeated then own.items.map (⟨field.name, t, ·⟩)
          else match s.typedSingular field with
            | some t => own.nested.toList.map (fun nested => ⟨field.name, t, .message nested⟩)
            | none => if keeps own then [⟨field.name, t, .payload own.payload⟩] else []

def oneofMessages (s : GeneratedStruct) (self : EmittedMessage) (oneof : OneofDescriptor) :
    List HeldMessage :=
  match self.oneof oneof.name with
  | none => []
  | some (number, element) =>
      match s.message.fields.find? (fun field =>
          field.number == number && field.oneofName == some oneof.name) with
      | none => []
      | some field =>
          match s.messageStruct field.kind with
          | none => []
          | some t => [⟨field.name, t, element⟩]

def extensionMessages (s : GeneratedStruct) (self : EmittedMessage) (field : FieldDescriptor) :
    Except Error (List HeldMessage) :=
  if extensionAppliesToMessage s.file s.message field then
    match s.messageStruct field.kind with
    | none => .ok []
    | some t =>
        (decodeAllFromUnknown s.ctx field self.unknownFields).map (fun payloads =>
          payloads.map (fun payload => ⟨field.name, t, .payload payload⟩))
  else .ok []

section

variable (explicitDefault : FieldKind → OptionValue → Option Value)

/-- The struct of a message that is held. A slice of messages has no values. -/
def openHeld (held : HeldMessage) : Except Error EmittedMessage :=
  match held.element with
  | .message message => .ok message
  | .payload payload => decodeEmitted explicitDefault held.struct payload
  | .value _ => .error .typeMismatch

variable {α : Type} (visit : Bytes → GeneratedStruct → EmittedMessage → Except (Halt Error α) Unit)

def visitHeld (held : HeldMessage) : Except (Halt Error α) Unit :=
  match openHeld explicitDefault held with
  | .error e => .error (.failed e)
  | .ok message => visit held.name held.struct message

/-- Both checks test the length of the bytes, not the flag beside them. -/
def nonEmptyPayload (own : Member) : Bool := !own.payload.isEmpty

/-- What the two checks have in common: they go through the fields, the oneofs and the
extensions. -/
def visitMessages (s : GeneratedStruct) (self : EmittedMessage) : Except (Halt Error α) Unit := do
  Check.forEach (fun field =>
    Check.forEach (visitHeld explicitDefault visit) (fieldMessages nonEmptyPayload s self field))
    s.message.fields
  Check.forEach (fun oneof =>
    Check.forEach (visitHeld explicitDefault visit) (oneofMessages s self oneof)) s.message.oneofs
  Check.forEach (fun field =>
    match extensionMessages s self field with
    | .error e => .error (.failed e)
    | .ok held => Check.forEach (visitHeld explicitDefault visit) held) s.extensions

end

/-! ## The checks -/

def isRequired (field : FieldDescriptor) : Bool :=
  if field.cardinality == .required then true
  else match field.features with
    | some features => features.fieldPresence == .legacyRequired
    | none => false

def missingRequiredFieldName (s : GeneratedStruct) (self : EmittedMessage) : Option Bytes :=
  (s.message.fields.find? (fun field =>
    isRequired field && !(self.member field.number).has)).map FieldDescriptor.name

def validateRequired (s : GeneratedStruct) (self : EmittedMessage) : Except (Halt Error Unit) Unit :=
  if (missingRequiredFieldName s self).isSome then .error (.found ()) else .ok ()

/-- `.found ()` is `error.MissingRequiredField`. -/
def validateRequiredRecursive (explicitDefault : FieldKind → OptionValue → Option Value) :
    Nat → GeneratedStruct → EmittedMessage → Except (Halt Error Unit) Unit
  | 0, _, _ => .error .exhausted
  | fuel + 1, s, self => do
      validateRequired s self
      visitMessages explicitDefault
        (fun _ t nested => validateRequiredRecursive explicitDefault fuel t nested) s self

/-- The part of `missingRequiredFieldPath` that is about the fields of the struct itself. -/
def missingOwnField (s : GeneratedStruct) (self : EmittedMessage) :
    Except (Halt Error Bytes) Unit :=
  match missingRequiredFieldName s self with
  | some name => .error (.found name)
  | none => .ok ()

/-- The path into a message, from the path inside of it. -/
def inField (name : Bytes) : Except (Halt Error Bytes) Unit → Except (Halt Error Bytes) Unit
  | .error (.found suffix) => .error (.found (name ++ 0x2e :: suffix))
  | result => result

/-- `.found path` returns the path, and `.ok ()` returns `null`. -/
def missingRequiredFieldPath (explicitDefault : FieldKind → OptionValue → Option Value) :
    Nat → GeneratedStruct → EmittedMessage → Except (Halt Error Bytes) Unit
  | 0, _, _ => .error .exhausted
  | fuel + 1, s, self => do
      missingOwnField s self
      visitMessages explicitDefault (fun name t nested =>
        inField name (missingRequiredFieldPath explicitDefault fuel t nested)) s self

end Codegen

end Pbz
