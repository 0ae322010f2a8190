import Pbz.Codegen.FlatDecode
import Pbz.Codegen.ValueGraph
import Pbz.Lib.Assign
import Pbz.Lib.OwnPlace

set_option autoImplicit false

/-! # Emitted structs

The struct that `codegen.zig` emits for a message, with members for fields of every kind, and the
`mergeFrom` that it emits for it. A message field is *typed* where its member holds the struct of
its type, and otherwise holds the bytes of its payload.

What owns the memory behind a member is not part of a value, so `cloneOwned` of a value is that
value.
-/

namespace Pbz

namespace CodegenContext

def typedRepeatedMessageField (ctx : CodegenContext) (field : FieldDescriptor) : Option Bytes :=
  if field.oneofName.isSome || field.cardinality != .repeated then none
  else ctx.typedLengthPrefixedOrGroupField field

def typedMapMessageValue (ctx : CodegenContext) (field : FieldDescriptor) : Option Bytes :=
  match field.kind with
  | .map _ (.message name) => if ctx.codegenCanReferenceMessage name then some name else none
  | _ => none

end CodegenContext

/-- A message together with what the generator knows when it emits the struct. -/
structure GeneratedStruct where
  ctx : CodegenContext
  message : MessageDescriptor

namespace GeneratedStruct

def file (s : GeneratedStruct) : FileDescriptor := s.ctx.file

/-- The struct that a type name stands for in the emitted code. -/
def nestedStruct (s : GeneratedStruct) (typeName : Bytes) : Option GeneratedStruct :=
  (s.ctx.resolveMessageReference typeName).map (fun reference =>
    { ctx := { s.ctx with file := reference.file }, message := reference.message })

def typedSingular (s : GeneratedStruct) (field : FieldDescriptor) : Option GeneratedStruct :=
  (s.ctx.typedSingularMessageField field).bind s.nestedStruct

def typedRepeated (s : GeneratedStruct) (field : FieldDescriptor) : Option GeneratedStruct :=
  (s.ctx.typedRepeatedMessageField field).bind s.nestedStruct

def typedOneof (s : GeneratedStruct) (field : FieldDescriptor) : Option GeneratedStruct :=
  (s.ctx.typedOneofMessageField field).bind s.nestedStruct

def typedMapValue (s : GeneratedStruct) (field : FieldDescriptor) : Option GeneratedStruct :=
  (s.ctx.typedMapMessageValue field).bind s.nestedStruct

/-- A typed field has the struct of its message or group. -/
theorem kind_of_typedSingular {s t : GeneratedStruct} {field : FieldDescriptor}
    (h : s.typedSingular field = some t) : ∃ typeName, s.nestedStruct typeName = some t ∧
      (field.kind = .message typeName ∨ field.kind = .group typeName) := by
  obtain ⟨typeName, htyped, hstruct⟩ := Option.bind_eq_some_iff.mp h
  refine ⟨typeName, hstruct, ?_⟩
  rw [CodegenContext.typedSingularMessageField] at htyped
  split at htyped
  · cases htyped
  · have hname := (CodegenContext.typedLengthPrefixedOrGroupField_eq_some.mp htyped).1
    unfold nestedTypeName at hname
    cases hkind : field.kind with
    | message name =>
        simp only [hkind] at hname
        split at hname
        · cases hname
        · cases hname
          exact .inl rfl
    | group name =>
        rw [hkind] at hname
        cases hname
        exact .inr rfl
    | _ => rw [hkind] at hname; cases hname

end GeneratedStruct

/-! ## Values -/

mutual

/-- An element of a slice or a map, or the member of a oneof that is set. -/
inductive Element where
  | value (value : Value)
  | payload (bytes : Bytes)
  | message (message : EmittedMessage)

/-- What a struct holds for one field: the value of a scalar or an enum, the payload of a message
that is kept as bytes, the flag that goes with them, the struct of a typed message, the elements of
a repeated field or the entries of a map in the order of their insertion. -/
structure Member where
  value : Value
  has : Bool
  payload : Bytes
  nested : Option EmittedMessage
  items : List Element
  entries : List (Value × Element)

/-- The members by the number of their field, and the member that is set by the name of a oneof. -/
structure EmittedMessage where
  member : Nat → Member
  oneof : Bytes → Option (Nat × Element)
  unknownFields : List Bytes

end

/-! ## Merging -/

namespace Codegen

/-- The condition that `defaultSkipCondition` emits: floats are compared with zero as numbers. -/
def defaultSkipCondition : Value → Bool
  | .string s | .bytes s => !s.isEmpty
  | .boolean b => b
  | .float v => !floatEqual v 0
  | .double v => !doubleEqual v 0
  | .int32 v | .uint32 v | .sint32 v | .fixed32 v | .sfixed32 v | .enumeration v => v != 0
  | .int64 v | .uint64 v | .sint64 v | .fixed64 v | .sfixed64 v => v != 0
  | .message _ | .group _ | .mapEntry _ _ => false

/-- Two entries of one map have the same key. -/
def sameKey (a b : Value × Element) : Bool := valueEqual a.1 b.1

/-- `putMapEntry_`, and the put of `mergeFrom`. -/
def putMapEntry (entries : List (Value × Element)) (entry : Value × Element) :
    List (Value × Element) :=
  Upsert.assign sameKey entries entry

/-- A scalar or an enum with one value and no presence flag. -/
def isImplicit (file : FileDescriptor) (field : FieldDescriptor) : Bool :=
  field.cardinality != .repeated && !field.kind.isMap && !hasPresence file field

def appendRawFieldsClone (fields raws : List Bytes) : Except Error (List Bytes) := do
  Check.forEach validateRawField raws
  return fields ++ raws

end Codegen

namespace Member

/-- The payload of another occurrence of a message that is kept as bytes. -/
def joinPayload (self : Member) (payload : Bytes) : Member :=
  { self with
    payload :=
      if self.has && !self.payload.isEmpty && !payload.isEmpty then self.payload ++ payload
      else if !self.has || self.payload.isEmpty then payload
      else self.payload
    has := true }

/-- `writeMergeSingularScalarField` and `writeMergeSingularEnumField`. -/
def mergeSingularValue (file : FileDescriptor) (field : FieldDescriptor) (self other : Member) :
    Member :=
  if Codegen.hasPresence file field then
    if other.has then { self with value := other.value, has := true } else self
  else if Codegen.defaultSkipCondition other.value then { self with value := other.value }
  else self

def mergeMap (self other : Member) : Member :=
  { self with entries := other.entries.foldl Codegen.putMapEntry self.entries }

def mergeRepeated (self other : Member) : Member := { self with items := self.items ++ other.items }

/-- `writeMergeSingularMessageField` where the field is kept as bytes. -/
def mergePayload (self other : Member) : Member :=
  if other.has then self.joinPayload other.payload else self

end Member

/-- `writeMergeOneof` for all oneofs: the member that is set in `other` wins. -/
def mergeOneofs (message : MessageDescriptor) (self other : Bytes → Option (Nat × Element)) :
    Bytes → Option (Nat × Element) :=
  message.oneofs.foldl (fun own oneof =>
    match other oneof.name with
    | none => own
    | some active => Function.update own oneof.name (some active)) self

/-- The fields that have a member of their own. -/
def GeneratedStruct.ownFields (s : GeneratedStruct) : List FieldDescriptor :=
  s.message.fields.filter (fun field => field.oneofName.isNone)

mutual

/-- The emitted `mergeFrom`. -/
def EmittedMessage.mergeFrom (s : GeneratedStruct) (self : EmittedMessage) :
    EmittedMessage → Except Error EmittedMessage
  | { member, oneof, unknownFields } =>
      match OwnPlace.pass FieldDescriptor.number
          (fun field own => Member.mergeField s field own (member field.number)) s.ownFields
          self.member with
      | .error e => .error e
      | .ok members =>
          match Codegen.appendRawFieldsClone self.unknownFields unknownFields with
          | .error e => .error e
          | .ok raws => .ok { member := members, oneof := mergeOneofs s.message self.oneof oneof,
                              unknownFields := raws }

/-- `writeMergeField`. -/
def Member.mergeField (s : GeneratedStruct) (field : FieldDescriptor) (self : Member) :
    Member → Except Error Member
  | other@{ nested, .. } =>
      match field.kind with
      | .map _ _ => .ok (self.mergeMap other)
      | .message _ | .group _ =>
          if field.cardinality == .repeated then .ok (self.mergeRepeated other)
          else match s.typedSingular field with
            | some t =>
                match mergeNested t self.nested nested with
                | .error e => .error e
                | .ok merged => .ok { self with nested := merged }
            | none => .ok (self.mergePayload other)
      | .scalar _ | .enumeration _ =>
          if field.cardinality == .repeated then .ok (self.mergeRepeated other)
          else .ok (Member.mergeSingularValue s.file field self other)

/-- The typed branch of `writeMergeSingularMessageField`. -/
def mergeNested (t : GeneratedStruct) (self : Option EmittedMessage) :
    Option EmittedMessage → Except Error (Option EmittedMessage)
  | none => .ok self
  | some other =>
      match self with
      | none => .ok (some other)
      | some own =>
          match EmittedMessage.mergeFrom t own other with
          | .error e => .error e
          | .ok merged => .ok (some merged)

end

end Pbz
