import Pbz.Dynamic.Resolve

set_option autoImplicit false

/-! # Type names in JSON

How `json.zig` recognises the well-known types and finds the enums that a field refers to. The
messages are found as in `dynamic.zig`.
-/

namespace Pbz

namespace Json

def typeNameEquals (name expected : Bytes) : Bool :=
  normalizeName name == expected || expected.isSuffixOf (normalizeName name)

/-- The name as it stands, or behind the package of the file if it has no dot. -/
def typeNameEqualsInFile (file : FileDescriptor) (name expected : Bytes) : Bool :=
  if typeNameEquals name expected then true
  else
    let normalized := normalizeName name
    if normalized.contains 0x2e || file.package.isEmpty then false
    else expected == file.package ++ 0x2e :: normalized

def registryEnumDescriptor (file : FileDescriptor) (registry : Option Registry)
    (current : MessageDescriptor) (name : Bytes) : Option EnumDescriptor :=
  let nullValue :=
    if typeNameEqualsInFile file name (ascii "google.protobuf.NullValue") then
      file.findEnumDeep (ascii "NullValue")
    else none
  let registered := match registry with
    | none => none
    | some registry =>
        let scope := lookupScope file current
        let undotted := if name.contains 0x2e then none else findEnumNearby file current name
        (undotted.or (registry.findEnumVisible file name scope)).or (registry.findEnum name scope)
  (nullValue.or registered).or (findEnumNearby file current (normalizeName name))

def jsonFieldKindIsRegistryEnum (file : FileDescriptor) (registry : Option Registry)
    (current : MessageDescriptor) (kind : FieldKind) : Bool :=
  match kind.enumName with
  | none => false
  | some enumName => (registryEnumDescriptor file registry current enumName).isSome

end Json

end Pbz
