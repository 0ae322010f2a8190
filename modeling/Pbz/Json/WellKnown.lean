import Pbz.Json.Scalars
import Pbz.Json.TypeNames
import Pbz.Dynamic.Store

set_option autoImplicit false

/-! # Well-known types in JSON

What the JSON reader and the writer share about the messages of `google.protobuf` that have a form
of their own: the kinds of the wrappers, the type names in an `Any`, and the texts of timestamps,
durations and field masks.
-/

namespace Pbz

namespace Json

/-- The texts of `wkt.zig`: how they are read, and how they are written. -/
class KnownTexts where
  parseTimestamp : Bytes → Except Failure (BitVec 64 × BitVec 32)
  parseDuration : Bytes → Except Failure (BitVec 64 × BitVec 32)
  parseFieldMask : Bytes → Except Failure (List Bytes)
  writeTimestamp : BitVec 64 → BitVec 32 → Except Failure Bytes
  writeDuration : BitVec 64 → BitVec 32 → Except Failure Bytes
  validateFieldMaskPath : Bytes → Except Failure Unit
  writeStandaloneAny : Bytes → Bytes → Except Failure Bytes

/-! ## Wrappers -/

def wrapperKind (name : Bytes) : Option FieldKind :=
  if typeNameEquals name (ascii "google.protobuf.DoubleValue") then some (.scalar .double)
  else if typeNameEquals name (ascii "google.protobuf.FloatValue") then some (.scalar .float)
  else if typeNameEquals name (ascii "google.protobuf.Int64Value") then some (.scalar .int64)
  else if typeNameEquals name (ascii "google.protobuf.UInt64Value") then some (.scalar .uint64)
  else if typeNameEquals name (ascii "google.protobuf.Int32Value") then some (.scalar .int32)
  else if typeNameEquals name (ascii "google.protobuf.UInt32Value") then some (.scalar .uint32)
  else if typeNameEquals name (ascii "google.protobuf.BoolValue") then some (.scalar .bool)
  else if typeNameEquals name (ascii "google.protobuf.StringValue") then some (.scalar .string)
  else if typeNameEquals name (ascii "google.protobuf.BytesValue") then some (.scalar .bytes)
  else none

/-! ## The type of an `Any` -/

/-- What stands behind the last slash. -/
def anyTypeName (typeUrl : Bytes) : Bytes := (typeUrl.reverse.takeWhile (· != 0x2f)).reverse

/-- There is a slash, and the last one is not at the end. -/
def anyTypeUrlIsValid (typeUrl : Bytes) : Bool :=
  typeUrl.contains 0x2f && typeUrl.getLast? != some 0x2f

def anyUsesValueEnvelope (name : Bytes) : Bool :=
  typeNameEquals name (ascii "google.protobuf.Any")
    || typeNameEquals name (ascii "google.protobuf.Timestamp")
    || typeNameEquals name (ascii "google.protobuf.Duration")
    || typeNameEquals name (ascii "google.protobuf.FieldMask")
    || typeNameEquals name (ascii "google.protobuf.Struct")
    || typeNameEquals name (ascii "google.protobuf.Value")
    || typeNameEquals name (ascii "google.protobuf.ListValue")
    || (wrapperKind name).isSome

def resolveAnyTypeWithRegistry (file : FileDescriptor) (registry : Option Registry)
    (current : MessageDescriptor) (typeUrl : Bytes) : Option MessageDescriptor :=
  resolveMessageDescriptorWithRegistry file registry current (anyTypeName typeUrl)

end Json

/-! ## Fields by name -/

def DynamicMessage.get (self : DynamicMessage) (name : Bytes) : Option FieldValue :=
  self.fields.find? (fun entry => entry.descriptor.name == name)

end Pbz
