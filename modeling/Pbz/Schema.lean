import Pbz.Wire.Reader

set_option autoImplicit false

/-! # Descriptors

The descriptor graph of `schema.zig`, with the members that the modelled code reads. A pointer
to a descriptor is the descriptor itself; where the source compares pointers, the model compares
the `address` of the two descriptors, so two declarations with the same contents stay apart.
-/

namespace Pbz

inductive Syntax where
  | proto2
  | proto3
  | editions
  deriving DecidableEq, Repr

/-- The editions with the numbers of `descriptor.proto`. -/
inductive Edition where
  | unknown
  | edition1TestOnly
  | edition2TestOnly
  | legacy
  | proto2
  | proto3
  | edition2023
  | edition2024
  | edition2026
  | unstable
  | edition99997TestOnly
  | edition99998TestOnly
  | edition99999TestOnly
  | max
  deriving DecidableEq, Repr

namespace Edition

def number : Edition → Int
  | .unknown => 0
  | .edition1TestOnly => 1
  | .edition2TestOnly => 2
  | .legacy => 900
  | .proto2 => 998
  | .proto3 => 999
  | .edition2023 => 1000
  | .edition2024 => 1001
  | .edition2026 => 1002
  | .unstable => 9999
  | .edition99997TestOnly => 99997
  | .edition99998TestOnly => 99998
  | .edition99999TestOnly => 99999
  | .max => 0x7fffffff

def all : List Edition :=
  [.unknown, .edition1TestOnly, .edition2TestOnly, .legacy, .proto2, .proto3, .edition2023,
    .edition2024, .edition2026, .unstable, .edition99997TestOnly, .edition99998TestOnly,
    .edition99999TestOnly, .max]

/-- `std.enums.fromInt`. -/
def fromInt (number : Int) : Option Edition := all.find? (fun edition => edition.number == number)

end Edition

def Syntax.defaultEdition : Syntax → Edition
  | .proto2 => .proto2
  | .proto3 => .proto3
  | .editions => .edition2023

inductive Cardinality where
  | implicit
  | optional
  | required
  | repeated
  deriving DecidableEq, Repr

inductive ScalarType where
  | double
  | float
  | int32
  | int64
  | uint32
  | uint64
  | sint32
  | sint64
  | fixed32
  | fixed64
  | sfixed32
  | sfixed64
  | bool
  | string
  | bytes
  deriving DecidableEq, Repr

namespace ScalarType

def wireType : ScalarType → WireType
  | .double | .fixed64 | .sfixed64 => .fixed64
  | .float | .fixed32 | .sfixed32 => .fixed32
  | .string | .bytes => .lengthDelimited
  | _ => .varint

/-- `scalarTypeName`; `ScalarType.fromName` finds a type by the same name. -/
def typeName : ScalarType → Bytes
  | .double => ascii "double"
  | .float => ascii "float"
  | .int32 => ascii "int32"
  | .int64 => ascii "int64"
  | .uint32 => ascii "uint32"
  | .uint64 => ascii "uint64"
  | .sint32 => ascii "sint32"
  | .sint64 => ascii "sint64"
  | .fixed32 => ascii "fixed32"
  | .fixed64 => ascii "fixed64"
  | .sfixed32 => ascii "sfixed32"
  | .sfixed64 => ascii "sfixed64"
  | .bool => ascii "bool"
  | .string => ascii "string"
  | .bytes => ascii "bytes"

def all : List ScalarType :=
  [.double, .float, .int32, .int64, .uint32, .uint64, .sint32, .sint64, .fixed32, .fixed64,
    .sfixed32, .sfixed64, .bool, .string, .bytes]

def fromName (name : Bytes) : Option ScalarType := all.find? (fun type => type.typeName == name)

def packable : ScalarType → Bool
  | .string | .bytes => false
  | _ => true

def validMapKey : ScalarType → Bool
  | .double | .float | .bytes => false
  | _ => true

end ScalarType

/-- The kind of a field; the last one is `MapType` with its key and value kinds. -/
inductive FieldKind where
  | scalar (type : ScalarType)
  | message (name : Bytes)
  | enumeration (name : Bytes)
  | group (name : Bytes)
  | map (key : ScalarType) (value : FieldKind)
  deriving DecidableEq, Repr

namespace FieldKind

def wireType : FieldKind → WireType
  | .scalar type => type.wireType
  | .message _ | .map _ _ => .lengthDelimited
  | .enumeration _ => .varint
  | .group _ => .startGroup

def packable : FieldKind → Bool
  | .scalar type => type.packable
  | .enumeration _ => true
  | _ => false

def isMap : FieldKind → Bool
  | .map _ _ => true
  | _ => false

def isMessage : FieldKind → Bool
  | .message _ => true
  | _ => false

def isGroup : FieldKind → Bool
  | .group _ => true
  | _ => false

end FieldKind

inductive OptionValue where
  | identifier (s : Bytes)
  | string (s : Bytes)
  | integer (v : Int)
  | unsignedInteger (v : Nat)
  | float (bits : BitVec 64)
  | boolean (b : Bool)
  | aggregate (s : Bytes)
  deriving DecidableEq, Repr

structure FieldOption where
  name : Bytes
  value : OptionValue
  deriving DecidableEq, Repr

/-! ## Features -/

inductive FieldPresence where
  | explicit
  | implicit
  | legacyRequired
  deriving DecidableEq, Repr

inductive EnumType where
  | «open»
  | closed
  deriving DecidableEq, Repr

inductive RepeatedFieldEncoding where
  | packedEncoding
  | expanded
  deriving DecidableEq, Repr

inductive Utf8Validation where
  | none
  | verify
  deriving DecidableEq, Repr

inductive MessageEncoding where
  | lengthPrefixed
  | delimited
  deriving DecidableEq, Repr

inductive JsonFormat where
  | allow
  | legacyBestEffort
  deriving DecidableEq, Repr

inductive EnforceNamingStyle where
  | style2024
  | styleLegacy
  | style2026
  deriving DecidableEq, Repr

inductive DefaultSymbolVisibility where
  | exportAll
  | exportTopLevel
  | localAll
  | strict
  deriving DecidableEq, Repr

inductive EnforceProtoLimits where
  | legacyNoExplicitLimits
  | protoLimits2026
  deriving DecidableEq, Repr

structure FeatureSet where
  fieldPresence : FieldPresence := .explicit
  enumType : EnumType := .open
  repeatedFieldEncoding : RepeatedFieldEncoding := .packedEncoding
  utf8Validation : Utf8Validation := .verify
  messageEncoding : MessageEncoding := .lengthPrefixed
  jsonFormat : JsonFormat := .allow
  enforceNamingStyle : EnforceNamingStyle := .styleLegacy
  defaultSymbolVisibility : DefaultSymbolVisibility := .exportAll
  enforceProtoLimits : EnforceProtoLimits := .legacyNoExplicitLimits
  deriving DecidableEq, Repr

def FeatureSet.defaults : Syntax → FeatureSet
  | .proto2 =>
      { fieldPresence := .explicit, enumType := .closed, repeatedFieldEncoding := .expanded,
        utf8Validation := .none, jsonFormat := .legacyBestEffort }
  | .proto3 =>
      { fieldPresence := .implicit, enumType := .open, repeatedFieldEncoding := .packedEncoding,
        utf8Validation := .verify, jsonFormat := .allow }
  | .editions =>
      { fieldPresence := .explicit, enumType := .open, repeatedFieldEncoding := .packedEncoding,
        utf8Validation := .verify, jsonFormat := .allow }

structure FieldEditionDefault where
  edition : Edition := .unknown
  value : Bytes := []
  deriving DecidableEq, Repr

structure FeatureSupport where
  editionIntroduced : Option Edition := none
  editionDeprecated : Option Edition := none
  deprecationWarning : Bytes := []
  editionRemoved : Option Edition := none
  removalError : Bytes := []
  deriving DecidableEq, Repr

/-! ## Descriptors -/

structure FieldDescriptor where
  name : Bytes
  fullName : Option Bytes := none
  number : Nat
  cardinality : Cardinality := .implicit
  kind : FieldKind
  extendee : Option Bytes := none
  defaultValue : Option OptionValue := none
  jsonName : Option Bytes := none
  oneofName : Option Bytes := none
  proto3Optional : Bool := false
  packedOverride : Option Bool := none
  editionDefaults : List FieldEditionDefault := []
  features : Option FeatureSet := none
  featureSupport : Option FeatureSupport := none
  options : List FieldOption := []
  address : Nat := 0
  deriving DecidableEq, Repr

structure OneofDescriptor where
  name : Bytes
  features : Option FeatureSet := none
  options : List FieldOption := []
  deriving DecidableEq, Repr

/-- Numbers from `start` up to and without `end`; no `end` stands for `max`. -/
structure ReservedRange where
  start : Int
  «end» : Option Int
  deriving DecidableEq, Repr

namespace ReservedRange

def effectiveEnd (range : ReservedRange) (maxEnd : Int) : Int := range.end.getD maxEnd

def containsWithMax (range : ReservedRange) (number maxEnd : Int) : Bool :=
  number ≥ range.start && number < range.effectiveEnd maxEnd

def overlapsWithMax (range other : ReservedRange) (maxEnd : Int) : Bool :=
  range.start < other.effectiveEnd maxEnd && other.start < range.effectiveEnd maxEnd

end ReservedRange

structure ExtensionDeclaration where
  number : Int := 0
  fullName : Bytes := []
  typeName : Bytes := []
  reserved : Bool := false
  repeated : Bool := false
  deriving DecidableEq, Repr

inductive ExtensionRangeVerification where
  | declaration
  | unverified
  deriving DecidableEq, Repr

structure ExtensionRange where
  start : Int
  «end» : Option Int
  options : List FieldOption := []
  declarations : List ExtensionDeclaration := []
  verification : Option ExtensionRangeVerification := none
  features : Option FeatureSet := none
  deriving DecidableEq, Repr

structure EnumValueDescriptor where
  name : Bytes
  number : BitVec 32
  features : Option FeatureSet := none
  featureSupport : Option FeatureSupport := none
  options : List FieldOption := []
  deriving DecidableEq, Repr

structure EnumDescriptor where
  name : Bytes
  values : List EnumValueDescriptor := []
  features : Option FeatureSet := none
  options : List FieldOption := []
  reservedRanges : List ReservedRange := []
  reservedNames : List Bytes := []
  address : Nat := 0
  deriving DecidableEq, Repr

structure MessageDescriptor where
  name : Bytes
  fields : List FieldDescriptor := []
  oneofs : List OneofDescriptor := []
  messages : List MessageDescriptor := []
  enums : List EnumDescriptor := []
  extensions : List FieldDescriptor := []
  extensionRanges : List ExtensionRange := []
  reservedRanges : List ReservedRange := []
  reservedNames : List Bytes := []
  features : Option FeatureSet := none
  options : List FieldOption := []
  mapEntry : Bool := false
  address : Nat := 0

structure MethodDescriptor where
  name : Bytes
  inputType : Bytes := []
  outputType : Bytes := []
  clientStreaming : Bool := false
  serverStreaming : Bool := false
  features : Option FeatureSet := none
  options : List FieldOption := []
  deriving DecidableEq, Repr

structure ServiceDescriptor where
  name : Bytes
  methods : List MethodDescriptor := []
  features : Option FeatureSet := none
  options : List FieldOption := []
  deriving DecidableEq, Repr

inductive ImportKind where
  | normal
  | «public»
  | weak
  | option
  deriving DecidableEq, Repr

structure Import where
  path : Bytes
  kind : ImportKind := .normal
  deriving DecidableEq, Repr

/-- The part of a source text that the declaration at `path` comes from, and its comments. -/
structure SourceLocation where
  path : List (BitVec 32) := []
  span : List (BitVec 32) := []
  leadingComments : Option Bytes := none
  trailingComments : Option Bytes := none
  leadingDetachedComments : List Bytes := []
  deriving DecidableEq, Repr

structure SourceCodeInfo where
  locations : List SourceLocation := []
  deriving DecidableEq, Repr

structure FileDescriptor where
  name : Bytes := []
  package : Bytes := []
  fileSyntax : Syntax := .proto2
  edition : Edition := .proto2
  imports : List Import := []
  missingWeakImports : List Bytes := []
  messages : List MessageDescriptor := []
  enums : List EnumDescriptor := []
  extensions : List FieldDescriptor := []
  services : List ServiceDescriptor := []
  options : List FieldOption := []
  features : FeatureSet := FeatureSet.defaults .proto2
  sourceCodeInfo : SourceCodeInfo := {}
  address : Nat := 0

namespace FieldDescriptor

def isPackable (field : FieldDescriptor) : Bool :=
  field.cardinality == .repeated && field.kind.packable

def isRepeatedLike (field : FieldDescriptor) : Bool :=
  field.cardinality == .repeated || field.kind.isMap

def isRequired (field : FieldDescriptor) : Bool :=
  if field.cardinality == .required then true
  else match field.features with
    | some features => features.fieldPresence == .legacyRequired
    | none => false

/-- The features a field is under: its own if it has any, else those of its file. -/
def effectiveFeatures (field : FieldDescriptor) (file : FileDescriptor) : FeatureSet :=
  match field.features with
  | some features => features
  | none => file.features

def utf8Validation (field : FieldDescriptor) (file : FileDescriptor) : Utf8Validation :=
  (field.effectiveFeatures file).utf8Validation

def messageEncoding (field : FieldDescriptor) (file : FileDescriptor) : MessageEncoding :=
  (field.effectiveFeatures file).messageEncoding

def hasPresence (field : FieldDescriptor) (file : FileDescriptor) : Bool :=
  if field.isRequired || field.proto3Optional || field.oneofName.isSome || field.kind.isMessage
      || field.kind.isGroup then true
  else if field.cardinality == .repeated || field.kind.isMap then false
  else (field.effectiveFeatures file).fieldPresence != .implicit

def resolvedPacked (field : FieldDescriptor) (file : FileDescriptor) : Bool :=
  if !field.isPackable then false
  else match field.packedOverride, field.features with
    | some isPacked, _ => isPacked
    | none, some features => features.repeatedFieldEncoding == .packedEncoding
    | none, none =>
        match file.fileSyntax with
        | .proto2 => false
        | .proto3 => true
        | .editions => file.features.repeatedFieldEncoding == .packedEncoding

end FieldDescriptor

/-! ## Options -/

/-- Drop spaces, tabs and line ends at both ends. -/
def trimSpace (s : Bytes) : Bytes :=
  let space (b : UInt8) : Bool := b == 0x20 || b == 0x09 || b == 0x0d || b == 0x0a
  ((s.dropWhile space).reverse.dropWhile space).reverse

def toLower (b : UInt8) : UInt8 := if 0x41 ≤ b ∧ b ≤ 0x5a then b + 0x20 else b

def eqlIgnoreCase (a b : Bytes) : Bool := a.map toLower == b.map toLower

def optionAsBool : OptionValue → Option Bool
  | .boolean b => some b
  | .identifier s =>
      if eqlIgnoreCase s (ascii "true") then some true
      else if eqlIgnoreCase s (ascii "false") then some false
      else none
  | _ => none

def optionAsIdentifier : OptionValue → Option Bytes
  | .identifier s | .string s => some s
  | _ => none

/-! ## Names -/

/-- `name[1..]` if the name starts with a dot. -/
def normalizeName (name : Bytes) : Bytes :=
  match name with
  | 0x2e :: rest => rest
  | _ => name

/-- The part after the last dot, the name itself if there is none. -/
def afterLastDot (name : Bytes) : Bytes :=
  (name.reverse.takeWhile (· != 0x2e)).reverse

def leafName (name : Bytes) : Bytes := afterLastDot (normalizeName name)

/-- The last component of an option name, without the parentheses around it or behind it. -/
def optionLeaf (name : Bytes) : Bytes :=
  let dottedLeaf := afterLastDot (trimSpace name)
  if dottedLeaf.length ≥ 2 && dottedLeaf.head? == some 0x28 && dottedLeaf.getLast? == some 0x29 then
    dottedLeaf.tail.dropLast
  else if dottedLeaf.getLast? == some 0x29 then dottedLeaf.dropLast
  else dottedLeaf

/-- The features with the one named by `leaf` set to the value `ident`; `none` where there is no
such feature or no such value of it. -/
def FeatureSet.setFeature (features : FeatureSet) (leaf ident : Bytes) : Option FeatureSet :=
  let isValue (text : String) : Bool := eqlIgnoreCase ident (ascii text)
  if leaf == ascii "field_presence" then
    if isValue "EXPLICIT" then some { features with fieldPresence := .explicit }
    else if isValue "IMPLICIT" then some { features with fieldPresence := .implicit }
    else if isValue "LEGACY_REQUIRED" then some { features with fieldPresence := .legacyRequired }
    else none
  else if leaf == ascii "enum_type" then
    if isValue "OPEN" then some { features with enumType := .open }
    else if isValue "CLOSED" then some { features with enumType := .closed }
    else none
  else if leaf == ascii "repeated_field_encoding" then
    if isValue "PACKED" then some { features with repeatedFieldEncoding := .packedEncoding }
    else if isValue "EXPANDED" then some { features with repeatedFieldEncoding := .expanded }
    else none
  else if leaf == ascii "utf8_validation" then
    if isValue "NONE" then some { features with utf8Validation := .none }
    else if isValue "VERIFY" then some { features with utf8Validation := .verify }
    else none
  else if leaf == ascii "message_encoding" then
    if isValue "LENGTH_PREFIXED" then some { features with messageEncoding := .lengthPrefixed }
    else if isValue "DELIMITED" then some { features with messageEncoding := .delimited }
    else none
  else if leaf == ascii "json_format" then
    if isValue "ALLOW" then some { features with jsonFormat := .allow }
    else if isValue "LEGACY_BEST_EFFORT" then
      some { features with jsonFormat := .legacyBestEffort }
    else none
  else if leaf == ascii "enforce_naming_style" then
    if isValue "STYLE2024" then some { features with enforceNamingStyle := .style2024 }
    else if isValue "STYLE_LEGACY" then some { features with enforceNamingStyle := .styleLegacy }
    else if isValue "STYLE2026" then some { features with enforceNamingStyle := .style2026 }
    else none
  else if leaf == ascii "default_symbol_visibility" then
    if isValue "EXPORT_ALL" then some { features with defaultSymbolVisibility := .exportAll }
    else if isValue "EXPORT_TOP_LEVEL" then
      some { features with defaultSymbolVisibility := .exportTopLevel }
    else if isValue "LOCAL_ALL" then some { features with defaultSymbolVisibility := .localAll }
    else if isValue "STRICT" then some { features with defaultSymbolVisibility := .strict }
    else none
  else if leaf == ascii "enforce_proto_limits" then
    if isValue "LEGACY_NO_EXPLICIT_LIMITS" then
      some { features with enforceProtoLimits := .legacyNoExplicitLimits }
    else if isValue "PROTO_LIMITS2026" then
      some { features with enforceProtoLimits := .protoLimits2026 }
    else none
  else none

/-- `applyOption`: an option that sets no feature changes nothing. -/
def FeatureSet.applyOption (features : FeatureSet) (optionName : Bytes) (value : OptionValue) :
    FeatureSet :=
  let ident : Option Bytes := match value with
    | .identifier s | .string s => some s
    | .boolean b => some (if b then ascii "true" else ascii "false")
    | _ => none
  match ident with
  | some ident => (features.setFeature (afterLastDot optionName) ident).getD features
  | none => features

namespace MessageDescriptor

def findFieldByNumber (message : MessageDescriptor) (number : Nat) : Option FieldDescriptor :=
  message.fields.find? (fun field => field.number == number)

def findOneof (message : MessageDescriptor) (name : Bytes) : Option OneofDescriptor :=
  message.oneofs.find? (fun oneof => oneof.name == name)

def messageSetWireFormat (message : MessageDescriptor) : Bool :=
  match message.options.find?
      (fun option => trimSpace option.name == ascii "message_set_wire_format") with
  | some option => (optionAsBool option.value).getD false
  | none => false

def findMessage (message : MessageDescriptor) (name : Bytes) : Option MessageDescriptor :=
  message.messages.find? (fun nested => nested.name == name)

def findEnum (message : MessageDescriptor) (name : Bytes) : Option EnumDescriptor :=
  message.enums.find? (fun enumeration => enumeration.name == name)

/-- The end of a range up to `max`: message sets keep the old ceiling. -/
def extensionRangeMaxExclusive (message : MessageDescriptor) : Int :=
  if message.messageSetWireFormat then 2 ^ 31 - 1 else 2 ^ 29

end MessageDescriptor

namespace ExtensionRange

def effectiveEnd (range : ExtensionRange) (message : MessageDescriptor) : Int :=
  range.end.getD message.extensionRangeMaxExclusive

def containsInMessage (range : ExtensionRange) (message : MessageDescriptor) (number : Int) : Bool :=
  number ≥ range.start && number < range.effectiveEnd message

def overlapsInMessage (range : ExtensionRange) (message : MessageDescriptor)
    (other : ExtensionRange) : Bool :=
  range.start < other.effectiveEnd message && other.start < range.effectiveEnd message

end ExtensionRange

mutual

/-- `MessageDescriptor.findMessageDeep`: depth first through the nested messages. -/
def findMessageDeepIn (name : Bytes) : List MessageDescriptor → Option MessageDescriptor
  | [] => none
  | message :: rest =>
      if message.name == leafName name || message.name == name then some message
      else match message.findMessageDeep name with
        | some found => some found
        | none => findMessageDeepIn name rest

def MessageDescriptor.findMessageDeep (name : Bytes) :
    MessageDescriptor → Option MessageDescriptor
  | { messages, .. } => findMessageDeepIn name messages

end

/-- The first of some enums that carries the name or its last component. -/
def findEnumNamed (name : Bytes) (enums : List EnumDescriptor) : Option EnumDescriptor :=
  enums.find? (fun enumeration => enumeration.name == leafName name || enumeration.name == name)

mutual

def findEnumDeepIn (name : Bytes) : List MessageDescriptor → Option EnumDescriptor
  | [] => none
  | message :: rest =>
      match message.findEnumDeep name with
      | some found => some found
      | none => findEnumDeepIn name rest

/-- `MessageDescriptor.findEnumDeep`: its own enums first, then those of its nested messages. -/
def MessageDescriptor.findEnumDeep (name : Bytes) : MessageDescriptor → Option EnumDescriptor
  | { messages, enums, .. } =>
      match findEnumNamed name enums with
      | some found => some found
      | none => findEnumDeepIn name messages

end

namespace FileDescriptor

/-- `some rest` if `name` is `first`, a dot and `rest`. -/
def stripDotted (first name : Bytes) : Option Bytes :=
  if first.isPrefixOf name then
    match name.drop first.length with
    | 0x2e :: rest => some rest
    | _ => none
  else none

/-- The name without a leading dot and without the package of the file. -/
def stripPackagePrefix (file : FileDescriptor) (name : Bytes) : Bytes :=
  let normalized := normalizeName name
  if file.package.isEmpty then normalized
  else if normalized == file.package then []
  else (stripDotted file.package normalized).getD normalized

def findMessageDeep (file : FileDescriptor) (name : Bytes) : Option MessageDescriptor :=
  findMessageDeepIn (file.stripPackagePrefix name) file.messages

def findEnumDeep (file : FileDescriptor) (name : Bytes) : Option EnumDescriptor :=
  let normalized := file.stripPackagePrefix name
  match findEnumNamed normalized file.enums with
  | some found => some found
  | none => findEnumDeepIn normalized file.messages

end FileDescriptor

namespace FileDescriptor

def setSyntax (file : FileDescriptor) (fileSyntax : Syntax) : FileDescriptor :=
  { file with
    fileSyntax := fileSyntax
    edition := fileSyntax.defaultEdition
    features := FeatureSet.defaults fileSyntax }

def setEdition (file : FileDescriptor) (edition : Edition) : FileDescriptor :=
  { file with
    fileSyntax := .editions
    edition := edition
    features := FeatureSet.defaults .editions }

def addOption (file : FileDescriptor) (option : FieldOption) : FileDescriptor :=
  { file with
    options := file.options ++ [option]
    features :=
      if (ascii "features.").isPrefixOf option.name then
        file.features.applyOption option.name option.value
      else file.features }

end FileDescriptor

namespace EnumDescriptor

def findValue (enumeration : EnumDescriptor) (name : Bytes) : Option EnumValueDescriptor :=
  enumeration.values.find? (fun value => value.name == name)

def hasNumber (enumeration : EnumDescriptor) (number : BitVec 32) : Bool :=
  enumeration.values.any (fun value => value.number == number)

end EnumDescriptor

/-- The message types of a file, at any depth. -/
inductive DeclaredIn (file : FileDescriptor) : MessageDescriptor → Prop where
  | top {message : MessageDescriptor} : message ∈ file.messages → DeclaredIn file message
  | nested {outer message : MessageDescriptor} : DeclaredIn file outer →
      message ∈ outer.messages → DeclaredIn file message

end Pbz
