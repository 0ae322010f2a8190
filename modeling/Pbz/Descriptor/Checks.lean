import Pbz.Descriptor.Fields
import Pbz.Parser.Validate

set_option autoImplicit false

/-! # The checks of decoded descriptors

What `descriptor.zig` checks of a message, an enum or a range when its loop has come to the end of
the payload. The checks look at descriptors and not at bytes, and reject with the same error
throughout.
-/

namespace Pbz

namespace Descriptor

open Check

def refuse (condition : Bool) : Except Error Unit := reject condition .invalidFieldType

/-- No name of a list equals `name`. -/
def refuseName (name : Bytes) (names : List Bytes) : Except Error Unit :=
  forEach (fun other => refuse (name == other)) names

def isIdentifier (value : Bytes) : Bool :=
  match value with
  | [] => false
  | c :: rest => isIdentStart c && rest.all isIdentContinue

def isTypeNameReference (value : Bytes) : Bool :=
  !value.isEmpty && isFullIdentifier (normalizeName value)

def isExtensionDeclarationTypeName (value : Bytes) : Bool :=
  declarationTypeNameIsScalar value || declarationSymbolIsQualified value

/-! ## Fields -/

def validateDecodedFieldJsonName (field : FieldDescriptor) (isExtension : Bool) :
    Except Error Unit :=
  match field.jsonName with
  | none => .ok ()
  | some jsonName => do
      refuse (jsonName.contains 0)
      let isCustom := !eqlDefaultJsonName field.name jsonName
      refuse (isExtension && isCustom)
      refuse (isCustom && jsonNameLooksLikeExtension jsonName)

def validateDecodedExtensionFieldDescriptor (field : FieldDescriptor) : Except Error Unit :=
  match field.extendee with
  | none => .error .invalidFieldType
  | some extendee => do
      refuse (!isTypeNameReference extendee)
      validateDecodedFieldJsonName field true

def customJsonName (field : FieldDescriptor) : Option Bytes :=
  field.jsonName.filter (fun jsonName => !eqlDefaultJsonName field.name jsonName)

def effectiveJsonNamesEqual (a b : FieldDescriptor) : Bool :=
  match customJsonName a, customJsonName b with
  | some aJson, some bJson => aJson == bJson
  | some aJson, none => eqlDefaultJsonName b.name aJson
  | none, some bJson => eqlDefaultJsonName a.name bJson
  | none, none => defaultJsonNamesEqual a.name b.name

def validateDecodedFieldJsonNameUniqueness (fields : List FieldDescriptor) :
    Except Error Unit := do
  forTails (fun (field : FieldDescriptor) others =>
    forEach (fun (other : FieldDescriptor) =>
      refuse (defaultJsonNamesEqual field.name other.name)) others) fields
  forTails (fun field others =>
    forEach (fun other => refuse (effectiveJsonNamesEqual field other)) others) fields

/-! ## Ranges -/

def validateDecodedReservedRanges (ranges : List ReservedRange) (names : List Bytes)
    (isEnum : Bool) (maxEnd : Int) : Except Error Unit := do
  let inBounds (range : ReservedRange) : Except Error Unit :=
    if isEnum then .ok ()
    else do
      refuse (range.start ≤ 0 || range.start ≥ maxEnd)
      refuse (range.end.any (· > maxEnd))
  forTails (fun range others => do
    inBounds range
    refuse (range.effectiveEnd maxEnd ≤ range.start)
    forEach (fun (other : ReservedRange) => do
      inBounds other
      refuse (range.overlapsWithMax other maxEnd)) others) ranges
  forTails (fun name others => do
    refuse name.isEmpty
    refuseName name others) names

def validateDecodedExtensionRangeBounds (message : MessageDescriptor) (range : ExtensionRange) :
    Except Error Unit := do
  let maxEnd := message.extensionRangeMaxExclusive
  refuse (range.start ≤ 0 || range.start ≥ maxEnd)
  refuse (range.end.any (· > maxEnd))
  refuse (range.effectiveEnd message ≤ range.start)

def validateDecodedExtensionRanges (message : MessageDescriptor) : Except Error Unit :=
  forTails (fun range others => do
    validateDecodedExtensionRangeBounds message range
    forEach (fun (other : ExtensionRange) => do
      validateDecodedExtensionRangeBounds message other
      refuse (range.overlapsInMessage message other)) others
    forEach (fun (reserved : ReservedRange) =>
      refuse ((ReservedRange.mk range.start range.end).overlapsWithMax reserved
        message.extensionRangeMaxExclusive)) message.reservedRanges) message.extensionRanges

def validateDecodedExtensionDeclarationShape (declaration : ExtensionDeclaration) :
    Except Error Unit :=
  let hasFullName := !declaration.fullName.isEmpty
  let hasType := !declaration.typeName.isEmpty
  if !hasFullName || !hasType then refuse (hasFullName != hasType || !declaration.reserved)
  else do
    refuse (!declarationSymbolIsQualified declaration.fullName)
    refuse (!isExtensionDeclarationTypeName declaration.typeName)

def validateDecodedExtensionRange (range : ExtensionRange) : Except Error Unit := do
  refuse (range.start ≤ 0)
  refuse (!range.declarations.isEmpty && range.verification == some .unverified)
  let «end» := range.end.getD (2 ^ 63 - 1)
  refuse («end» ≤ range.start)
  forTails (fun (declaration : ExtensionDeclaration) others => do
    refuse (declaration.number ≤ 0)
    refuse (declaration.number < range.start || declaration.number ≥ «end»)
    validateDecodedExtensionDeclarationShape declaration
    forEach (fun (other : ExtensionDeclaration) => do
      refuse (declaration.number == other.number)
      refuse (!declaration.fullName.isEmpty && !other.fullName.isEmpty
        && declaration.fullName == other.fullName)) others) range.declarations

def validateDecodedExtensionDeclarationNames (ranges : List ExtensionRange) : Except Error Unit :=
  forTails (fun (range : ExtensionRange) otherRanges =>
    forEach (fun (declaration : ExtensionDeclaration) =>
      if declaration.fullName.isEmpty then .ok ()
      else forEach (fun (otherRange : ExtensionRange) =>
        refuseName declaration.fullName (otherRange.declarations.map (·.fullName))) otherRanges)
      range.declarations) ranges

/-! ## Enums -/

def validateEnumValueCanonicalNames (enumeration : EnumDescriptor) : Except Error Unit :=
  forTails (fun (value : EnumValueDescriptor) others =>
    forEach (fun (other : EnumValueDescriptor) =>
      refuse (enumValueCanonicalKey enumeration.name value.name ==
          enumValueCanonicalKey enumeration.name other.name
        && value.name != other.name && value.number != other.number)) others) enumeration.values

def validateEnumDescriptor (enumeration : EnumDescriptor) : Except Error Unit := do
  refuse (!isIdentifier enumeration.name || enumeration.values.isEmpty)
  let aliasState := Parser.enumAliasState enumeration
  let allowAlias := aliasState.getD false
  refuse (aliasState == some false)
  let maxEnd : Int := 2 ^ 63 - 1
  forTails (fun (value : EnumValueDescriptor) others => do
    refuse (!isIdentifier value.name)
    forEach (fun (other : EnumValueDescriptor) => do
      refuse (value.name == other.name)
      refuse (value.number == other.number && !allowAlias)) others
    forEach (fun (range : ReservedRange) => refuse (range.containsWithMax value.number.toInt maxEnd))
      enumeration.reservedRanges
    refuseName value.name enumeration.reservedNames) enumeration.values
  let hasDuplicateNumbers := !(enumeration.values.map (·.number)).Nodup
  refuse (allowAlias && !hasDuplicateNumbers)
  validateEnumValueCanonicalNames enumeration
  validateDecodedReservedRanges enumeration.reservedRanges enumeration.reservedNames true maxEnd

/-! ## Messages -/

def validateDecodedMessageEnumValueSymbols (message : MessageDescriptor) : Except Error Unit :=
  forTails (fun (enumeration : EnumDescriptor) others =>
    forEach (fun (value : EnumValueDescriptor) => do
      refuseName value.name (message.fields.map (·.name))
      refuseName value.name (message.oneofs.map (·.name))
      refuseName value.name (message.messages.map (·.name))
      refuseName value.name (message.enums.map (·.name))
      refuseName value.name (message.extensions.map (·.name))
      forEach (fun (other : EnumDescriptor) => refuseName value.name (other.values.map (·.name)))
        others) enumeration.values) message.enums

def validateDecodedMessageDescriptor (message : MessageDescriptor) : Except Error Unit := do
  refuse (!isIdentifier message.name)
  let maxEnd := message.extensionRangeMaxExclusive
  forTails (fun (field : FieldDescriptor) others => do
    refuse (!isIdentifier field.name || field.number == 0)
    validateDecodedFieldJsonName field false
    forEach (fun (other : FieldDescriptor) =>
      refuse (field.number == other.number || field.name == other.name)) others
    forEach (fun (range : ReservedRange) => refuse (range.containsWithMax field.number maxEnd))
      message.reservedRanges
    forEach (fun (range : ExtensionRange) => refuse (range.containsInMessage message field.number))
      message.extensionRanges
    refuseName field.name message.reservedNames) message.fields
  forTails (fun (oneof : OneofDescriptor) others => do
    refuse (!isIdentifier oneof.name)
    refuseName oneof.name (others.map (·.name))
    refuseName oneof.name (message.fields.map (·.name))) message.oneofs
  forTails (fun (nested : MessageDescriptor) others => do
    refuseName nested.name (others.map (·.name))
    refuseName nested.name (message.enums.map (·.name))
    refuseName nested.name (message.fields.map (·.name))
    refuseName nested.name (message.oneofs.map (·.name))) message.messages
  forTails (fun (enumeration : EnumDescriptor) others => do
    refuseName enumeration.name (others.map (·.name))
    refuseName enumeration.name (message.fields.map (·.name))
    refuseName enumeration.name (message.oneofs.map (·.name))) message.enums
  forTails (fun (extension : FieldDescriptor) others => do
    refuse (!isIdentifier extension.name)
    refuseName extension.name (message.fields.map (·.name))
    refuseName extension.name (message.oneofs.map (·.name))
    refuseName extension.name (message.messages.map (·.name))
    refuseName extension.name (message.enums.map (·.name))
    refuseName extension.name (others.map (·.name))) message.extensions
  validateDecodedMessageEnumValueSymbols message
  validateDecodedFieldJsonNameUniqueness message.fields
  forEach validateDecodedExtensionFieldDescriptor message.extensions
  validateDecodedExtensionRanges message
  validateDecodedExtensionDeclarationNames message.extensionRanges
  validateDecodedReservedRanges message.reservedRanges message.reservedNames false maxEnd

/-- From the first member of a oneof to its last one, all fields are members. -/
def validateDecodedOneofFieldContiguity (message : MessageDescriptor) : Except Error Unit :=
  forEach (fun (oneof : OneofDescriptor) =>
    let isOutside (field : FieldDescriptor) : Bool := field.oneofName != some oneof.name
    let fromFirst := message.fields.dropWhile isOutside
    forEach (fun field => refuse (isOutside field)) (fromFirst.reverse.dropWhile isOutside))
    message.oneofs

def validateDecodedOneofFieldShape (field : FieldDescriptor) : Except Error Unit :=
  if field.oneofName.isNone then .ok ()
  else do
    refuse field.extendee.isSome
    refuse (field.cardinality != .optional)
    refuse (field.kind.isMap || field.kind.isGroup)

/-- Each oneof has members, and the synthetic ones come last. -/
def validateSyntheticOneofs (fields : List FieldDescriptor) :
    Bool → List OneofDescriptor → Except Error Unit
  | _, [] => .ok ()
  | sawSynthetic, oneof :: rest => do
      let members := fields.filter (fun field => field.oneofName == some oneof.name)
      refuse members.isEmpty
      if members.length == 1 && members.all (·.proto3Optional) then
        validateSyntheticOneofs fields true rest
      else do
        refuse sawSynthetic
        validateSyntheticOneofs fields sawSynthetic rest

def validateDecodedProto3OptionalFields (message : MessageDescriptor) : Except Error Unit := do
  validateSyntheticOneofs message.fields false message.oneofs
  forEach (fun (field : FieldDescriptor) =>
    if !field.proto3Optional then .ok ()
    else do
      refuse field.oneofName.isNone
      refuse (field.cardinality != .optional || field.kind.isMap || field.kind.isGroup)
      refuse ((message.fields.countP (fun other => other.oneofName == field.oneofName)) != 1))
    message.fields

end Descriptor

end Pbz
