import Pbz.Lib.Check
import Pbz.Parser.Literal

set_option autoImplicit false

/-! # The checks of single declarations

What the parser checks of an enum and of a message when it has read its closing brace.
-/

namespace Pbz

namespace Parser

open Check

/-! ## Enums -/

def validateEnumReserved (enumeration : EnumDescriptor) : Except ParseError Unit := do
  let maxEnd : Int := 2 ^ 63 - 1
  forTails (fun range others => do
    reject (range.start ≥ range.effectiveEnd maxEnd) .invalidRange
    forEach (fun (other : ReservedRange) => do
      reject (other.start ≥ other.effectiveEnd maxEnd) .invalidRange
      reject (range.overlapsWithMax other maxEnd) .invalidRange) others) enumeration.reservedRanges
  forTails (fun name others => forEach (fun other => reject (name == other) .reservedField) others)
    enumeration.reservedNames
  forEach (fun (value : EnumValueDescriptor) => do
    forEach (fun (range : ReservedRange) =>
      reject (range.containsWithMax value.number.toInt maxEnd) .reservedField)
      enumeration.reservedRanges
    forEach (fun name => reject (value.name == name) .reservedField) enumeration.reservedNames)
    enumeration.values

/-- `enumAliasState`: the value of the first `allow_alias` option, if there is one. -/
def enumAliasState (enumeration : EnumDescriptor) : Option Bool :=
  (enumeration.options.find? (fun option => option.name == ascii "allow_alias")).map
    (fun option => (optionAsBool option.value).getD false)

def validateEnumValueCanonicalNames (enumeration : EnumDescriptor) : Except ParseError Unit :=
  forTails (fun (value : EnumValueDescriptor) others =>
    forEach (fun (other : EnumValueDescriptor) =>
      reject (enumValueCanonicalKey enumeration.name value.name ==
          enumValueCanonicalKey enumeration.name other.name
        && value.name != other.name && value.number != other.number) .duplicateEnumValue) others)
    enumeration.values

def validateEnum (enumeration : EnumDescriptor) (fileSyntax : Syntax) : Except ParseError Unit := do
  reject enumeration.values.isEmpty .invalidEnum
  reject (fileSyntax == .proto3 && enumeration.values.head?.any (·.number != 0)) .invalidEnum
  validateEnumReserved enumeration
  let aliasState := enumAliasState enumeration
  let allowAlias := aliasState.getD false
  reject (aliasState == some false) .invalidEnum
  forTails (fun (value : EnumValueDescriptor) others =>
    forEach (fun (other : EnumValueDescriptor) => do
      reject (value.name == other.name) .duplicateEnumValue
      reject (value.number == other.number && !allowAlias) .duplicateEnumValue) others)
    enumeration.values
  let hasDuplicateNumbers := !(enumeration.values.map (·.number)).Nodup
  reject (allowAlias && !hasDuplicateNumbers) .invalidEnum
  validateEnumValueCanonicalNames enumeration

/-! ## Messages -/

def validateReserved (message : MessageDescriptor) : Except ParseError Unit := do
  let maxEnd := message.extensionRangeMaxExclusive
  let validRange (range : ReservedRange) : Except ParseError Unit := do
    reject (range.start ≤ 0 || range.start ≥ maxEnd) .invalidRange
    reject (range.end.any (· > maxEnd)) .invalidRange
    reject (range.effectiveEnd maxEnd ≤ range.start) .invalidRange
  forTails (fun range others => do
    validRange range
    forEach (fun (other : ReservedRange) => do
      validRange other
      reject (range.overlapsWithMax other maxEnd) .invalidRange) others) message.reservedRanges
  forTails (fun name others => forEach (fun other => reject (name == other) .reservedField) others)
    message.reservedNames

def validateExtensionRanges (message : MessageDescriptor) (fileSyntax : Syntax) :
    Except ParseError Unit := do
  reject (fileSyntax == .proto3 && !message.extensionRanges.isEmpty) .invalidSyntax
  let maxEnd := message.extensionRangeMaxExclusive
  let validRange (range : ExtensionRange) : Except ParseError Unit :=
    reject (range.start ≤ 0 || range.start ≥ range.effectiveEnd message || range.start ≥ maxEnd
      || range.effectiveEnd message > maxEnd) .invalidRange
  forTails (fun range others => do
    validRange range
    forEach (fun (other : ExtensionRange) => do
      validRange other
      reject (range.overlapsInMessage message other) .invalidRange) others
    forEach (fun (reserved : ReservedRange) =>
      reject ((ReservedRange.mk range.start range.end).overlapsWithMax reserved maxEnd)
        .invalidRange) message.reservedRanges) message.extensionRanges

def validateOneofs (message : MessageDescriptor) : Except ParseError Unit :=
  forTails (fun (oneof : OneofDescriptor) others => do
    reject (!message.fields.any (fun field => field.oneofName == some oneof.name)) .invalidFieldType
    forEach (fun (other : OneofDescriptor) => reject (oneof.name == other.name) .duplicateOneof)
      others
    forEach (fun (field : FieldDescriptor) => reject (oneof.name == field.name) .duplicateOneof)
      message.fields) message.oneofs

def effectiveJsonNamesEqual (a b : FieldDescriptor) : Bool :=
  match a.jsonName, b.jsonName with
  | some aJson, some bJson => aJson == bJson
  | some aJson, none => eqlDefaultJsonName b.name aJson
  | none, some bJson => eqlDefaultJsonName a.name bJson
  | none, none => defaultJsonNamesEqual a.name b.name

def validateJsonNames (message : MessageDescriptor) : Except ParseError Unit :=
  forTails (fun (field : FieldDescriptor) others => do
    match field.jsonName with
    | some jsonName => do
        reject (jsonName.contains 0) .invalidFieldType
        reject (jsonNameLooksLikeExtension jsonName) .invalidFieldType
    | none => .ok ()
    forEach (fun (other : FieldDescriptor) => do
      reject (defaultJsonNamesEqual field.name other.name) .duplicateField
      reject (effectiveJsonNamesEqual field other) .duplicateField) others) message.fields

def validateMessageFields (message : MessageDescriptor) (fileSyntax : Syntax) :
    Except ParseError Unit := do
  validateReserved message
  validateExtensionRanges message fileSyntax
  validateOneofs message
  validateJsonNames message
  let maxEnd := message.extensionRangeMaxExclusive
  forTails (fun (field : FieldDescriptor) others => do
    forEach (fun (other : FieldDescriptor) =>
      reject (field.number == other.number || field.name == other.name) .duplicateField) others
    forEach (fun (range : ReservedRange) =>
      reject (range.containsWithMax field.number maxEnd) .reservedField) message.reservedRanges
    forEach (fun (range : ExtensionRange) =>
      reject (range.containsInMessage message field.number) .reservedField) message.extensionRanges
    forEach (fun name => reject (field.name == name) .reservedField) message.reservedNames)
    message.fields

end Parser

end Pbz
