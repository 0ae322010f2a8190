import Pbz.Descriptor.Fields
import Pbz.Parser.Aggregate

set_option autoImplicit false

/-! # Decoding options

The decoding functions of the messages that stand inside options, and of the options themselves.
The source reads most options into a list of names and values: such a case is a `boolOption`, a
`stringOption` or an `enumOption` under the name that the source gives it.
-/

namespace Pbz

namespace Descriptor

variable {σ : Type}

/-! ## Features -/

/-- A feature: number 0 leaves it as it is, each other known number sets it. -/
def featureField (values : FeatureSet → List (BitVec 32 × FeatureSet)) : Known FeatureSet :=
  .int32 fun features number =>
    if number = 0 then .ok features
    else match (values features).lookup number with
      | some features => .ok features
      | none => .error .invalidFieldType

def decodeFeatureSet : Bytes → Reading FeatureSet :=
  decodeFields .featureSet
    [(1, featureField fun features =>
        [(1, { features with fieldPresence := .explicit }),
          (2, { features with fieldPresence := .implicit }),
          (3, { features with fieldPresence := .legacyRequired })]),
      (2, featureField fun features =>
        [(1, { features with enumType := .open }), (2, { features with enumType := .closed })]),
      (3, featureField fun features =>
        [(1, { features with repeatedFieldEncoding := .packedEncoding }),
          (2, { features with repeatedFieldEncoding := .expanded })]),
      (4, featureField fun features =>
        [(2, { features with utf8Validation := .verify }),
          (3, { features with utf8Validation := .none })]),
      (5, featureField fun features =>
        [(1, { features with messageEncoding := .lengthPrefixed }),
          (2, { features with messageEncoding := .delimited })]),
      (6, featureField fun features =>
        [(1, { features with jsonFormat := .allow }),
          (2, { features with jsonFormat := .legacyBestEffort })]),
      (7, featureField fun features =>
        [(1, { features with enforceNamingStyle := .style2024 }),
          (2, { features with enforceNamingStyle := .styleLegacy }),
          (3, { features with enforceNamingStyle := .style2026 })]),
      (8, featureField fun features =>
        [(1, { features with defaultSymbolVisibility := .exportAll }),
          (2, { features with defaultSymbolVisibility := .exportTopLevel }),
          (3, { features with defaultSymbolVisibility := .localAll }),
          (4, { features with defaultSymbolVisibility := .strict })]),
      (9, featureField fun features =>
        [(1, { features with enforceProtoLimits := .legacyNoExplicitLimits }),
          (2, { features with enforceProtoLimits := .protoLimits2026 })])]
    {}

/-- `std.enums.fromInt(schema.Edition, _)`, or the error of decoding. -/
def editionFromInt (number : BitVec 32) : Except Error Edition :=
  match Edition.fromInt number.toInt with
  | some edition => .ok edition
  | none => .error .invalidFieldType

def decodeFeatureSupport (bytes : Bytes) : Reading FeatureSupport :=
  (decodeFields .featureSupport
    [(1, .int32 fun support number => do
        return { support with editionIntroduced := some (← editionFromInt number) }),
      (2, .int32 fun support number => do
        return { support with editionDeprecated := some (← editionFromInt number) }),
      (3, .string fun support text => { support with deprecationWarning := text }),
      (4, .int32 fun support number => do
        return { support with editionRemoved := some (← editionFromInt number) }),
      (5, .string fun support text => { support with removalError := text })]
    {} bytes).andThen fun (support : FeatureSupport) =>
      match support.validate with
      | .error _ => .error .invalidFieldType
      | .ok _ => .ok support

def decodeFieldEditionDefault : Bytes → Reading FieldEditionDefault :=
  decodeFields .fieldEditionDefault
    [(2, .string fun result text => { result with value := text }),
      (3, .int32 fun result number => do return { result with edition := ← editionFromInt number })]
    {}

/-! ## Uninterpreted options -/

/-- An integer of `u64` as an option value. -/
def unsignedDefaultOption (value : Nat) : OptionValue :=
  if value ≤ 2 ^ 63 - 1 then .integer value else .unsignedInteger value

structure UninterpretedNamePart where
  name : Bytes := []
  isExtension : Bool := false

def decodeUninterpretedNamePart : Bytes → Reading UninterpretedNamePart :=
  decodeFields .uninterpretedNamePart
    [(1, .string fun part name => { part with name := name }),
      (2, .bool fun part isExtension => { part with isExtension := isExtension })]
    {}

structure UninterpretedState where
  nameBytes : Bytes := []
  sawName : Bool := false
  value : OptionValue := .identifier []

/-- Append a part of the name; the name of an extension stands in parentheses. -/
def UninterpretedState.addPart (state : UninterpretedState) (part : UninterpretedNamePart) :
    UninterpretedState :=
  let written :=
    if part.isExtension && !(part.name.head? == some 0x28 && part.name.getLast? == some 0x29) then
      0x28 :: part.name ++ [0x29]
    else part.name
  { state with
    nameBytes := state.nameBytes ++ (if state.sawName then [0x2e] else []) ++ written
    sawName := true }

def decodeUninterpretedOption (bytes : Bytes) : Reading FieldOption :=
  (decodeFields .uninterpretedOption
    [(2, .message (nested decodeUninterpretedNamePart fun state part => .ok (state.addPart part))),
      (3, .string fun state text => { state with value := .identifier text }),
      (4, .uint64 fun state value => { state with value := unsignedDefaultOption value }),
      (5, .int64 fun state value => { state with value := .integer value.toInt }),
      (6, .double fun state bits => { state with value := .float bits }),
      (7, .string fun state text => { state with value := .string text }),
      (8, .string fun state text => { state with value := .aggregate text })]
    ({} : UninterpretedState) bytes).andThen fun state =>
      .ok { name := state.nameBytes, value := state.value }

/-! ## Options -/

section

variable (add : σ → FieldOption → σ) (name : String)

def boolOption : Known σ :=
  .bool fun state value => add state { name := ascii name, value := .boolean value }

def stringOption : Known σ :=
  .string fun state text => add state { name := ascii name, value := .string text }

/-- An option with the value of `readKnownEnumNumber`. -/
def enumOption (min max : Int) : Known σ :=
  .int32 fun state number =>
    if number.toInt < min ∨ number.toInt > max then .error .invalidFieldType
    else .ok (add state { name := ascii name, value := .integer number.toInt })

/-- `appendFieldOption` of a decoded option. -/
def uninterpretedOption : Known σ :=
  .message (nested decodeUninterpretedOption fun state option => .ok (add state option))

end

def featureSetField (set : σ → FeatureSet → σ) : Known σ :=
  .message (nested decodeFeatureSet fun state features => .ok (set state features))

def featureSupportField (set : σ → FeatureSupport → σ) : Known σ :=
  .message (nested decodeFeatureSupport fun state support => .ok (set state support))

def addEnumOption (enumeration : EnumDescriptor) (option : FieldOption) : EnumDescriptor :=
  { enumeration with options := enumeration.options ++ [option] }

def decodeEnumOptions (enumeration : EnumDescriptor) : Bytes → Reading EnumDescriptor :=
  decodeFields .enumOptions
    [(2, boolOption addEnumOption "allow_alias"),
      (3, boolOption addEnumOption "deprecated"),
      (6, boolOption addEnumOption "deprecated_legacy_json_field_conflicts"),
      (7, featureSetField fun enumeration features =>
        { enumeration with features := some features }),
      (999, uninterpretedOption addEnumOption)]
    enumeration

def addEnumValueOption (value : EnumValueDescriptor) (option : FieldOption) :
    EnumValueDescriptor :=
  { value with options := value.options ++ [option] }

def decodeEnumValueOptions (value : EnumValueDescriptor) : Bytes → Reading EnumValueDescriptor :=
  decodeFields .enumValueOptions
    [(1, boolOption addEnumValueOption "deprecated"),
      (2, featureSetField fun value features => { value with features := some features }),
      (3, boolOption addEnumValueOption "debug_redact"),
      (4, featureSupportField fun value support => { value with featureSupport := some support }),
      (999, uninterpretedOption addEnumValueOption)]
    value

def addOneofOption (oneof : OneofDescriptor) (option : FieldOption) : OneofDescriptor :=
  { oneof with options := oneof.options ++ [option] }

def decodeOneofOptions (oneof : OneofDescriptor) : Bytes → Reading OneofDescriptor :=
  decodeFields .oneofOptions
    [(1, featureSetField fun oneof features => { oneof with features := some features }),
      (999, uninterpretedOption addOneofOption)]
    oneof

def addServiceOption (service : ServiceDescriptor) (option : FieldOption) : ServiceDescriptor :=
  { service with options := service.options ++ [option] }

def decodeServiceOptions (service : ServiceDescriptor) : Bytes → Reading ServiceDescriptor :=
  decodeFields .serviceOptions
    [(33, boolOption addServiceOption "deprecated"),
      (34, featureSetField fun service features => { service with features := some features }),
      (999, uninterpretedOption addServiceOption)]
    service

def addMethodOption (method : MethodDescriptor) (option : FieldOption) : MethodDescriptor :=
  { method with options := method.options ++ [option] }

def decodeMethodOptions (method : MethodDescriptor) : Bytes → Reading MethodDescriptor :=
  decodeFields .methodOptions
    [(33, boolOption addMethodOption "deprecated"),
      (34, enumOption addMethodOption "idempotency_level" 0 2),
      (35, featureSetField fun method features => { method with features := some features }),
      (999, uninterpretedOption addMethodOption)]
    method

def addMessageOption (message : MessageDescriptor) (option : FieldOption) : MessageDescriptor :=
  { message with options := message.options ++ [option] }

def decodeMessageOptions (message : MessageDescriptor) : Bytes → Reading MessageDescriptor :=
  decodeFields .messageOptions
    [(1, boolOption addMessageOption "message_set_wire_format"),
      (2, boolOption addMessageOption "no_standard_descriptor_accessor"),
      (3, boolOption addMessageOption "deprecated"),
      (7, .bool fun message mapEntry => { message with mapEntry := mapEntry }),
      (11, boolOption addMessageOption "deprecated_legacy_json_field_conflicts"),
      (12, featureSetField fun message features => { message with features := some features }),
      (999, uninterpretedOption addMessageOption)]
    message

/-- The file and whether its features have been set. -/
abbrev FileOptionsState := FileDescriptor × Bool

/-- An option of the file itself; `FileDescriptor.addOption` is the parser's. -/
def addFileOption (state : FileOptionsState) (option : FieldOption) : FileOptionsState :=
  ({ state.1 with options := state.1.options ++ [option] }, state.2)

def decodeFileOptions (file : FileDescriptor) : Bytes → Reading FileOptionsState :=
  decodeFields .fileOptions
    [(1, stringOption addFileOption "java_package"),
      (8, stringOption addFileOption "java_outer_classname"),
      (9, enumOption addFileOption "optimize_for" 1 3),
      (10, boolOption addFileOption "java_multiple_files"),
      (11, stringOption addFileOption "go_package"),
      (16, boolOption addFileOption "cc_generic_services"),
      (17, boolOption addFileOption "java_generic_services"),
      (18, boolOption addFileOption "py_generic_services"),
      (20, boolOption addFileOption "java_generate_equals_and_hash"),
      (23, boolOption addFileOption "deprecated"),
      (27, boolOption addFileOption "java_string_check_utf8"),
      (31, boolOption addFileOption "cc_enable_arenas"),
      (36, stringOption addFileOption "objc_class_prefix"),
      (37, stringOption addFileOption "csharp_namespace"),
      (39, stringOption addFileOption "swift_prefix"),
      (40, stringOption addFileOption "php_class_prefix"),
      (41, stringOption addFileOption "php_namespace"),
      (44, stringOption addFileOption "php_metadata_namespace"),
      (45, stringOption addFileOption "ruby_package"),
      (50, featureSetField fun state features => ({ state.1 with features := features }, true)),
      (999, uninterpretedOption addFileOption)]
    (file, false)

structure DecodedFieldOptions where
  packedOverride : Option Bool := none
  options : List FieldOption := []
  editionDefaults : List FieldEditionDefault := []
  features : Option FeatureSet := none
  featureSupport : Option FeatureSupport := none

def DecodedFieldOptions.add (result : DecodedFieldOptions) (option : FieldOption) :
    DecodedFieldOptions :=
  { result with options := result.options ++ [option] }

def decodeFieldOptions : Bytes → Reading DecodedFieldOptions :=
  decodeFields .fieldOptions
    [(1, enumOption DecodedFieldOptions.add "ctype" 0 2),
      (2, .bool fun result isPacked => { result with packedOverride := some isPacked }),
      (3, boolOption DecodedFieldOptions.add "deprecated"),
      (5, boolOption DecodedFieldOptions.add "lazy"),
      (6, enumOption DecodedFieldOptions.add "jstype" 0 2),
      (10, boolOption DecodedFieldOptions.add "weak"),
      (15, boolOption DecodedFieldOptions.add "unverified_lazy"),
      (16, boolOption DecodedFieldOptions.add "debug_redact"),
      (17, enumOption DecodedFieldOptions.add "retention" 0 2),
      (19, enumOption DecodedFieldOptions.add "targets" 0 9),
      (20, .message (nested decodeFieldEditionDefault fun result editionDefault =>
        .ok { result with editionDefaults := result.editionDefaults ++ [editionDefault] })),
      (21, featureSetField fun result features => { result with features := some features }),
      (22, featureSupportField fun result support =>
        { result with featureSupport := some support }),
      (999, uninterpretedOption DecodedFieldOptions.add)]
    {}

/-! ## Extension ranges -/

def decodeExtensionDeclaration : Bytes → Reading ExtensionDeclaration :=
  decodeFields .extensionDeclaration
    [(1, .int32 fun declaration number => .ok { declaration with number := number.toInt }),
      (2, .string fun declaration name => { declaration with fullName := name }),
      (3, .string fun declaration name => { declaration with typeName := name }),
      (5, .bool fun declaration reserved => { declaration with reserved := reserved }),
      (6, .bool fun declaration repeated => { declaration with repeated := repeated })]
    {}

def extensionRangeVerificationFromInt (number : BitVec 32) :
    Except Error ExtensionRangeVerification :=
  if number = 0 then .ok .declaration
  else if number = 1 then .ok .unverified
  else .error .invalidFieldType

def addExtensionRangeOption (range : ExtensionRange) (option : FieldOption) : ExtensionRange :=
  { range with options := range.options ++ [option] }

def decodeExtensionRangeOptions (range : ExtensionRange) : Bytes → Reading ExtensionRange :=
  decodeFields .extensionRangeOptions
    [(2, .message (nested decodeExtensionDeclaration fun range declaration =>
        .ok { range with declarations := range.declarations ++ [declaration] })),
      (3, .int32 fun range number => do
        return { range with verification := some (← extensionRangeVerificationFromInt number) }),
      (50, featureSetField fun range features => { range with features := some features }),
      (999, uninterpretedOption addExtensionRangeOption)]
    range

end Descriptor

end Pbz
