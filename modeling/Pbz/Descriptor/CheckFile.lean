import Pbz.Descriptor.Checks
import Pbz.Lib.SwapRemove
import Pbz.Parser.ValidateFile

set_option autoImplicit false

/-! # The checks of a decoded file

What `decodeFileDescriptorProto` does when everything has been read: it marks the kinds of the
imports, turns the entry types of maps into maps and checks what needs the whole file. Where the
source has the text of a function of `parser.zig` once more, that function is named here. -/

namespace Pbz

namespace Descriptor

open Check

mutual

/-- Messages, each one before those nested in it. -/
def withNested : List MessageDescriptor → List MessageDescriptor
  | [] => []
  | message :: rest => message :: (nestedIn message ++ withNested rest)

def nestedIn : MessageDescriptor → List MessageDescriptor
  | { messages, .. } => withNested messages

end

/-- The fields of a file at all levels, each with whether it is an extension. -/
def forEachField (file : FileDescriptor) (check : FieldDescriptor → Bool → Except Error Unit) :
    Except Error Unit := do
  forEach (check · true) file.extensions
  forEach (fun (message : MessageDescriptor) => do
    forEach (check · false) message.fields
    forEach (check · true) message.extensions) (withNested file.messages)

def validateDecodedFileEdition (file : FileDescriptor) (sawSyntax : Option Syntax)
    (sawEditionField : Bool) : Except Error Unit := do
  refuse (sawEditionField && sawSyntax.any (· != .editions))
  refuse (file.fileSyntax == .editions && (file.edition == .unknown || file.edition == .max))

def validateImportList (imports : List Import) : Except Error Unit :=
  forTails (fun (item : Import) others => do
    refuse item.path.isEmpty
    refuseName item.path (others.map (·.path))) imports

def validateDependencyIndexes (publicDeps weakDeps : List (BitVec 32)) (dependencyCount : Nat) :
    Except Error Unit := do
  let inList (index : BitVec 32) : Except Error Unit :=
    refuse (index.toInt < 0 || index.toInt ≥ dependencyCount)
  forTails (fun (index : BitVec 32) others => do
    inList index
    forEach (fun other => refuse (index == other)) others
    forEach (fun weak => refuse (index == weak)) weakDeps) publicDeps
  forTails (fun (index : BitVec 32) others => do
    inList index
    forEach (fun other => refuse (index == other)) others) weakDeps

def validateDecodedImportSemantics (file : FileDescriptor) : Except Error Unit :=
  forEach (fun (item : Import) =>
    if item.kind == .option then refuse (file.edition.number < Edition.edition2024.number)
    else refuse (file.edition.number ≥ Edition.edition2024.number && item.kind == .weak))
    file.imports

def validateDecodedServiceMethodType (file : FileDescriptor) (typeName : Bytes) :
    Except Error Unit :=
  refuse ((file.findMessageDeep typeName).isNone && (file.findEnumDeep typeName).isSome)

def validateDecodedFileEnumValueSymbols (file : FileDescriptor) : Except Error Unit :=
  forTails (fun (enumeration : EnumDescriptor) others =>
    forEach (fun (value : EnumValueDescriptor) => do
      refuseName value.name (file.messages.map (·.name))
      refuseName value.name (file.enums.map (·.name))
      refuseName value.name (file.services.map (·.name))
      refuseName value.name (file.extensions.map (·.name))
      forEach (fun (other : EnumDescriptor) => refuseName value.name (other.values.map (·.name)))
        others) enumeration.values) file.enums

def validateDecodedFileDescriptor (file : FileDescriptor) : Except Error Unit := do
  refuse (!file.package.isEmpty && !isFullIdentifier file.package)
  forTails (fun (message : MessageDescriptor) others => do
    refuse (!isIdentifier message.name)
    refuse message.mapEntry
    refuseName message.name (others.map (·.name))
    refuseName message.name (file.enums.map (·.name))
    refuseName message.name (file.services.map (·.name))) file.messages
  forTails (fun (enumeration : EnumDescriptor) others => do
    refuse (!isIdentifier enumeration.name)
    refuseName enumeration.name (others.map (·.name))
    refuseName enumeration.name (file.services.map (·.name))) file.enums
  forTails (fun (service : ServiceDescriptor) others => do
    refuse (!isIdentifier service.name)
    refuseName service.name (others.map (·.name))
    forEach (fun (method : MethodDescriptor) => do
      validateDecodedServiceMethodType file method.inputType
      validateDecodedServiceMethodType file method.outputType) service.methods) file.services
  forTails (fun (extension : FieldDescriptor) others => do
    refuse (!isIdentifier extension.name)
    refuseName extension.name (file.messages.map (·.name))
    refuseName extension.name (file.enums.map (·.name))
    refuseName extension.name (file.services.map (·.name))
    refuseName extension.name (others.map (·.name))) file.extensions
  validateDecodedFileEnumValueSymbols file
  refuse (file.fileSyntax == .proto3
    && (withNested file.messages).any (fun message => !message.extensionRanges.isEmpty))
  forEach validateDecodedExtensionFieldDescriptor file.extensions

def validateDecodedPackedOptions (file : FileDescriptor) : Except Error Unit :=
  forEachField file fun field _ =>
    if field.packedOverride.isNone then .ok ()
    else do
      refuse (file.fileSyntax == .editions)
      refuse (!field.isPackable)

def validateDecodedScalarDefault (scalar : ScalarType) (value : OptionValue) : Except Error Unit :=
  match scalar, value with
  | .double, .float _ | .float, .float _ | .bool, .boolean _ | .string, .string _
  | .bytes, .string _ => .ok ()
  | .double, _ | .float, _ | .bool, _ | .string, _ | .bytes, _ => .error .invalidFieldType
  | _, .integer _ | _, .unsignedInteger _ => .ok ()
  | _, _ => .error .invalidFieldType

def validateDecodedEnumDefault (file : FileDescriptor) (enumName : Bytes) (value : OptionValue) :
    Except Error Unit :=
  match value with
  | .integer _ => .ok ()
  | .identifier defaultName => do
      refuse (!isIdentifier defaultName)
      match file.findEnumDeep enumName with
      | none => .ok ()
      | some enumeration => refuse (enumeration.findValue defaultName).isNone
  | _ => .error .invalidFieldType

def validateDecodedFieldDefault (file : FileDescriptor) (field : FieldDescriptor) :
    Except Error Unit :=
  match field.defaultValue with
  | none => .ok ()
  | some value => do
      refuse (file.fileSyntax == .proto3)
      refuse (field.cardinality == .repeated || field.kind.isMap || field.oneofName.isSome
        || field.proto3Optional)
      match field.kind with
      | .scalar scalar => validateDecodedScalarDefault scalar value
      | .enumeration name => validateDecodedEnumDefault file name value
      | .message _ | .group _ | .map _ _ => .error .invalidFieldType

def validateDecodedDefaults (file : FileDescriptor) : Except Error Unit :=
  forEachField file fun field _ => validateDecodedFieldDefault file field

/-! ## Extensions -/

def descriptorNamesMatch (a b : Bytes) : Bool :=
  let na := normalizeName a
  let nb := normalizeName b
  na == nb || nb.isSuffixOf na || na.isSuffixOf nb

def validateDecodedExtensionConflictPair (package : Bytes) (field other : FieldDescriptor) :
    Except Error Unit :=
  match field.extendee, other.extendee with
  | some extendee, some otherExtendee =>
      if !descriptorNamesMatch extendee otherExtendee then .ok ()
      else do
        refuse (field.number == other.number)
        refuse (extensionSymbolsEqualWithPackages package field package other)
  | _, _ => .ok ()

def validateDecodedExtensionFieldDeclaration (package : Bytes) (field : FieldDescriptor)
    (extendee : MessageDescriptor) (range : ExtensionRange) : Except Error Unit := do
  forEach (fun (declaration : ExtensionDeclaration) => do
    refuse (declaration.number ≤ 0)
    refuse (declaration.number < range.start || declaration.number ≥ range.effectiveEnd extendee))
    range.declarations
  -- the last declaration of the number counts
  match range.declarations.reverse.find? (fun declaration =>
      declaration.number == (field.number : Int)) with
  | none => refuse (range.verification == some .declaration || !range.declarations.isEmpty)
  | some declaration => do
      refuse declaration.reserved
      refuse (!declaration.fullName.isEmpty
        && !extensionDeclarationNameMatches package declaration.fullName field)
      refuse (declaration.repeated && field.cardinality != .repeated)
      refuse (!declaration.repeated && field.cardinality == .repeated)
      -- `descriptorExtensionTypeMatches`
      refuse (!declaration.typeName.isEmpty
        && !Parser.extensionTypeMatches package field declaration.typeName)

def validateDecodedExtensionDeclaration (file : FileDescriptor) (field : FieldDescriptor) :
    Except Error Unit :=
  match field.extendee.bind file.findMessageDeep with
  | none => .ok ()
  | some extendee =>
      match extendee.extensionRanges.find? (fun range =>
          range.containsInMessage extendee field.number) with
      | some range => validateDecodedExtensionFieldDeclaration file.package field extendee range
      | none => .error .invalidFieldType

/-- Each extension is compared with all others; the source leaves out the pair of an extension
with itself by its pointer. -/
def validateDecodedExtensionDeclarations (file : FileDescriptor) : Except Error Unit :=
  forOthers (fun (field : FieldDescriptor) others => do
    forEach (validateDecodedExtensionConflictPair file.package field) others
    validateDecodedExtensionDeclaration file field) [] (Parser.collectExtensions file)

/-! ## Syntax -/

/-- The value of the first option of the name. -/
def exactOption (options : List FieldOption) (name : String) : Option OptionValue :=
  (options.find? (fun option => trimSpace option.name == ascii name)).map (·.value)

def exactOptionBool (options : List FieldOption) (name : String) : Option Bool :=
  (exactOption options name).bind optionAsBool

/-- The numbers of the enum values that options are written with. -/
def optionEnumNames : List (Bytes × Int) :=
  [(ascii "STRING", 0), (ascii "JS_NORMAL", 0), (ascii "RETENTION_UNKNOWN", 0),
    (ascii "TARGET_TYPE_UNKNOWN", 0), (ascii "CORD", 1), (ascii "JS_STRING", 1),
    (ascii "RETENTION_RUNTIME", 1), (ascii "TARGET_TYPE_FILE", 1), (ascii "STRING_PIECE", 2),
    (ascii "JS_NUMBER", 2), (ascii "RETENTION_SOURCE", 2),
    (ascii "TARGET_TYPE_EXTENSION_RANGE", 2), (ascii "TARGET_TYPE_MESSAGE", 3),
    (ascii "TARGET_TYPE_FIELD", 4), (ascii "TARGET_TYPE_ONEOF", 5), (ascii "TARGET_TYPE_ENUM", 6),
    (ascii "TARGET_TYPE_ENUM_ENTRY", 7), (ascii "TARGET_TYPE_SERVICE", 8),
    (ascii "TARGET_TYPE_METHOD", 9)]

def optionEnumNumberValue : OptionValue → Option Int
  | .integer v => IntegerType.i32.cast v
  | .identifier text | .string text => optionEnumNames.lookup text
  | _ => none

def optionEnumNumber (options : List FieldOption) (name : String) : Option Int :=
  (exactOption options name).bind optionEnumNumberValue

def fieldKindAllowsJSType : FieldKind → Bool
  | .scalar .int64 | .scalar .uint64 | .scalar .sint64 | .scalar .fixed64 | .scalar .sfixed64 =>
      true
  | _ => false

def fieldKindIsSubmessage (kind : FieldKind) : Bool := kind.isMessage || kind.isGroup

def validateDecodedFieldOptionApplicability (file : FileDescriptor) (field : FieldDescriptor)
    (isExtension : Bool) : Except Error Unit := do
  refuse (file.edition.number ≥ Edition.edition2024.number
    && (optionEnumNumber field.options "ctype").isSome)
  refuse ((optionEnumNumber field.options "jstype").any (· != 0)
    && !fieldKindAllowsJSType field.kind)
  let «lazy» := (exactOptionBool field.options "lazy").getD false
  let unverifiedLazy := (exactOptionBool field.options "unverified_lazy").getD false
  let weak := (exactOptionBool field.options "weak").getD false
  refuse ((«lazy» || unverifiedLazy) && !fieldKindIsSubmessage field.kind)
  refuse (unverifiedLazy && isExtension)
  refuse (weak && (!field.kind.isMessage || isExtension || field.oneofName.isSome
    || field.cardinality == .repeated))

def groupTypeNameStartsWithCapital (typeName : Bytes) : Bool :=
  match afterLastDot typeName with
  | c :: _ => isUpper c
  | [] => false

def validateDecodedFieldSyntaxOne (file : FileDescriptor) (field : FieldDescriptor)
    (isExtension : Bool) : Except Error Unit := do
  if isExtension then do
    refuse (field.extendee.isNone || field.oneofName.isSome)
    refuse field.proto3Optional
  else refuse field.extendee.isSome
  refuse (field.cardinality == .required && file.fileSyntax != .proto2)
  refuse (field.cardinality == .required && isExtension)
  refuse (file.fileSyntax == .proto3 && isExtension
    && !Parser.isCustomOptionExtendee (field.extendee.getD []))
  refuse (field.proto3Optional && file.fileSyntax != .proto3)
  refuse (file.fileSyntax == .editions && field.kind.isGroup)
  match field.kind with
  | .group name => refuse (!groupTypeNameStartsWithCapital name)
  | _ => .ok ()
  validateDecodedFieldOptionApplicability file field isExtension

def validateDecodedFieldSyntax (file : FileDescriptor) : Except Error Unit :=
  forEachField file (validateDecodedFieldSyntaxOne file)

def validateDecodedEnumFeaturesAbsent (enumeration : EnumDescriptor) : Except Error Unit := do
  refuse enumeration.features.isSome
  forEach (fun (value : EnumValueDescriptor) => refuse value.features.isSome) enumeration.values

/-- `validateDecodedMessageFeaturesAbsent` of one message. -/
def validateDecodedMessageFeaturesAbsent (message : MessageDescriptor) : Except Error Unit := do
  refuse message.features.isSome
  forEach (fun (field : FieldDescriptor) => refuse field.features.isSome) message.fields
  forEach (fun (oneof : OneofDescriptor) => refuse oneof.features.isSome) message.oneofs
  forEach (fun (range : ExtensionRange) => refuse range.features.isSome) message.extensionRanges
  forEach (fun (field : FieldDescriptor) => refuse field.features.isSome) message.extensions
  forEach validateDecodedEnumFeaturesAbsent message.enums

def validateDecodedServiceFeaturesAbsent (service : ServiceDescriptor) : Except Error Unit := do
  refuse service.features.isSome
  forEach (fun (method : MethodDescriptor) => refuse method.features.isSome) service.methods

def validateDecodedFeatureApplicability (file : FileDescriptor) : Except Error Unit :=
  if file.fileSyntax == .editions then .ok ()
  else do
    refuse (file.features != FeatureSet.defaults file.fileSyntax)
    forEach validateDecodedMessageFeaturesAbsent (withNested file.messages)
    forEach validateDecodedEnumFeaturesAbsent file.enums
    forEach validateDecodedServiceFeaturesAbsent file.services
    forEach (fun (field : FieldDescriptor) => refuse field.features.isSome) file.extensions

def validateDecodedProto3Enum (enumeration : EnumDescriptor) : Except Error Unit :=
  refuse (enumeration.values.isEmpty || enumeration.values.head?.any (·.number != 0))

def validateDecodedEnumSyntax (file : FileDescriptor) : Except Error Unit :=
  if file.fileSyntax != .proto3 then .ok ()
  else do
    forEach validateDecodedProto3Enum file.enums
    forEach (fun (message : MessageDescriptor) => forEach validateDecodedProto3Enum message.enums)
      (withNested file.messages)

/-! ## Message sets -/

def validateDecodedMessageSetExtension (file : FileDescriptor) (messageSet : MessageDescriptor)
    (field : FieldDescriptor) : Except Error Unit :=
  if !messageSet.messageSetWireFormat then .ok ()
  else match field.extendee.bind file.findMessageDeep with
    | none => .ok ()
    | some extendee =>
        if extendee.address != messageSet.address then .ok ()
        else do
          refuse (field.cardinality == .repeated || field.cardinality == .required)
          refuse (!field.kind.isMessage)

/-- `validateDecodedMessageSetMessage` of one message. -/
def validateDecodedMessageSetMessage (file : FileDescriptor) (message : MessageDescriptor) :
    Except Error Unit := do
  if message.messageSetWireFormat then do
    refuse (file.fileSyntax == .proto3)
    refuse (!message.fields.isEmpty)
    refuse (!message.extensionRanges.any (fun range =>
      range.start ≤ 4 && range.effectiveEnd message > 4))
  else .ok ()
  forEach (validateDecodedMessageSetExtension file message) file.extensions
  forEach (fun (scope : MessageDescriptor) =>
    forEach (validateDecodedMessageSetExtension file message) scope.extensions)
    (withNested file.messages)

def validateDecodedMessageSets (file : FileDescriptor) : Except Error Unit :=
  forEach (validateDecodedMessageSetMessage file) (withNested file.messages)

/-! ## Maps -/

/-- The type of the entries of a map field: the field's name in camel case and `Entry`. -/
def mapEntryName (fieldName : Bytes) : Bytes :=
  defaultJsonNameFrom true fieldName ++ ascii "Entry"

def typeNameMatches (encodedTypeName entryName : Bytes) : Bool :=
  afterLastDot encodedTypeName == entryName

/-- The key type and the value kind of an entry type. -/
def mapEntryTypes (entry : MessageDescriptor) : Except Error (ScalarType × FieldKind) := do
  refuse (entry.fields.length != 2)
  match entry.fields.find? (·.name == ascii "key"), entry.fields.find? (·.name == ascii "value") with
  | some keyField, some valueField => do
      refuse (keyField.number != 1 || valueField.number != 2)
      refuse (keyField.cardinality != .optional || valueField.cardinality != .optional)
      refuse (!entry.oneofs.isEmpty || !entry.messages.isEmpty || !entry.enums.isEmpty
        || !entry.extensions.isEmpty || !entry.extensionRanges.isEmpty
        || !entry.reservedRanges.isEmpty || !entry.reservedNames.isEmpty)
      match keyField.kind with
      | .scalar key => do
          refuse (!key.validMapKey)
          refuse (valueField.kind.isMap || valueField.kind.isGroup)
          return (key, valueField.kind)
      | _ => .error .invalidFieldType
  | _, _ => .error .invalidFieldType

/-- The field is of the entry type. -/
def isOfEntry (entry : MessageDescriptor) (field : FieldDescriptor) : Bool :=
  match field.kind with
  | .message name => typeNameMatches name entry.name
  | _ => false

/-- Turn the fields of an entry type into map fields. -/
def collapseMapEntry (entry message : MessageDescriptor) : Except Error MessageDescriptor := do
  let (key, value) ← mapEntryTypes entry
  let matched := message.fields.filter (isOfEntry entry)
  forEach (fun (field : FieldDescriptor) => do
    refuse (field.cardinality != .repeated)
    refuse (entry.name != mapEntryName field.name)) matched
  refuse matched.isEmpty
  return { message with
    fields := message.fields.map (fun field =>
      if isOfEntry entry field then { field with kind := .map key value } else field) }

/-- The loop of `collapseMapEntriesInMessage` from an index on: an entry type is removed and the
index stays. Each round shortens what lies ahead, so the number of messages bounds them. -/
def collapseMapEntriesFrom : Nat → Nat → MessageDescriptor → Except Error MessageDescriptor
  | 0, _, message => .ok message
  | rounds + 1, index, message =>
      match message.messages[index]? with
      | none => .ok message
      | some entry =>
          if entry.mapEntry then do
            let message ← collapseMapEntry entry message
            collapseMapEntriesFrom rounds index
              { message with messages := SwapRemove.swapRemove message.messages index }
          else collapseMapEntriesFrom rounds (index + 1) message

mutual

/-- The messages in a message, those that are no entry types with their maps collapsed. -/
def collapseNested : List MessageDescriptor → Except Error (List MessageDescriptor)
  | [] => .ok []
  | message :: rest => do
      let message ← if message.mapEntry then .ok message else collapseMapEntriesInMessage message
      return message :: (← collapseNested rest)

/-- The source collapses a nested message when its loop comes to it; it is done here for all of
them first, which changes nothing but the moment of an error. -/
def collapseMapEntriesInMessage : MessageDescriptor → Except Error MessageDescriptor
  | message@{ messages, .. } => do
      let messages ← collapseNested messages
      collapseMapEntriesFrom messages.length 0 { message with messages := messages }

end

def collapseMapEntryMessages (file : FileDescriptor) : Except Error FileDescriptor := do
  return { file with messages := ← file.messages.mapM collapseMapEntriesInMessage }

/-! ## Names, defaults and places -/

def decodedQualifiedName (scope name : Bytes) : Bytes :=
  if scope.isEmpty || name.contains 0x2e then name else scope ++ 0x2e :: name

mutual

def assignDecodedMessagesExtensionFullNames (scope : Bytes) :
    List MessageDescriptor → List MessageDescriptor
  | [] => []
  | message :: rest =>
      assignDecodedMessageExtensionFullNames scope message
        :: assignDecodedMessagesExtensionFullNames scope rest

def assignDecodedMessageExtensionFullNames (parentScope : Bytes) :
    MessageDescriptor → MessageDescriptor
  | message@{ name, messages, .. } =>
      let scope := decodedQualifiedName parentScope name
      { message with
        extensions := message.extensions.map (fun field =>
          { field with fullName := some (decodedQualifiedName scope field.name) })
        messages := assignDecodedMessagesExtensionFullNames scope messages }

end

def assignDecodedExtensionFullNames (file : FileDescriptor) : FileDescriptor :=
  { file with
    extensions := file.extensions.map (fun field => { field with fullName := none })
    messages := assignDecodedMessagesExtensionFullNames file.package file.messages }

def resolveFieldEnumDefault (file : FileDescriptor) (field : FieldDescriptor) : FieldDescriptor :=
  match field.kind, field.defaultValue with
  | .enumeration enumName, some (.identifier defaultName)
  | .enumeration enumName, some (.string defaultName) =>
      match (file.findEnumDeep enumName).bind (·.findValue defaultName) with
      | some value => { field with defaultValue := some (.integer value.number.toInt) }
      | none => field
  | _, _ => field

mutual

def resolveMessagesEnumDefaults (file : FileDescriptor) :
    List MessageDescriptor → List MessageDescriptor
  | [] => []
  | message :: rest =>
      resolveMessageEnumDefaults file message :: resolveMessagesEnumDefaults file rest

def resolveMessageEnumDefaults (file : FileDescriptor) : MessageDescriptor → MessageDescriptor
  | message@{ messages, .. } =>
      { message with
        fields := message.fields.map (resolveFieldEnumDefault file)
        extensions := message.extensions.map (resolveFieldEnumDefault file)
        messages := resolveMessagesEnumDefaults file messages }

end

def resolveDecodedEnumDefaults (file : FileDescriptor) : FileDescriptor :=
  { file with
    messages := resolveMessagesEnumDefaults file file.messages
    extensions := file.extensions.map (resolveFieldEnumDefault file) }

mutual

/-- Number messages from `next` on, each one before those nested in it; also the number behind
the last one. -/
def numberMessages (next : Nat) : List MessageDescriptor → List MessageDescriptor × Nat
  | [] => ([], next)
  | message :: rest =>
      let (message, next) := numberMessage next message
      let (rest, next) := numberMessages next rest
      (message :: rest, next)

def numberMessage (next : Nat) : MessageDescriptor → MessageDescriptor × Nat
  | message@{ messages, .. } =>
      let (messages, after) := numberMessages (next + 1) messages
      ({ message with address := next, messages := messages }, after)

end

/-- The messages of a file at their final places: only from here on are they told apart by their
pointers. -/
def placeMessages (file : FileDescriptor) : FileDescriptor :=
  { file with messages := (numberMessages 0 file.messages).1 }

end Descriptor

end Pbz
