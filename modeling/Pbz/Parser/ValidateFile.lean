import Pbz.Parser.Declarations

set_option autoImplicit false

/-! # The checks of a whole file

What `Parser.parse` does once the last token has been read: it resolves the kinds of the fields
that name enums and checks what needs the whole file.
-/

namespace Pbz

namespace Parser

open Check

mutual

/-- Check messages, each one before those nested in it. -/
def eachMessage (check : MessageDescriptor → Except ParseError Unit) :
    List MessageDescriptor → Except ParseError Unit
  | [] => .ok ()
  | message :: rest => do
      check message
      eachNested check message
      eachMessage check rest

def eachNested (check : MessageDescriptor → Except ParseError Unit) :
    MessageDescriptor → Except ParseError Unit
  | { messages, .. } => eachMessage check messages

end

/-! ## Imports -/

def validateImportKinds (edition : Edition) : Bool → List Import → Except ParseError Unit
  | _, [] => .ok ()
  | sawOptionImport, item :: others => do
      reject item.path.isEmpty .invalidSyntax
      forEach (fun (other : Import) => reject (item.path == other.path) .invalidSyntax) others
      if item.kind == .option then do
        reject (edition.number < Edition.edition2024.number) .invalidSyntax
        validateImportKinds edition true others
      else do
        reject sawOptionImport .invalidSyntax
        reject (edition.number ≥ Edition.edition2024.number && item.kind == .weak) .invalidSyntax
        validateImportKinds edition sawOptionImport others

def validateImports (file : FileDescriptor) : Except ParseError Unit :=
  validateImportKinds file.edition false file.imports

/-! ## Symbols -/

/-- No name of a list equals `name`. -/
def rejectName (name : Bytes) (names : List Bytes) : Except ParseError Unit :=
  forEach (fun other => reject (name == other) .duplicateSymbol) names

def validateFileEnumValueSymbols (file : FileDescriptor) : Except ParseError Unit :=
  forTails (fun (enumeration : EnumDescriptor) others =>
    forEach (fun (value : EnumValueDescriptor) => do
      rejectName value.name (file.messages.map (·.name))
      rejectName value.name (file.enums.map (·.name))
      rejectName value.name (file.services.map (·.name))
      rejectName value.name (file.extensions.map (·.name))
      forEach (fun (other : EnumDescriptor) => rejectName value.name (other.values.map (·.name)))
        others) enumeration.values) file.enums

def validateFileTypeSymbols (file : FileDescriptor) : Except ParseError Unit := do
  forOthers (fun (message : MessageDescriptor) others => do
    rejectName message.name (others.map (·.name))
    rejectName message.name (file.enums.map (·.name))) [] file.messages
  forTails (fun (enumeration : EnumDescriptor) others =>
    rejectName enumeration.name (others.map (·.name))) file.enums
  forTails (fun (extension : FieldDescriptor) others => do
    rejectName extension.name (file.messages.map (·.name))
    rejectName extension.name (file.enums.map (·.name))
    rejectName extension.name (file.services.map (·.name))
    rejectName extension.name (others.map (·.name))) file.extensions
  validateFileEnumValueSymbols file

def validateMessageEnumValueSymbols (message : MessageDescriptor) : Except ParseError Unit :=
  forTails (fun (enumeration : EnumDescriptor) others =>
    forEach (fun (value : EnumValueDescriptor) => do
      rejectName value.name (message.fields.map (·.name))
      rejectName value.name (message.oneofs.map (·.name))
      rejectName value.name (message.messages.map (·.name))
      rejectName value.name (message.enums.map (·.name))
      rejectName value.name (message.extensions.map (·.name))
      forEach (fun (other : EnumDescriptor) => rejectName value.name (other.values.map (·.name)))
        others) enumeration.values) message.enums

/-- `validateMessageTypeSymbols` without its walk through the nested messages. -/
def validateMessageTypeSymbols (message : MessageDescriptor) : Except ParseError Unit := do
  forOthers (fun (nested : MessageDescriptor) others => do
    rejectName nested.name (others.map (·.name))
    rejectName nested.name (message.enums.map (·.name))
    rejectName nested.name (message.fields.map (·.name))
    rejectName nested.name (message.oneofs.map (·.name))) [] message.messages
  forTails (fun (enumeration : EnumDescriptor) others => do
    rejectName enumeration.name (others.map (·.name))
    rejectName enumeration.name (message.fields.map (·.name))
    rejectName enumeration.name (message.oneofs.map (·.name))) message.enums
  forTails (fun (extension : FieldDescriptor) others => do
    rejectName extension.name (message.fields.map (·.name))
    rejectName extension.name (message.oneofs.map (·.name))
    rejectName extension.name (message.messages.map (·.name))
    rejectName extension.name (message.enums.map (·.name))
    rejectName extension.name (others.map (·.name))) message.extensions
  validateMessageEnumValueSymbols message

def validateTypeSymbols (file : FileDescriptor) : Except ParseError Unit := do
  validateFileTypeSymbols file
  eachMessage validateMessageTypeSymbols file.messages

def validateRpcType (file : FileDescriptor) (typeName : Bytes) : Except ParseError Unit :=
  reject ((file.findMessageDeep typeName).isNone && (file.findEnumDeep typeName).isSome)
    .invalidFieldType

def validateServices (file : FileDescriptor) : Except ParseError Unit :=
  forTails (fun (service : ServiceDescriptor) others => do
    rejectName service.name (others.map (·.name))
    rejectName service.name (file.messages.map (·.name))
    rejectName service.name (file.enums.map (·.name))
    forTails (fun (method : MethodDescriptor) otherMethods => do
      rejectName method.name (otherMethods.map (·.name))
      validateRpcType file method.inputType
      validateRpcType file method.outputType) service.methods) file.services

/-! ## Field kinds -/

mutual

def findEnumInMessages (leaf : Bytes) : List MessageDescriptor → Option EnumDescriptor
  | [] => none
  | message :: rest =>
      match findEnumInMessage leaf message with
      | some found => some found
      | none => findEnumInMessages leaf rest

/-- The enums of a message, then those of the messages nested in it. -/
def findEnumInMessage (leaf : Bytes) : MessageDescriptor → Option EnumDescriptor
  | { enums, messages, .. } =>
      match enums.find? (fun enumeration => enumeration.name == leaf) with
      | some found => some found
      | none => findEnumInMessages leaf messages

end

def findEnumDescriptor (file : FileDescriptor) (name : Bytes) (context : Option MessageDescriptor) :
    Option EnumDescriptor :=
  let trimmed := normalizeName name
  let leaf := afterLastDot trimmed
  match context.bind (·.findEnum leaf) with
  | some found => some found
  | none =>
      match file.enums.find? (fun enumeration =>
          enumeration.name == leaf || enumeration.name == trimmed) with
      | some found => some found
      | none => findEnumInMessages leaf file.messages

/-- `isEnumName` makes the search of `findEnumDescriptor`. -/
def isEnumName (file : FileDescriptor) (name : Bytes) (context : Option MessageDescriptor) : Bool :=
  (findEnumDescriptor file name context).isSome

def resolveEnumDefault (file : FileDescriptor) (context : Option MessageDescriptor)
    (field : FieldDescriptor) : FieldDescriptor :=
  match field.kind, field.defaultValue with
  | .enumeration enumName, some (.identifier defaultName)
  | .enumeration enumName, some (.string defaultName) =>
      match (findEnumDescriptor file enumName context).bind (·.findValue defaultName) with
      | some value => { field with defaultValue := some (.integer value.number.toInt) }
      | none => field
  | _, _ => field

def resolveKind (file : FileDescriptor) (context : Option MessageDescriptor) : FieldKind → FieldKind
  | .message name => if isEnumName file name context then .enumeration name else .message name
  | .map key (.message name) =>
      .map key (if isEnumName file name context then .enumeration name else .message name)
  | kind => kind

def resolveFieldKind (file : FileDescriptor) (context : Option MessageDescriptor)
    (field : FieldDescriptor) : FieldDescriptor :=
  resolveEnumDefault file context { field with kind := resolveKind file context field.kind }

mutual

def resolveMessagesFieldKinds (file : FileDescriptor) :
    List MessageDescriptor → List MessageDescriptor
  | [] => []
  | message :: rest =>
      resolveMessageFieldKinds file message :: resolveMessagesFieldKinds file rest

def resolveMessageFieldKinds (file : FileDescriptor) : MessageDescriptor → MessageDescriptor
  | message@{ messages, .. } =>
      { message with
        fields := message.fields.map (resolveFieldKind file (some message))
        messages := resolveMessagesFieldKinds file messages
        extensions := message.extensions.map (resolveFieldKind file (some message)) }

end

def resolveFieldKinds (file : FileDescriptor) : FileDescriptor :=
  { file with
    messages := resolveMessagesFieldKinds file file.messages
    extensions := file.extensions.map (resolveFieldKind file none) }

/-! ## Extensions -/

/-- The messages that a proto3 file may extend. -/
def customOptionExtendees : List Bytes :=
  [ascii "google.protobuf.FileOptions", ascii "google.protobuf.MessageOptions",
    ascii "google.protobuf.FieldOptions", ascii "google.protobuf.OneofOptions",
    ascii "google.protobuf.EnumOptions", ascii "google.protobuf.EnumValueOptions",
    ascii "google.protobuf.ServiceOptions", ascii "google.protobuf.MethodOptions",
    ascii "google.protobuf.ExtensionRangeOptions"]

def isCustomOptionExtendee (name : Bytes) : Bool :=
  customOptionExtendees.contains (normalizeName name)

/-- `declared` is `actual` behind a dot and `qualifier`. -/
def declaredUnder (qualifier declared actual : Bytes) : Bool :=
  declared == qualifier ++ 0x2e :: actual

def declarationTypeMatches (package : Bytes) (field : FieldDescriptor)
    (declaration typeName : Bytes) : Bool :=
  let declared := normalizeName declaration
  let actual := normalizeName typeName
  if declared == actual then true
  else if package.isEmpty || typeName.head? == some 0x2e then false
  else if declaredUnder package declared actual then true
  else
    let fullName := extensionFullName field
    if !fullName.contains 0x2e then false
    else
      let scope := (fullName.take (fullName.length - (afterLastDot fullName).length - 1))
      declaredUnder scope declared actual
        || declaredUnder (package ++ 0x2e :: scope) declared actual

def extensionTypeMatches (package : Bytes) (field : FieldDescriptor) (declaredType : Bytes) : Bool :=
  match field.kind with
  | .message typeName | .enumeration typeName | .group typeName =>
      declarationTypeMatches package field declaredType typeName
  | .scalar scalar => scalar.typeName == declaredType
  | .map _ _ => false

def extensionDeclarationTypeNameValid (typeName : Bytes) : Bool :=
  declarationTypeNameIsScalar typeName || declarationSymbolIsQualified typeName

def validateExtensionDeclarationShape (declaration : ExtensionDeclaration) :
    Except ParseError Unit :=
  let hasFullName := !declaration.fullName.isEmpty
  let hasType := !declaration.typeName.isEmpty
  if !hasFullName || !hasType then
    reject (hasFullName != hasType || !declaration.reserved) .invalidFieldType
  else do
    reject (!declarationSymbolIsQualified declaration.fullName) .invalidFieldType
    reject (!extensionDeclarationTypeNameValid declaration.typeName) .invalidFieldType

/-- A declaration is about a positive number of its range. -/
def validateDeclarationNumber (range : ExtensionRange) (host : MessageDescriptor)
    (declaration : ExtensionDeclaration) : Except ParseError Unit := do
  reject (declaration.number ≤ 0) .invalidFieldType
  reject (declaration.number < range.start || declaration.number ≥ range.effectiveEnd host)
    .reservedField

def validateExtensionFieldDeclaration (file : FileDescriptor) (field : FieldDescriptor)
    (extendee : MessageDescriptor) (range : ExtensionRange) : Except ParseError Unit := do
  forEach (validateDeclarationNumber range extendee) range.declarations
  -- the last declaration of the number counts
  match range.declarations.reverse.find? (fun declaration =>
      declaration.number == (field.number : Int)) with
  | none =>
      reject (range.verification == some .declaration || !range.declarations.isEmpty) .reservedField
  | some declaration => do
      reject declaration.reserved .reservedField
      reject (!declaration.fullName.isEmpty
        && !extensionDeclarationNameMatches file.package declaration.fullName field)
        .invalidFieldType
      reject (declaration.repeated && field.cardinality != .repeated) .invalidFieldType
      reject (!declaration.repeated && field.cardinality == .repeated) .invalidFieldType
      reject (!declaration.typeName.isEmpty
        && !extensionTypeMatches file.package field declaration.typeName) .invalidFieldType

def validateExtensionField (file : FileDescriptor) (field : FieldDescriptor) :
    Except ParseError Unit := do
  reject field.kind.isMap .invalidFieldType
  reject field.jsonName.isSome .invalidFieldType
  match field.extendee with
  | none => .ok ()
  | some extendeeName => do
      reject (file.fileSyntax == .proto3 && !isCustomOptionExtendee extendeeName) .invalidFieldType
      match file.findMessageDeep extendeeName with
      | none => reject (file.findEnumDeep extendeeName).isSome .invalidFieldType
      | some extendee =>
          match extendee.extensionRanges.find? (fun range =>
              range.containsInMessage extendee field.number) with
          | some range => validateExtensionFieldDeclaration file field extendee range
          | none => .error .reservedField

mutual

def collectMessagesExtensions : List MessageDescriptor → List FieldDescriptor
  | [] => []
  | message :: rest => collectMessageExtensions message ++ collectMessagesExtensions rest

def collectMessageExtensions : MessageDescriptor → List FieldDescriptor
  | { extensions, messages, .. } => extensions ++ collectMessagesExtensions messages

end

def collectExtensions (file : FileDescriptor) : List FieldDescriptor :=
  file.extensions ++ collectMessagesExtensions file.messages

def validateExtensionRangeDeclarations (message : MessageDescriptor) (range : ExtensionRange) :
    Except ParseError Unit := do
  reject (!range.declarations.isEmpty && range.verification == some .unverified) .invalidFieldType
  forTails (fun (declaration : ExtensionDeclaration) others => do
    validateDeclarationNumber range message declaration
    validateExtensionDeclarationShape declaration
    forEach (fun (other : ExtensionDeclaration) => do
      reject (declaration.number == other.number) .duplicateField
      reject (!declaration.fullName.isEmpty && !other.fullName.isEmpty
        && declaration.fullName == other.fullName) .duplicateField) others) range.declarations

def validateExtensionDeclarationNames (ranges : List ExtensionRange) : Except ParseError Unit :=
  forTails (fun (range : ExtensionRange) otherRanges =>
    forEach (fun (declaration : ExtensionDeclaration) =>
      if declaration.fullName.isEmpty then .ok ()
      else forEach (fun (otherRange : ExtensionRange) =>
        forEach (fun (other : ExtensionDeclaration) =>
          reject (declaration.fullName == other.fullName) .duplicateField) otherRange.declarations)
        otherRanges) range.declarations) ranges

/-- `validateMessageExtensionDeclarations` of one message. -/
def validateMessageExtensionDeclarations (message : MessageDescriptor) :
    Except ParseError Unit := do
  forEach (validateExtensionRangeDeclarations message) message.extensionRanges
  validateExtensionDeclarationNames message.extensionRanges

def validateExtensions (file : FileDescriptor) : Except ParseError Unit := do
  forEach (validateExtensionField file) file.extensions
  eachMessage (fun message => forEach (validateExtensionField file) message.extensions)
    file.messages
  forTails (fun (field : FieldDescriptor) others =>
    forEach (fun (other : FieldDescriptor) =>
      if field.extendee.getD [] != other.extendee.getD [] then .ok ()
      else reject (field.number == other.number || extensionSymbolsEqual file.package field other)
        .duplicateField) others) (collectExtensions file)
  eachMessage validateMessageExtensionDeclarations file.messages

/-! ## Message sets -/

def validateMessageSetExtension (file : FileDescriptor) (messageSet : MessageDescriptor)
    (field : FieldDescriptor) : Except ParseError Unit :=
  if !messageSet.messageSetWireFormat then .ok ()
  else match field.extendee.bind file.findMessageDeep with
    | none => .ok ()
    | some extendee =>
        if extendee.address != messageSet.address then .ok ()
        else do
          reject (field.cardinality == .repeated || field.cardinality == .required)
            .invalidFieldType
          reject (!field.kind.isMessage) .invalidFieldType

/-- `validateMessageSetMessage` of one message. -/
def validateMessageSetMessage (file : FileDescriptor) (message : MessageDescriptor) :
    Except ParseError Unit := do
  if message.messageSetWireFormat then do
    reject (file.fileSyntax == .proto3) .invalidFieldType
    reject (!message.fields.isEmpty) .invalidFieldType
    reject (!message.extensionRanges.any (fun range =>
      range.start ≤ 4 && range.effectiveEnd message > 4)) .invalidRange
  else .ok ()
  forEach (validateMessageSetExtension file message) file.extensions
  eachMessage (fun scope => forEach (validateMessageSetExtension file message) scope.extensions)
    file.messages

def validateMessageSets (file : FileDescriptor) : Except ParseError Unit :=
  eachMessage (validateMessageSetMessage file) file.messages

/-! ## Fields -/

/-- A check of every field and extension of a file, with the message it stands in. -/
def eachField (file : FileDescriptor)
    (check : FieldDescriptor → Option MessageDescriptor → Except ParseError Unit) :
    Except ParseError Unit := do
  eachMessage (fun message => do
    forEach (check · (some message)) message.fields
    forEach (check · (some message)) message.extensions) file.messages
  forEach (check · none) file.extensions

def optionInt (type : IntegerType) : OptionValue → Option Int
  | .integer v => type.cast v
  | .unsignedInteger v => type.cast v
  | .identifier text | .string text => parseIntegerDefault type text
  | _ => none

def optionFloat [FloatConversions] : OptionValue → Option (BitVec 64)
  | .float bits => some bits
  | .integer v => some (FloatConversions.floatFromInt v)
  | .unsignedInteger v => some (FloatConversions.floatFromInt v)
  | .identifier text | .string text =>
      match parseSpecialFloat text false with
      | .ok bits => some bits
      | .error _ => FloatConversions.parseFloat text
  | _ => none

def validateScalarDefault [FloatConversions] (scalar : ScalarType) (value : OptionValue) :
    Except ParseError Unit :=
  match scalar with
  | .double | .float => reject (optionFloat value).isNone .invalidDefault
  | .int32 | .sint32 | .sfixed32 => reject (optionInt .i32 value).isNone .invalidDefault
  | .int64 | .sint64 | .sfixed64 => reject (optionInt .i64 value).isNone .invalidDefault
  | .uint32 | .fixed32 => reject (optionInt .u32 value).isNone .invalidDefault
  | .uint64 | .fixed64 => reject (optionInt .u64 value).isNone .invalidDefault
  | .bool => reject (optionAsBool value).isNone .invalidDefault
  | .string | .bytes =>
      match value with
      | .string _ => .ok ()
      | _ => .error .invalidDefault

def messageNameLooksImported (file : FileDescriptor) (name : Bytes)
    (context : Option MessageDescriptor) : Bool :=
  let trimmed := normalizeName name
  let leaf := afterLastDot trimmed
  !(context.any (fun message =>
      (message.findMessageDeep trimmed).isSome || (message.findMessage leaf).isSome)
    || file.messages.any (fun message =>
      message.name == trimmed || message.name == leaf || (message.findMessageDeep trimmed).isSome))

def validateFieldDefault [FloatConversions] (file : FileDescriptor) (field : FieldDescriptor)
    (context : Option MessageDescriptor) : Except ParseError Unit :=
  match field.defaultValue with
  | none => .ok ()
  | some value => do
      reject (file.fileSyntax == .proto3) .invalidDefault
      reject (field.cardinality == .repeated || field.kind.isMap || field.oneofName.isSome)
        .invalidDefault
      match field.kind with
      | .scalar scalar => validateScalarDefault scalar value
      | .enumeration name =>
          match value with
          | .integer number =>
              match findEnumDescriptor file name context with
              | none => .error .invalidDefault
              | some enumeration =>
                  reject (!enumeration.values.any (·.number.toInt == number)) .invalidDefault
          | _ => .error .invalidDefault
      | .message name =>
          match value with
          | .identifier _ | .string _ =>
              reject (!messageNameLooksImported file name context) .invalidDefault
          | _ => .error .invalidDefault
      | .group _ => .error .invalidDefault
      | .map _ _ => .error .invalidDefault

def validateDefaults [FloatConversions] (file : FileDescriptor) : Except ParseError Unit :=
  eachField file (validateFieldDefault file)

def validateFieldPackedOption (field : FieldDescriptor) : Except ParseError Unit :=
  reject (field.packedOverride.isSome && !field.isPackable) .invalidFieldType

def validatePackedOptions (file : FileDescriptor) : Except ParseError Unit :=
  eachField file (fun field _ => validateFieldPackedOption field)

/-- The number of a `jstype`. -/
def parserOptionEnumNumber : OptionValue → Except ParseError Int
  | .integer v => if 0 ≤ v ∧ v ≤ 2 then .ok v else .error .invalidFieldType
  | .identifier text | .string text =>
      if text == ascii "JS_NORMAL" then .ok 0
      else if text == ascii "JS_STRING" then .ok 1
      else if text == ascii "JS_NUMBER" then .ok 2
      else .error .invalidFieldType
  | _ => .error .invalidFieldType

def fieldKindAllowsJSType : FieldKind → Bool
  | .scalar .int64 | .scalar .uint64 | .scalar .sint64 | .scalar .fixed64 | .scalar .sfixed64 => true
  | _ => false

def fieldKindIsSubmessage (kind : FieldKind) : Bool := kind.isMessage || kind.isGroup

def validateFieldOption (field : FieldDescriptor) (option : FieldOption) :
    Except ParseError Unit :=
  let leaf := optionLeaf option.name
  if leaf == ascii "jstype" then
    match parserOptionEnumNumber option.value with
    | .error e => .error e
    | .ok value => reject (value != 0 && !fieldKindAllowsJSType field.kind) .invalidFieldType
  else if leaf == ascii "lazy" || leaf == ascii "unverified_lazy" then
    match optionAsBool option.value with
    | none => .error .invalidFieldType
    | some value =>
        reject (value && (!fieldKindIsSubmessage field.kind
          || (leaf == ascii "unverified_lazy" && field.extendee.isSome))) .invalidFieldType
  else if leaf == ascii "weak" then
    match optionAsBool option.value with
    | none => .error .invalidFieldType
    | some value =>
        reject (value && (!field.kind.isMessage || field.extendee.isSome || field.oneofName.isSome
          || field.cardinality == .repeated)) .invalidFieldType
  else .ok ()

def validateFieldOptionApplicability (field : FieldDescriptor) : Except ParseError Unit :=
  forEach (validateFieldOption field) field.options

def validateFieldOptionApplicabilities (file : FileDescriptor) : Except ParseError Unit := do
  forEach validateFieldOptionApplicability file.extensions
  eachMessage (fun message => do
    forEach validateFieldOptionApplicability message.fields
    forEach validateFieldOptionApplicability message.extensions) file.messages

def validateFieldFeatureSemantics (file : FileDescriptor) (field : FieldDescriptor)
    (context : Option MessageDescriptor) : Except ParseError Unit := do
  reject (file.edition.number ≥ Edition.edition2024.number
    && field.options.any (fun option => optionLeaf option.name == ascii "ctype")) .invalidFieldType
  if field.cardinality == .repeated || field.kind.isMap || field.oneofName.isSome
      || field.proto3Optional then .ok ()
  else if field.kind.isMessage || field.kind.isGroup then .ok ()
  else
    let features := field.features.getD file.features
    if features.fieldPresence != .implicit then .ok ()
    else do
      reject field.defaultValue.isSome .invalidDefault
      match field.kind with
      | .enumeration name =>
          match findEnumDescriptor file name context with
          | none => .ok ()
          | some enumeration =>
              reject ((enumeration.features.getD file.features).enumType == .closed)
                .invalidFieldType
      | _ => .ok ()

def validateFeatureSemantics (file : FileDescriptor) : Except ParseError Unit :=
  if file.fileSyntax != .editions then .ok ()
  else eachField file (validateFieldFeatureSemantics file)

/-! ## The parser -/

/-- The checks behind the last token, in the order of the source. -/
def finish [FloatConversions] (file : FileDescriptor) : Except ParseError FileDescriptor := do
  validateImports file
  validateTypeSymbols file
  validateServices file
  let file := resolveFieldKinds file
  validateExtensions file
  validateMessageSets file
  validateDefaults file
  validatePackedOptions file
  validateFieldOptionApplicabilities file
  validateFeatureSemantics file
  return file

def parse [FloatConversions] (input : Bytes) : Except Stop FileDescriptor := do
  let self ← init input
  let (_, self) ← parseFile (4 * input.length + 2) self
  (finish self.file).mapError .error

end Parser

end Pbz
