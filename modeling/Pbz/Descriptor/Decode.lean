import Pbz.Descriptor.CheckFile
import Pbz.Descriptor.Options

set_option autoImplicit false

/-! # Decoding descriptors

`decodeFileDescriptorProto` and the decoding functions of the messages it meets. A message type
may be nested in another one to any depth: `decodeMessageAt` counts the levels down, and
`decodeMessageDescriptor_eq` says that a payload has more levels than it can nest.
-/

namespace Pbz

namespace Descriptor

/-- `std.fmt.parseFloat` as `f64`, and as `f32` widened to `f64`. -/
class DefaultConversions where
  parseDouble : Bytes → Option (BitVec 64)
  parseSingle : Bytes → Option (BitVec 64)

/-! ## Default values -/

def parseIntegerDefault (type : IntegerType) (text : Bytes) : Option Int :=
  let body := match text with
    | c :: rest => if c == 0x2b || c == 0x2d then rest else text
    | [] => []
  match body with
  | [] => none
  | 0x30 :: c :: _ =>
      if toLower c == 0x78 || toLower c == 0x6f || toLower c == 0x62 then parseInt type text 0
      else parseInt type text 8
  | _ => parseInt type text 0

/-- The value `inf`, `infinity` or `nan` of a text with or without a sign. -/
def parseSpecialFloatDefault (text : Bytes) : Option (BitVec 64) :=
  let special (negative : Bool) (body : Bytes) : Option (BitVec 64) :=
    match parseSpecialFloat body negative with
    | .ok bits => some bits
    | .error _ => none
  match text with
  | 0x2d :: body => special true body
  | 0x2b :: body => special false body
  | _ => special false text

def parseFloatDefault (parseFloat : Bytes → Option (BitVec 64)) (text : Bytes) :
    Option (BitVec 64) :=
  match parseSpecialFloatDefault text with
  | some bits => some bits
  | none => parseFloat text

def parseBoolDefault (text : Bytes) : Option Bool :=
  if text == ascii "true" then some true
  else if text == ascii "false" then some false
  else none

/-- The loop of `decodeBytesDefaultAlloc`; each round uses at least one character. -/
def decodeBytesDefaultFrom : Nat → Bytes → Except Error Bytes
  | _, [] => .ok []
  | 0, _ :: _ => .error .fuel
  | rounds + 1, c :: rest =>
      if c != 0x5c then (decodeBytesDefaultFrom rounds rest).map (c :: ·)
      else match rest with
        | [] => .error .invalidFieldType
        | escape :: rest =>
            match simpleEscape escape with
            | some byte => (decodeBytesDefaultFrom rounds rest).map (byte :: ·)
            | none =>
                if escape == 0x78 || escape == 0x58 then
                  let digits := (rest.take 2).takeWhile (fun c => (hexValue c).isSome)
                  if digits.isEmpty then .error .invalidFieldType
                  else (decodeBytesDefaultFrom rounds (rest.drop digits.length)).map
                    (UInt8.ofNat (hexEscape digits) :: ·)
                else if isOctalDigit escape then
                  let more := (rest.take 2).takeWhile isOctalDigit
                  match octalEscape (escape :: more) with
                  | none => .error .invalidFieldType
                  | some byte =>
                      (decodeBytesDefaultFrom rounds (rest.drop more.length)).map (byte :: ·)
                else .error .invalidFieldType

/-- The loop has rounds enough. -/
theorem decodeBytesDefaultFrom_ne_fuel {rounds : Nat} {text : Bytes} (h : text.length ≤ rounds) :
    decodeBytesDefaultFrom rounds text ≠ .error .fuel := by
  have map_ne {c : UInt8} {decoded : Except Error Bytes} (hne : decoded ≠ .error .fuel) :
      decoded.map (c :: ·) ≠ .error .fuel := by
    cases decoded with
    | error e => simpa [Except.map] using hne
    | ok bytes => simp [Except.map]
  fun_induction decodeBytesDefaultFrom rounds text with
  | case1 => simp
  | case2 => simp at h
  | case3 rounds c rest hc ih => exact map_ne (ih (by simpa using h))
  | case4 => simp
  | case5 rounds c hc escape rest byte hbyte ih => exact map_ne (ih (by simp at h; omega))
  | case6 => simp
  | case7 rounds c hc escape rest hbyte hx digits hd ih => exact map_ne (ih (by simp at h ⊢; omega))
  | case8 => simp
  | case9 rounds c hc escape rest hbyte hx ho more byte hoctal ih =>
      exact map_ne (ih (by simp at h ⊢; omega))
  | case10 => simp

def decodeBytesDefaultAlloc (text : Bytes) : Except Error Bytes :=
  decodeBytesDefaultFrom text.length text

/-- The value of an optional result, or an error. -/
def orError {α : Type} (e : Error) (value : Option α) : Except Error α :=
  match value with
  | some value => .ok value
  | none => .error e

def decodeDefaultValue [DefaultConversions] (kind : FieldKind) (text : Bytes) :
    Except Error OptionValue :=
  let integer (type : IntegerType) : Except Error OptionValue := do
    return .integer (← orError .invalidFieldType (parseIntegerDefault type text))
  match kind with
  | .scalar .double => do
      return .float (← orError .invalidFieldType
        (parseFloatDefault DefaultConversions.parseDouble text))
  | .scalar .float => do
      return .float (← orError .invalidFieldType
        (parseFloatDefault DefaultConversions.parseSingle text))
  | .scalar .int32 | .scalar .sint32 | .scalar .sfixed32 => integer .i32
  | .scalar .int64 | .scalar .sint64 | .scalar .sfixed64 => integer .i64
  | .scalar .uint32 | .scalar .fixed32 => integer .u32
  | .scalar .uint64 | .scalar .fixed64 => do
      let value ← orError .number (parseIntegerDefault .u64 text)
      return unsignedDefaultOption value.toNat
  | .scalar .bool => do return .boolean (← orError .invalidFieldType (parseBoolDefault text))
  | .scalar .string => .ok (.string text)
  | .scalar .bytes => do return .string (← decodeBytesDefaultAlloc text)
  | .enumeration _ => do
      refuse (!isIdentifier text)
      return .identifier text
  | .message _ | .group _ | .map _ _ => .error .invalidFieldType

/-! ## Fields -/

def fieldNumberFromDescriptor (value : BitVec 32) : Except Error Nat :=
  if value.toInt ≤ 0 ∨ value.toInt > maxFieldNumber then .error (.wire .invalidFieldNumber)
  else if 19000 ≤ value.toInt ∧ value.toInt ≤ 19999 then .error (.wire .invalidFieldNumber)
  else .ok value.toNat

def labelFromNumber (value : BitVec 32) : Except Error Cardinality :=
  if value = 1 then .ok .optional
  else if value = 2 then .ok .required
  else if value = 3 then .ok .repeated
  else .error .invalidFieldType

/-- The name without a leading dot. -/
def requireTypeName (typeName : Option Bytes) : Except Error Bytes :=
  match typeName with
  | none => .error .invalidFieldType
  | some name => do
      refuse (!isTypeNameReference name)
      return normalizeName name

def kindFromType (fieldType : BitVec 32) (typeName : Option Bytes) : Except Error FieldKind :=
  match fieldType.toNat with
  | 1 => .ok (.scalar .double)
  | 2 => .ok (.scalar .float)
  | 3 => .ok (.scalar .int64)
  | 4 => .ok (.scalar .uint64)
  | 5 => .ok (.scalar .int32)
  | 6 => .ok (.scalar .fixed64)
  | 7 => .ok (.scalar .fixed32)
  | 8 => .ok (.scalar .bool)
  | 9 => .ok (.scalar .string)
  | 10 => do return .group (afterLastDot (← requireTypeName typeName))
  | 11 => do return .message (← requireTypeName typeName)
  | 12 => .ok (.scalar .bytes)
  | 13 => .ok (.scalar .uint32)
  | 14 => do return .enumeration (← requireTypeName typeName)
  | 15 => .ok (.scalar .sfixed32)
  | 16 => .ok (.scalar .sfixed64)
  | 17 => .ok (.scalar .sint32)
  | 18 => .ok (.scalar .sint64)
  | _ => .error .invalidFieldType

/-- The index as the decimal text that stands in the place of the oneof's name at first. -/
def decodeOneofIndexText (index : BitVec 32) : Except Error Bytes :=
  if index.toInt < 0 then .error .invalidFieldType else .ok (ascii (toString index.toNat))

structure FieldState where
  name : Bytes := []
  number : Nat := 0
  cardinality : Cardinality := .optional
  fieldType : BitVec 32 := 0
  typeName : Option Bytes := none
  extendee : Option Bytes := none
  defaultValueText : Option Bytes := none
  oneofIndexText : Option Bytes := none
  jsonName : Option Bytes := none
  proto3Optional : Bool := false
  options : DecodedFieldOptions := {}

/-- What `decodeFieldDescriptor` does behind its loop. -/
def FieldState.finish [DefaultConversions] (state : FieldState) : Except Error FieldDescriptor := do
  refuse (state.extendee.any (fun extendee => !isTypeNameReference extendee))
  let kind ← kindFromType state.fieldType state.typeName
  refuse (state.defaultValueText.isSome
    && (state.cardinality == .repeated || state.oneofIndexText.isSome))
  let defaultValue ← match state.defaultValueText with
    | some text => (decodeDefaultValue kind text).map some
    | none => .ok none
  refuse (!isIdentifier state.name || state.number == 0)
  return {
    name := state.name
    number := state.number
    cardinality := state.cardinality
    kind := kind
    extendee := state.extendee
    defaultValue := defaultValue
    oneofName := state.oneofIndexText
    jsonName := state.jsonName
    proto3Optional := state.proto3Optional
    packedOverride := state.options.packedOverride
    editionDefaults := state.options.editionDefaults
    features := state.options.features
    featureSupport := state.options.featureSupport
    options := state.options.options }

def decodeFieldDescriptor [DefaultConversions] (bytes : Bytes) : Reading FieldDescriptor :=
  (decodeFields .field
    [(1, .string fun state name => { state with name := name }),
      (2, .string fun state extendee => { state with extendee := some extendee }),
      (3, .int32 fun state number => do
        return { state with number := ← fieldNumberFromDescriptor number }),
      (4, .int32 fun state label => do
        return { state with cardinality := ← labelFromNumber label }),
      (5, .int32 fun state fieldType => .ok { state with fieldType := fieldType }),
      (6, .string fun state typeName => { state with typeName := some typeName }),
      (7, .string fun state text => { state with defaultValueText := some text }),
      (8, .message (nested decodeFieldOptions fun state options =>
        .ok { state with options := options })),
      (9, .int32 fun state index => do
        return { state with oneofIndexText := some (← decodeOneofIndexText index) }),
      (10, .string fun state jsonName => { state with jsonName := some jsonName }),
      (17, .bool fun state proto3Optional => { state with proto3Optional := proto3Optional })]
    ({} : FieldState) bytes).andThen FieldState.finish

/-! ## Ranges, enums and oneofs -/

def decodeReservedRange (inclusiveEnd : Bool) (bytes : Bytes) : Reading ReservedRange :=
  (decodeFields .reservedRange
    [(1, .int32 fun (range : ReservedRange) start => .ok { range with start := start.toInt }),
      (2, .int32 fun range «end» =>
        .ok { range with «end» := some (if inclusiveEnd then «end».toInt + 1 else «end».toInt) })]
    { start := 0, «end» := none } bytes).andThen fun range => do
      refuse (range.end.any (· ≤ range.start))
      return range

def decodeExtensionRange (bytes : Bytes) : Reading ExtensionRange :=
  (decodeFields .extensionRange
    [(1, .int32 fun (range : ExtensionRange) start => .ok { range with start := start.toInt }),
      (2, .int32 fun range «end» => .ok { range with «end» := some «end».toInt }),
      (3, .message decodeExtensionRangeOptions)]
    { start := 0, «end» := none } bytes).andThen fun range => do
      validateDecodedExtensionRange range
      return range

def decodeEnumValueDescriptor : Bytes → Reading EnumValueDescriptor :=
  decodeFields .enumValue
    [(1, .string fun value name => { value with name := name }),
      (2, .int32 fun value number => .ok { value with number := number }),
      (3, .message decodeEnumValueOptions)]
    { name := [], number := 0 }

def decodeEnumDescriptor (bytes : Bytes) : Reading EnumDescriptor :=
  (decodeFields .enumeration
    [(1, .string fun (enumeration : EnumDescriptor) name => { enumeration with name := name }),
      (2, .message (nested decodeEnumValueDescriptor fun enumeration value =>
        .ok { enumeration with values := enumeration.values ++ [value] })),
      (3, .message decodeEnumOptions),
      (4, .message (nested (decodeReservedRange true) fun enumeration range =>
        .ok { enumeration with reservedRanges := enumeration.reservedRanges ++ [range] })),
      (5, .string fun enumeration name =>
        { enumeration with reservedNames := enumeration.reservedNames ++ [name] })]
    { name := [] } bytes).andThen fun enumeration => do
      validateEnumDescriptor enumeration
      return enumeration

def decodeOneofDescriptor (bytes : Bytes) : Reading OneofDescriptor :=
  (decodeFields .oneof
    [(1, .string fun (oneof : OneofDescriptor) name => { oneof with name := name }),
      (2, .message decodeOneofOptions)]
    { name := [] } bytes).andThen fun oneof => do
      refuse (!isIdentifier oneof.name)
      return oneof

/-! ## Services -/

def decodeMethodDescriptor (bytes : Bytes) : Reading MethodDescriptor :=
  (decodeFields .method
    [(1, .string fun (method : MethodDescriptor) name => { method with name := name }),
      (2, .string fun method type => { method with inputType := type }),
      (3, .string fun method type => { method with outputType := type }),
      (4, .message decodeMethodOptions),
      (5, .bool fun method streaming => { method with clientStreaming := streaming }),
      (6, .bool fun method streaming => { method with serverStreaming := streaming })]
    { name := [] } bytes).andThen fun method => do
      refuse (!isIdentifier method.name || !isTypeNameReference method.inputType
        || !isTypeNameReference method.outputType)
      return method

def decodeServiceDescriptor (bytes : Bytes) : Reading ServiceDescriptor :=
  (decodeFields .service
    [(1, .string fun (service : ServiceDescriptor) name => { service with name := name }),
      (2, .message (nested decodeMethodDescriptor fun service method =>
        .ok { service with methods := service.methods ++ [method] })),
      (3, .message decodeServiceOptions)]
    { name := [] } bytes).andThen fun service => do
      refuse (!isIdentifier service.name)
      Check.forTails (fun (method : MethodDescriptor) others =>
        refuseName method.name (others.map (·.name))) service.methods
      return service

/-! ## Source code info -/

/-- A span has three or four numbers, and its end does not stand before its start. -/
def validateSpan (span : List (BitVec 32)) : Except Error Unit := do
  refuse (span.length != 0 && span.length != 3 && span.length != 4)
  match span with
  | [startLine, startCol, endLine, endCol] =>
      refuse (endLine.toInt < startLine.toInt
        || (endLine.toInt == startLine.toInt && endCol.toInt < startCol.toInt))
  | _ => .ok ()

def decodeSourceCodeInfoLocation (bytes : Bytes) : Reading SourceLocation :=
  (decodeFields .sourceLocation
    [(1, .int32List fun (location : SourceLocation) values =>
        { location with path := location.path ++ values }),
      (2, .int32List fun location values => { location with span := location.span ++ values }),
      (3, .string fun location text => { location with leadingComments := some text }),
      (4, .string fun location text => { location with trailingComments := some text }),
      (6, .string fun location text =>
        { location with leadingDetachedComments := location.leadingDetachedComments ++ [text] })]
    {} bytes).andThen fun location => do
      refuse (location.path.any (·.toInt < 0) || location.span.any (·.toInt < 0))
      validateSpan location.span
      return location

def decodeSourceCodeInfo : Bytes → Reading SourceCodeInfo :=
  decodeFields .sourceCodeInfo
    [(1, .message (nested decodeSourceCodeInfoLocation fun source location =>
      .ok { source with locations := source.locations ++ [location] }))]
    {}

/-! ## Messages -/

/-- A message and, for its fields that are in a oneof, the indices of the two. -/
structure MessageState where
  message : MessageDescriptor := { name := [] }
  oneofIndexes : List (Nat × Nat) := []

/-- Append a field. The text in the place of its oneof's name is read back as an index. -/
def MessageState.addField (state : MessageState) (field : FieldDescriptor) :
    Except Error MessageState :=
  let append (field : FieldDescriptor) : MessageDescriptor :=
    { state.message with fields := state.message.fields ++ [field] }
  match field.oneofName with
  | none => .ok { state with message := append field }
  | some text => do
      let index ← orError .number (parseInt .u64 text 10)
      return {
        message := append { field with oneofName := none }
        oneofIndexes := state.oneofIndexes ++ [(state.message.fields.length, index.toNat)] }

/-- Give the fields the names of their oneofs. -/
def setOneofNames (message : MessageDescriptor) :
    List (Nat × Nat) → Except Error MessageDescriptor
  | [] => .ok message
  | (fieldIndex, oneofIndex) :: rest =>
      match message.oneofs[oneofIndex]? with
      | none => .error .invalidFieldType
      | some oneof =>
          setOneofNames { message with
            fields := message.fields.modify fieldIndex (fun field =>
              { field with oneofName := some oneof.name }) } rest

/-- What `decodeMessageDescriptor` does behind its loop. -/
def MessageState.finish (state : MessageState) : Except Error MessageDescriptor := do
  validateDecodedMessageDescriptor state.message
  let message ← setOneofNames state.message state.oneofIndexes
  validateDecodedOneofFieldContiguity message
  Check.forEach validateDecodedOneofFieldShape message.fields
  validateDecodedProto3OptionalFields message
  return message

section

variable [DefaultConversions]

/-- The known fields of a message; `decodeNested` decodes the messages in it. -/
def messageFields (decodeNested : Bytes → Reading MessageDescriptor) :
    List (Nat × Known MessageState) :=
  let onMessage (change : MessageDescriptor → MessageDescriptor) (state : MessageState) :
      MessageState := { state with message := change state.message }
  [(1, .string fun state name => onMessage ({ · with name := name }) state),
    (2, .message (nested decodeFieldDescriptor MessageState.addField)),
    (3, .message (nested decodeNested fun state message => .ok
      (onMessage (fun outer => { outer with messages := outer.messages ++ [message] }) state))),
    (4, .message (nested decodeEnumDescriptor fun state enumeration => .ok
      (onMessage (fun outer => { outer with enums := outer.enums ++ [enumeration] }) state))),
    (5, .message (nested decodeExtensionRange fun state range => .ok
      (onMessage (fun outer =>
        { outer with extensionRanges := outer.extensionRanges ++ [range] }) state))),
    (6, .message (nested decodeFieldDescriptor fun state field => .ok
      (onMessage (fun outer => { outer with extensions := outer.extensions ++ [field] }) state))),
    (7, .message fun state => nested (decodeMessageOptions state.message)
      (fun state message => .ok { state with message := message }) state),
    (8, .message (nested decodeOneofDescriptor fun state oneof => .ok
      (onMessage (fun outer => { outer with oneofs := outer.oneofs ++ [oneof] }) state))),
    (9, .message (nested (decodeReservedRange false) fun state range => .ok
      (onMessage (fun outer =>
        { outer with reservedRanges := outer.reservedRanges ++ [range] }) state))),
    (10, .string fun state name =>
      onMessage (fun outer => { outer with reservedNames := outer.reservedNames ++ [name] }) state)]

/-- `decodeMessageDescriptor`, given how the messages in it are decoded. -/
def decodeMessageWith (decodeNested : Bytes → Reading MessageDescriptor) (bytes : Bytes) :
    Reading MessageDescriptor :=
  (decodeFields .message (messageFields decodeNested) {} bytes).andThen MessageState.finish

def decodeMessageAt : Nat → Bytes → Reading MessageDescriptor
  | 0, _ => .error .fuel
  | levels + 1, bytes => decodeMessageWith (decodeMessageAt levels) bytes

def decodeMessageDescriptor (bytes : Bytes) : Reading MessageDescriptor :=
  decodeMessageAt (bytes.length + 1) bytes

/-- Only messages shorter than the payload are decoded inside it. -/
theorem decodeMessageWith_congr {decode decode' : Bytes → Reading MessageDescriptor}
    (bytes : Bytes) (h : ∀ payload, payload.length < bytes.length → decode payload = decode' payload) :
    decodeMessageWith decode bytes = decodeMessageWith decode' bytes := by
  have hpass : ∀ state input, input.length ≤ bytes.length →
      fieldPass .message (messageFields decode) state input
        = fieldPass .message (messageFields decode') state input := by
    intro state input hn
    refine fieldPass_congr (fun number => ?_) state input hn
    by_cases h3 : number = 3
    · refine .inr ⟨_, _, by rw [h3]; rfl, by rw [h3]; rfl, ?_⟩
      intro state payload hp
      rw [nested, nested, h payload hp]
    · have h3' : (number == 3) = false := by simpa using h3
      exact .inl (by simp only [messageFields, List.lookup_cons, h3'])
  rw [decodeMessageWith, decodeMessageWith, decodeFields, decodeFields,
    Loop.run_congr (fieldPass_consuming _ _) hpass _ _ (le_refl _)]

theorem decodeMessageAt_stable (n m : Nat) (bytes : Bytes) (hn : bytes.length < n)
    (hm : bytes.length < m) : decodeMessageAt n bytes = decodeMessageAt m bytes := by
  induction n generalizing m bytes with
  | zero => omega
  | succ n ih =>
      cases m with
      | zero => omega
      | succ m =>
          rw [decodeMessageAt, decodeMessageAt]
          exact decodeMessageWith_congr bytes fun payload hp => ih m payload (by omega) (by omega)

/-- The levels suffice: the decoder calls itself on the payloads it meets. -/
theorem decodeMessageDescriptor_eq (bytes : Bytes) :
    decodeMessageDescriptor bytes = decodeMessageWith decodeMessageDescriptor bytes := by
  rw [decodeMessageDescriptor, decodeMessageAt]
  exact decodeMessageWith_congr bytes fun payload hp =>
    decodeMessageAt_stable _ _ payload hp (Nat.lt_succ_self _)

end

/-! ## Files -/

structure FileState where
  file : FileDescriptor := {}
  publicDeps : List (BitVec 32) := []
  weakDeps : List (BitVec 32) := []
  sawFileFeatures : Bool := false
  sawSyntax : Option Syntax := none
  sawEditionField : Bool := false

namespace FileState

def addImport (kind : ImportKind) (state : FileState) (path : Bytes) : FileState :=
  { state with file := { state.file with imports := state.file.imports ++ [{ path, kind }] } }

/-- The default features of a syntax, unless the file's options have set features. -/
def defaultFeatures (state : FileState) (fileSyntax : Syntax) : FeatureSet :=
  if state.sawFileFeatures then state.file.features else FeatureSet.defaults fileSyntax

/-- The field `syntax`. -/
def setSyntax (state : FileState) (text : Bytes) : Except Error FileState :=
  let set (fileSyntax : Syntax) (edition : Edition) : FileState :=
    { state with
      sawSyntax := some fileSyntax
      file := { state.file with
        fileSyntax := fileSyntax
        edition := edition
        features := state.defaultFeatures fileSyntax } }
  if text == ascii "proto2" then .ok (set .proto2 Syntax.proto2.defaultEdition)
  else if text == ascii "proto3" then .ok (set .proto3 Syntax.proto3.defaultEdition)
  else if text == ascii "editions" then
    .ok (set .editions (if state.sawEditionField then state.file.edition
      else Syntax.editions.defaultEdition))
  else .error .invalidFieldType

/-- The field `edition`. -/
def setEdition (state : FileState) (number : BitVec 32) : Except Error FileState := do
  let edition ← editionFromInt number
  return { state with
    sawEditionField := true
    file := { state.file with
      fileSyntax := .editions
      edition := edition
      features := state.defaultFeatures .editions } }

/-- The imports, those at the listed indices with another kind. -/
def markImports (kind : ImportKind) (indexes : List (BitVec 32)) (imports : List Import) :
    List Import :=
  indexes.foldl (fun imports index => imports.modify index.toNat ({ · with kind := kind })) imports

/-- What `decodeFileDescriptorProto` does behind its loop. -/
def finish (state : FileState) : Except Error FileDescriptor := do
  validateDecodedFileEdition state.file state.sawSyntax state.sawEditionField
  validateImportList state.file.imports
  validateDependencyIndexes state.publicDeps state.weakDeps state.file.imports.length
  let imports := markImports .weak state.weakDeps
    (markImports .public state.publicDeps state.file.imports)
  let file := assignDecodedExtensionFullNames { state.file with imports := imports }
  validateDecodedImportSemantics file
  let file := placeMessages (← collapseMapEntryMessages file)
  let file := resolveDecodedEnumDefaults file
  validateDecodedFileDescriptor file
  validateDecodedPackedOptions file
  validateDecodedDefaults file
  validateDecodedFieldSyntax file
  validateDecodedFeatureApplicability file
  validateDecodedEnumSyntax file
  validateDecodedMessageSets file
  validateDecodedExtensionDeclarations file
  return file

end FileState

section

variable [DefaultConversions]

def fileFields : List (Nat × Known FileState) :=
  let onFile (change : FileDescriptor → FileDescriptor) (state : FileState) : FileState :=
    { state with file := change state.file }
  [(1, .string fun state name => onFile ({ · with name := name }) state),
    (2, .string fun state package => onFile ({ · with package := package }) state),
    (3, .string (FileState.addImport .normal)),
    (10, .int32 fun state index => .ok { state with publicDeps := state.publicDeps ++ [index] }),
    (11, .int32 fun state index => .ok { state with weakDeps := state.weakDeps ++ [index] }),
    (15, .string (FileState.addImport .option)),
    (4, .message (nested decodeMessageDescriptor fun state message => .ok
      (onFile (fun file => { file with messages := file.messages ++ [message] }) state))),
    (5, .message (nested decodeEnumDescriptor fun state enumeration => .ok
      (onFile (fun file => { file with enums := file.enums ++ [enumeration] }) state))),
    (6, .message (nested decodeServiceDescriptor fun state service => .ok
      (onFile (fun file => { file with services := file.services ++ [service] }) state))),
    (7, .message (nested decodeFieldDescriptor fun state field => .ok
      (onFile (fun file => { file with extensions := file.extensions ++ [field] }) state))),
    (8, .message fun state => nested (decodeFileOptions state.file)
      (fun state options => .ok { state with
        file := options.1, sawFileFeatures := options.2 || state.sawFileFeatures }) state),
    (9, .message (nested decodeSourceCodeInfo fun state source => .ok
      (onFile ({ · with sourceCodeInfo := source }) state))),
    (12, .bytes FileState.setSyntax),
    (14, .int32 FileState.setEdition)]

def decodeFileDescriptorProto (bytes : Bytes) : Reading FileDescriptor :=
  (decodeFields .file fileFields {} bytes).andThen FileState.finish

end

end Descriptor

end Pbz
