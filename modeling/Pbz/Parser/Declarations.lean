import Pbz.Parser.Options
import Pbz.Parser.Validate

set_option autoImplicit false

/-! # Declarations

The productions of the parser for fields, enums, services, messages and the file. A field
declaration returns the message of its group body, if it is a group, next to the field; the
source appends it to the parent of the field, and so do the callers here. The `address` of a
descriptor is the offset of its name.
-/

namespace Pbz

/-- The name of a declaration in a scope. -/
def qualifiedName (scope name : Bytes) : Bytes :=
  if scope.isEmpty || name.contains 0x2e then name else scope ++ 0x2e :: name

namespace Parser

variable [FloatConversions]

/-- Stop where the input has come to its end. -/
def notAtEnd : Parse Unit := do
  if (← get).current.tag == .eof then fail .unexpectedEof else return ()

/-! ## Ranges -/

/-- A number or a range of numbers, its end exclusive. -/
def parseRange : Parse (Int × Option Int) := do
  let start ← parseRangeBound
  let next ← checkedI64 (start + 1)
  if ← matchIdent (ascii "to") then return (start, ← parseRangeEnd)
  else return (start, some next)

def reservedNames (useIdentifiers : Bool) : Nat → List Bytes → Parse (List Bytes)
  | 0, _ => throw .fuel
  | rounds + 1, names => do
      let name ← if useIdentifiers then expectIdentifier else expectString rounds
      if ← consumeSymbol 0x2c then
        let self ← get
        if self.current.tag == (if useIdentifiers then .identifier else .stringLiteral) then
          reservedNames useIdentifiers rounds (names ++ [name])
        else fail .unexpectedToken
      else return names ++ [name]

def reservedRanges : Nat → List ReservedRange → Parse (List ReservedRange)
  | 0, _ => throw .fuel
  | rounds + 1, ranges => do
      let (start, stop) ← parseRange
      if ← consumeSymbol 0x2c then
        reservedRanges rounds (ranges ++ [{ start := start, «end» := stop }])
      else return ranges ++ [{ start := start, «end» := stop }]

/-- The reserved ranges and names of a statement. -/
def parseReserved (rounds : Nat) : Parse (List ReservedRange × List Bytes) := do
  let self ← get
  if self.current.tag == .stringLiteral || self.current.tag == .identifier then
    let useIdentifiers := self.file.fileSyntax == .editions
    if useIdentifiers && self.current.tag == .stringLiteral then fail .invalidSyntax
    else if !useIdentifiers && self.current.tag == .identifier then fail .invalidSyntax
    else
      let names ← reservedNames useIdentifiers rounds []
      expectSymbol 0x3b
      return ([], names)
  else
    let ranges ← reservedRanges rounds []
    expectSymbol 0x3b
    return (ranges, [])

def copyExtensionRangeOptions (source target : ExtensionRange) : ExtensionRange :=
  { target with
    options := target.options ++ source.options
    declarations := target.declarations ++ source.declarations
    verification := source.verification
    features := source.features }

/-- The ranges of an `extensions` statement. Options behind the last range only are options of
all of them. -/
def extensionRanges : Nat → Nat → List ExtensionRange → Parse (List ExtensionRange)
  | 0, _, _ => throw .fuel
  | rounds + 1, optionedRanges, ranges => do
      let (start, stop) ← parseRange
      let range : ExtensionRange := { start := start, «end» := stop }
      if ← consumeSymbol 0x5b then
        let options ← parseOptionList 0x5d rounds []
        let range ← applyOptions applyExtensionRangeOption options { range with options := options }
        if ← consumeSymbol 0x2c then
          extensionRanges rounds (optionedRanges + 1) (ranges ++ [range])
        else if optionedRanges == 0 then
          return ranges.map (copyExtensionRangeOptions range) ++ [range]
        else return ranges ++ [range]
      else if ← consumeSymbol 0x2c then extensionRanges rounds optionedRanges (ranges ++ [range])
      else return ranges ++ [range]

def parseExtensionRanges (rounds : Nat) : Parse (List ExtensionRange) := do
  let ranges ← extensionRanges rounds 0 []
  expectSymbol 0x3b
  return ranges

/-! ## Fields -/

/-- The label of a field, and whether it is an `optional` of proto3. -/
def parseLabel (oneofName : Option Bytes) : Parse (Cardinality × Bool) := do
  let self ← get
  if self.current.isIdent (ascii "optional") then
    if oneofName.isSome then fail .invalidSyntax
    else
      advanceVoid
      return (.optional, self.file.fileSyntax == .proto3)
  else if self.current.isIdent (ascii "required") then
    if oneofName.isSome then fail .invalidSyntax
    else if self.file.fileSyntax != .proto2 then fail .invalidSyntax
    else
      advanceVoid
      return (.required, false)
  else if self.current.isIdent (ascii "repeated") then
    if oneofName.isSome then fail .invalidSyntax
    else
      advanceVoid
      return (.repeated, false)
  else return (.implicit, false)

def parseFieldKind : Nat → Parse FieldKind
  | 0 => throw .fuel
  | rounds + 1 => do
      if ← matchIdent (ascii "map") then
        expectSymbol 0x3c
        let keyName ← expectIdentifier
        match ScalarType.fromName keyName with
        | none => fail .invalidFieldType
        | some key =>
            if !key.validMapKey then fail .invalidFieldType
            else
              expectSymbol 0x2c
              let valueKind ← parseFieldKind rounds
              expectSymbol 0x3e
              if valueKind.isMap || valueKind.isGroup then fail .invalidFieldType
              else return .map key valueKind
      else
        let typeName ← parseTypeNameSlice rounds
        match ScalarType.fromName typeName with
        | some scalar => return .scalar scalar
        | none => return .message typeName

/-- A field that is no group, behind its label. -/
def parsePlainField (rounds : Nat) (oneofName : Option Bytes) (cardinality : Cardinality)
    (proto3Optional : Bool) : Parse FieldDescriptor := do
  let kind ← parseFieldKind rounds
  let self ← get
  if self.file.fileSyntax == .proto2 && cardinality == .implicit && !kind.isMap
      && oneofName.isNone then fail .invalidSyntax
  else if kind.isMap && (cardinality != .implicit || oneofName.isSome) then fail .invalidFieldType
  else
    let name ← expectIdentifier
    expectSymbol 0x3d
    let number ← parseFieldNumber
    let field ← bracketedFieldOptions rounds
      { name := name
        number := number
        cardinality := if kind.isMap then .repeated else cardinality
        kind := kind
        oneofName := oneofName
        proto3Optional := proto3Optional
        address := self.current.start }
    expectSymbol 0x3b
    return field

mutual

/-- A field, and the message of its body if it is a group. -/
def parseField : Nat → Option Bytes → Parse (FieldDescriptor × Option MessageDescriptor)
  | 0, _ => throw .fuel
  | rounds + 1, oneofName => do
      let (cardinality, proto3Optional) ← parseLabel oneofName
      if ← matchIdent (ascii "group") then
        let self ← get
        if oneofName.isSome then fail .invalidSyntax
        else if self.file.fileSyntax == .editions then fail .invalidSyntax
        else if self.file.fileSyntax == .proto2 && cardinality == .implicit then
          fail .invalidSyntax
        else
          let (field, nested) ← parseGroupField rounds cardinality oneofName
          return (field, some nested)
      else return (← parsePlainField rounds oneofName cardinality proto3Optional, none)

def parseGroupField : Nat → Cardinality → Option Bytes →
    Parse (FieldDescriptor × MessageDescriptor)
  | 0, _, _ => throw .fuel
  | rounds + 1, cardinality, oneofName => do
      let address := (← get).current.start
      let name ← expectIdentifier
      if !name.head?.any isUpper then fail .invalidFieldType
      else
        expectSymbol 0x3d
        let number ← parseFieldNumber
        let field ← bracketedFieldOptions rounds
          { name := name.map toLower
            number := number
            cardinality := if cardinality == .implicit then .optional else cardinality
            kind := .group name
            oneofName := oneofName
            address := address }
        expectSymbol 0x7b
        let nested ← groupBody rounds { name := name, address := address }
        return (field, nested)

/-- The fields of a group up to its closing brace. -/
def groupBody : Nat → MessageDescriptor → Parse MessageDescriptor
  | 0, _ => throw .fuel
  | rounds + 1, nested => do
      if ← consumeSymbol 0x7d then return nested
      else
        notAtEnd
        if ← consumeSymbol 0x3b then groupBody rounds nested
        else
          let (field, inner) ← parseField rounds none
          groupBody rounds
            { nested with
              fields := nested.fields ++ [field]
              messages := nested.messages ++ inner.toList }

end

/-! ## Enums -/

def parseEnumValue (rounds : Nat) : Parse EnumValueDescriptor := do
  let name ← expectIdentifier
  expectSymbol 0x3d
  let number ← parseSignedInt32
  let options ← if ← consumeSymbol 0x5b then parseOptionList 0x5d rounds [] else pure []
  expectSymbol 0x3b
  applyOptions applyEnumValueOption options { name := name, number := number, options := options }

def enumBody : Nat → EnumDescriptor → Parse EnumDescriptor
  | 0, _ => throw .fuel
  | rounds + 1, enumeration => do
      if ← consumeSymbol 0x7d then return enumeration
      else
        notAtEnd
        if ← matchIdent (ascii "option") then
          let option ← parseOptionAssignmentStatement rounds
          let features ← applyFeatureOption enumeration.features option
          enumBody rounds
            { enumeration with options := enumeration.options ++ [option], features := features }
        else if ← matchIdent (ascii "reserved") then
          let (ranges, names) ← parseReserved rounds
          enumBody rounds
            { enumeration with
              reservedRanges := enumeration.reservedRanges ++ ranges
              reservedNames := enumeration.reservedNames ++ names }
        else if ← consumeSymbol 0x3b then enumBody rounds enumeration
        else
          let value ← parseEnumValue rounds
          enumBody rounds { enumeration with values := enumeration.values ++ [value] }

def parseEnumAfterKeyword (rounds : Nat) : Parse EnumDescriptor := do
  let address := (← get).current.start
  let name ← expectIdentifier
  expectSymbol 0x7b
  let enumeration ← enumBody rounds { name := name, address := address }
  let self ← get
  liftError (validateEnum enumeration self.file.fileSyntax)
  return enumeration

/-! ## Services -/

def rpcBody : Nat → MethodDescriptor → Parse MethodDescriptor
  | 0, _ => throw .fuel
  | rounds + 1, method => do
      if ← consumeSymbol 0x7d then return method
      else
        notAtEnd
        if ← matchIdent (ascii "option") then
          let option ← parseOptionAssignmentStatement rounds
          let features ← applyFeatureOption method.features option
          rpcBody rounds { method with options := method.options ++ [option], features := features }
        else
          expectSymbol 0x3b
          rpcBody rounds method

def parseRpcAfterKeyword (rounds : Nat) : Parse MethodDescriptor := do
  let name ← expectIdentifier
  expectSymbol 0x28
  let clientStreaming ← matchIdent (ascii "stream")
  let inputType ← parseTypeNameSlice rounds
  expectSymbol 0x29
  expectIdent (ascii "returns")
  expectSymbol 0x28
  let serverStreaming ← matchIdent (ascii "stream")
  let outputType ← parseTypeNameSlice rounds
  expectSymbol 0x29
  let method : MethodDescriptor :=
    { name := name, inputType := inputType, outputType := outputType,
      clientStreaming := clientStreaming, serverStreaming := serverStreaming }
  if ← consumeSymbol 0x7b then
    let method ← rpcBody rounds method
    let _ ← consumeSymbol 0x3b
    return method
  else
    expectSymbol 0x3b
    return method

def serviceBody : Nat → ServiceDescriptor → Parse ServiceDescriptor
  | 0, _ => throw .fuel
  | rounds + 1, service => do
      if ← consumeSymbol 0x7d then return service
      else
        notAtEnd
        if ← matchIdent (ascii "option") then
          let option ← parseOptionAssignmentStatement rounds
          let features ← applyFeatureOption service.features option
          serviceBody rounds
            { service with options := service.options ++ [option], features := features }
        else if ← matchIdent (ascii "rpc") then
          let method ← parseRpcAfterKeyword rounds
          serviceBody rounds { service with methods := service.methods ++ [method] }
        else
          expectSymbol 0x3b
          serviceBody rounds service

def parseServiceAfterKeyword (rounds : Nat) : Parse ServiceDescriptor := do
  let name ← expectIdentifier
  expectSymbol 0x7b
  serviceBody rounds { name := name }

/-! ## Messages -/

/-- `message` with a field declared in it and the message of its body if it is a group. -/
def addField (message : MessageDescriptor) (declared : FieldDescriptor × Option MessageDescriptor) :
    MessageDescriptor :=
  { message with
    fields := message.fields ++ [declared.1]
    messages := message.messages ++ declared.2.toList }

/-- `message` with an option of the oneof declared last. -/
def addOneofOption (message : MessageDescriptor) (option : FieldOption)
    (features : Option FeatureSet) : MessageDescriptor :=
  match message.oneofs.getLast? with
  | none => message
  | some oneof =>
      { message with
        oneofs := message.oneofs.dropLast ++
          [{ oneof with options := oneof.options ++ [option], features := features }] }

def oneofBody (oneofName : Bytes) : Nat → MessageDescriptor → Parse MessageDescriptor
  | 0, _ => throw .fuel
  | rounds + 1, message => do
      if ← consumeSymbol 0x7d then return message
      else
        notAtEnd
        if ← matchIdent (ascii "option") then
          let option ← parseOptionAssignmentStatement rounds
          let features ←
            applyFeatureOption (message.oneofs.getLast?.bind (·.features)) option
          oneofBody oneofName rounds (addOneofOption message option features)
        else if ← consumeSymbol 0x3b then oneofBody oneofName rounds message
        else
          let declared ← parseField rounds (some oneofName)
          oneofBody oneofName rounds (addField message declared)

def parseOneof (rounds : Nat) (message : MessageDescriptor) : Parse MessageDescriptor := do
  let oneofName ← expectIdentifier
  expectSymbol 0x7b
  oneofBody oneofName rounds { message with oneofs := message.oneofs ++ [{ name := oneofName }] }

/-- The extensions of an `extend` block and the messages of the groups among them. -/
def extendBody (extendee scope : Bytes) : Nat → List FieldDescriptor → List MessageDescriptor →
    Parse (List FieldDescriptor × List MessageDescriptor)
  | 0, _, _ => throw .fuel
  | rounds + 1, extensions, groups => do
      if ← consumeSymbol 0x7d then return (extensions, groups)
      else
        notAtEnd
        if ← consumeSymbol 0x3b then extendBody extendee scope rounds extensions groups
        else
          let (field, nested) ← parseField rounds none
          if field.cardinality == .required then fail .invalidSyntax
          else
            let field :=
              { field with
                proto3Optional := false
                extendee := some extendee
                fullName := if scope.isEmpty then none else some (qualifiedName scope field.name) }
            extendBody extendee scope rounds (extensions ++ [field]) (groups ++ nested.toList)

def parseExtend (rounds : Nat) (scope : Bytes) :
    Parse (List FieldDescriptor × List MessageDescriptor) := do
  let extendee ← parseTypeNameSlice rounds
  expectSymbol 0x7b
  extendBody extendee scope rounds [] []

mutual

def parseMessageAfterKeyword : Nat → Bytes → Parse MessageDescriptor
  | 0, _ => throw .fuel
  | rounds + 1, parentScope => do
      let address := (← get).current.start
      let name ← expectIdentifier
      expectSymbol 0x7b
      let message ← messageBody (qualifiedName parentScope name) rounds
        { name := name, address := address }
      let self ← get
      liftError (validateMessageFields message self.file.fileSyntax)
      return message

def messageBody (messageScope : Bytes) : Nat → MessageDescriptor → Parse MessageDescriptor
  | 0, _ => throw .fuel
  | rounds + 1, message => do
      if ← consumeSymbol 0x7d then return message
      else
        notAtEnd
        if ← matchIdent (ascii "option") then
          let option ← parseOptionAssignmentStatement rounds
          let message ← applyMessageOption
            { message with options := message.options ++ [option] } option
          messageBody messageScope rounds message
        else if ← matchIdent (ascii "message") then
          let nested ← parseMessageAfterKeyword rounds messageScope
          messageBody messageScope rounds { message with messages := message.messages ++ [nested] }
        else if ← matchIdent (ascii "enum") then
          let enumeration ← parseEnumAfterKeyword rounds
          messageBody messageScope rounds { message with enums := message.enums ++ [enumeration] }
        else if ← matchIdent (ascii "oneof") then
          let message ← parseOneof rounds message
          messageBody messageScope rounds message
        else if ← matchIdent (ascii "extensions") then
          let ranges ← parseExtensionRanges rounds
          messageBody messageScope rounds
            { message with extensionRanges := message.extensionRanges ++ ranges }
        else if ← matchIdent (ascii "reserved") then
          let (ranges, names) ← parseReserved rounds
          messageBody messageScope rounds
            { message with
              reservedRanges := message.reservedRanges ++ ranges
              reservedNames := message.reservedNames ++ names }
        else if ← matchIdent (ascii "extend") then
          let (extensions, groups) ← parseExtend rounds messageScope
          messageBody messageScope rounds
            { message with
              extensions := message.extensions ++ extensions
              messages := message.messages ++ groups }
        else if ← consumeSymbol 0x3b then messageBody messageScope rounds message
        else
          let declared ← parseField rounds none
          messageBody messageScope rounds (addField message declared)

end

/-! ## The file -/

def importKind : Parse ImportKind := do
  if ← matchIdent (ascii "public") then return .public
  else if ← matchIdent (ascii "weak") then return .weak
  else if ← matchIdent (ascii "option") then return .option
  else return .normal

def parseImport (rounds : Nat) : Parse Unit := do
  let kind ← importKind
  let path ← expectString rounds
  expectSymbol 0x3b
  modifyFile (fun file => { file with imports := file.imports ++ [{ path := path, kind := kind }] })

/-- Mark that the syntax or the edition of the file has been declared, at most once. -/
def declareSyntax : Parse Unit := do
  let self ← get
  if self.sawSyntaxOrEdition then fail .invalidSyntax
  else set { self with sawSyntaxOrEdition := true }

def parseSyntax (rounds : Nat) : Parse Unit := do
  declareSyntax
  expectSymbol 0x3d
  let fileSyntax ← expectString rounds
  if fileSyntax == ascii "proto2" then modifyFile (·.setSyntax .proto2)
  else if fileSyntax == ascii "proto3" then modifyFile (·.setSyntax .proto3)
  else fail .invalidSyntax
  expectSymbol 0x3b

def parseEdition (rounds : Nat) : Parse Unit := do
  declareSyntax
  expectSymbol 0x3d
  let editionText ← expectString rounds
  match Edition.fromYear editionText with
  | none => fail .invalidEdition
  | some edition =>
      modifyFile (·.setEdition edition)
      expectSymbol 0x3b

/-- One declaration of a file. -/
def parseDeclaration (rounds : Nat) : Parse Unit := do
  if ← matchIdent (ascii "syntax") then parseSyntax rounds
  else if ← matchIdent (ascii "edition") then parseEdition rounds
  else if ← matchIdent (ascii "package") then
    let package ← parseFullIdent rounds
    modifyFile (fun file => { file with package := package })
    expectSymbol 0x3b
  else if ← matchIdent (ascii "import") then parseImport rounds
  else if ← matchIdent (ascii "option") then
    let option ← parseOptionAssignmentStatement rounds
    addFileOption option
  else if ← matchIdent (ascii "message") then
    let package := (← get).file.package
    let message ← parseMessageAfterKeyword rounds package
    modifyFile (fun file => { file with messages := file.messages ++ [message] })
  else if ← matchIdent (ascii "enum") then
    let enumeration ← parseEnumAfterKeyword rounds
    modifyFile (fun file => { file with enums := file.enums ++ [enumeration] })
  else if ← matchIdent (ascii "extend") then
    let (extensions, groups) ← parseExtend rounds []
    modifyFile (fun file =>
      { file with
        extensions := file.extensions ++ extensions
        messages := file.messages ++ groups })
  else if ← matchIdent (ascii "service") then
    let service ← parseServiceAfterKeyword rounds
    modifyFile (fun file => { file with services := file.services ++ [service] })
  else expectSymbol 0x3b

def parseFile : Nat → Parse Unit
  | 0 => throw .fuel
  | rounds + 1 => do
      if (← get).current.tag == .eof then return ()
      else
        parseDeclaration rounds
        parseFile rounds

end Parser

end Pbz
