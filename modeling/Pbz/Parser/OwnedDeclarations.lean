import Pbz.Parser.OwnedOptions

set_option autoImplicit false

/-! # Declarations of a parse that owns its strings

The productions of declarations once more, those that allocate strings.
-/

namespace Pbz

namespace Owned

open Logged

variable [FloatConversions]

/-! ## Ranges -/

omit [FloatConversions] in
def reservedNames (useIdentifiers : Bool) : Nat → List Bytes → OwnedParse (List Bytes)
  | 0, _ => throw .fuel
  | rounds + 1, names => do
      let name ← if useIdentifiers then Parser.expectIdentifier else expectString rounds
      if ← Parser.consumeSymbol 0x2c then
        let self ← get
        if self.current.tag == (if useIdentifiers then .identifier else .stringLiteral) then
          reservedNames useIdentifiers rounds (names ++ [name])
        else fail .unexpectedToken
      else return names ++ [name]

def parseReserved (rounds : Nat) : OwnedParse (List ReservedRange × List Bytes) := do
  let self ← get
  if self.current.tag == .stringLiteral || self.current.tag == .identifier then
    let useIdentifiers := self.file.fileSyntax == .editions
    if useIdentifiers && self.current.tag == .stringLiteral then fail .invalidSyntax
    else if !useIdentifiers && self.current.tag == .identifier then fail .invalidSyntax
    else
      let names ← reservedNames useIdentifiers rounds []
      Parser.expectSymbol 0x3b
      return ([], names)
  else
    let ranges ← Parser.reservedRanges rounds []
    Parser.expectSymbol 0x3b
    return (ranges, [])

def extensionRanges : Nat → Nat → List ExtensionRange → OwnedParse (List ExtensionRange)
  | 0, _, _ => throw .fuel
  | rounds + 1, optionedRanges, ranges => do
      let (start, stop) ← Parser.parseRange
      let range : ExtensionRange := { start := start, «end» := stop }
      if ← Parser.consumeSymbol 0x5b then
        let options ← parseOptionList 0x5d rounds []
        let range ← applyOptions applyExtensionRangeOption options { range with options := options }
        if ← Parser.consumeSymbol 0x2c then
          extensionRanges rounds (optionedRanges + 1) (ranges ++ [range])
        else if optionedRanges == 0 then
          return ranges.map (Parser.copyExtensionRangeOptions range) ++ [range]
        else return ranges ++ [range]
      else if ← Parser.consumeSymbol 0x2c then
        extensionRanges rounds optionedRanges (ranges ++ [range])
      else return ranges ++ [range]

def parseExtensionRanges (rounds : Nat) : OwnedParse (List ExtensionRange) := do
  let ranges ← extensionRanges rounds 0 []
  Parser.expectSymbol 0x3b
  return ranges

section Ranges

variable {rounds : Nat}

omit [FloatConversions] in
theorem reservedNames_follows {useIdentifiers : Bool} {names : List Bytes} :
    Follows ownership (reservedNames useIdentifiers rounds names)
      (Parser.reservedNames useIdentifiers rounds names) := by
  induction rounds generalizing names with
  | zero => exact .throw
  | succ rounds ih =>
      refine .ite (.behind fun name => ?_) (expectString_follows.bind fun name => ?_)
      all_goals
        refine .behind fun _ => .ite (.get fun s => ?_) .pure
        exact .ite (fun _ => ih s) fun _ => fail_follows s

omit [FloatConversions] in
theorem parseReserved_follows :
    Follows ownership (parseReserved rounds) (Parser.parseReserved rounds) := by
  refine .get fun s => .ite (fun _ => ?_) fun _ => ?_
  · refine .ite (fun _ => fail_follows s) fun _ => .ite (fun _ => fail_follows s) fun _ => ?_
    exact (reservedNames_follows.bind fun _ => .behind fun _ => .pure) s
  · exact Follows.behind (fun _ => .behind fun _ => .pure) s

theorem extensionRanges_follows {optionedRanges : Nat} {ranges : List ExtensionRange} :
    Follows ownership (extensionRanges rounds optionedRanges ranges)
      (Parser.extensionRanges rounds optionedRanges ranges) := by
  induction rounds generalizing optionedRanges ranges with
  | zero => exact .throw
  | succ rounds ih =>
      refine .behind fun range => .behind fun _ => .ite ?_ (.behind fun _ => .ite ih .pure)
      refine parseOptionList_follows.bind fun options => ?_
      refine (applyOptions_follows fun _ _ => applyExtensionRangeOption_follows).bind fun range => ?_
      exact .behind fun _ => .ite ih (.ite .pure .pure)

theorem parseExtensionRanges_follows :
    Follows ownership (parseExtensionRanges rounds) (Parser.parseExtensionRanges rounds) :=
  extensionRanges_follows.bind fun _ => .behind fun _ => .pure

end Ranges

/-! ## Fields -/

def parsePlainField (rounds : Nat) (oneofName : Option Bytes) (cardinality : Cardinality)
    (proto3Optional : Bool) : OwnedParse FieldDescriptor := do
  let kind ← Parser.parseFieldKind rounds
  let self ← get
  if self.file.fileSyntax == .proto2 && cardinality == .implicit && !kind.isMap
      && oneofName.isNone then fail .invalidSyntax
  else if kind.isMap && (cardinality != .implicit || oneofName.isSome) then fail .invalidFieldType
  else
    let name ← Parser.expectIdentifier
    Parser.expectSymbol 0x3d
    let number ← Parser.parseFieldNumber
    let field ← bracketedFieldOptions rounds
      { name := name
        number := number
        cardinality := if kind.isMap then .repeated else cardinality
        kind := kind
        oneofName := oneofName
        proto3Optional := proto3Optional
        address := self.current.start }
    Parser.expectSymbol 0x3b
    return field

mutual

def parseField : Nat → Option Bytes → OwnedParse (FieldDescriptor × Option MessageDescriptor)
  | 0, _ => throw .fuel
  | rounds + 1, oneofName => do
      let (cardinality, proto3Optional) ← Parser.parseLabel oneofName
      if ← Parser.matchIdent (ascii "group") then
        let self ← get
        if oneofName.isSome then fail .invalidSyntax
        else if self.file.fileSyntax == .editions then fail .invalidSyntax
        else if self.file.fileSyntax == .proto2 && cardinality == .implicit then
          fail .invalidSyntax
        else
          let (field, nested) ← parseGroupField rounds cardinality oneofName
          return (field, some nested)
      else return (← parsePlainField rounds oneofName cardinality proto3Optional, none)

def parseGroupField : Nat → Cardinality → Option Bytes →
    OwnedParse (FieldDescriptor × MessageDescriptor)
  | 0, _, _ => throw .fuel
  | rounds + 1, cardinality, oneofName => do
      let address := (← get).current.start
      let name ← Parser.expectIdentifier
      if !name.head?.any isUpper then fail .invalidFieldType
      else
        behindGroupName name fun fieldName => do
          Parser.expectSymbol 0x3d
          let number ← Parser.parseFieldNumber
          let field ← bracketedFieldOptions rounds
            { name := fieldName
              number := number
              cardinality := if cardinality == .implicit then .optional else cardinality
              kind := .group name
              oneofName := oneofName
              address := address }
          Parser.expectSymbol 0x7b
          let nested ← groupBody rounds { name := name, address := address }
          return (field, nested)

def groupBody : Nat → MessageDescriptor → OwnedParse MessageDescriptor
  | 0, _ => throw .fuel
  | rounds + 1, nested => do
      if ← Parser.consumeSymbol 0x7d then return nested
      else
        Parser.notAtEnd
        if ← Parser.consumeSymbol 0x3b then groupBody rounds nested
        else
          let (field, inner) ← parseField rounds none
          groupBody rounds
            { nested with
              fields := nested.fields ++ [field]
              messages := nested.messages ++ inner.toList }

end

section Fields

variable {rounds : Nat}

theorem parsePlainField_follows {oneofName : Option Bytes} {cardinality : Cardinality}
    {proto3Optional : Bool} :
    Follows ownership (parsePlainField rounds oneofName cardinality proto3Optional)
      (Parser.parsePlainField rounds oneofName cardinality proto3Optional) := by
  refine .behind fun kind => .get fun s => .ite (fun _ => fail_follows s) fun _ => ?_
  refine .ite (fun _ => fail_follows s) fun _ => ?_
  refine Follows.behind (fun name => .behind fun _ => .behind fun number => ?_) s
  exact bracketedFieldOptions_follows.bind fun field => .behind fun _ => .pure

/-- The fields of a group may be groups in turn. -/
theorem parseField_group_follows (rounds : Nat) :
    (∀ oneofName, Follows ownership (parseField rounds oneofName)
      (Parser.parseField rounds oneofName)) ∧
    (∀ cardinality oneofName, Follows ownership (parseGroupField rounds cardinality oneofName)
      (Parser.parseGroupField rounds cardinality oneofName)) ∧
    (∀ nested, Follows ownership (groupBody rounds nested) (Parser.groupBody rounds nested)) := by
  induction rounds with
  | zero => exact ⟨fun _ => .throw, fun _ _ => .throw, fun _ => .throw⟩
  | succ rounds ih =>
      obtain ⟨hfield, hgroup, hbody⟩ := ih
      refine ⟨fun oneofName => ?_, fun cardinality oneofName => ?_, fun nested => ?_⟩
      · refine .behind fun label => .behind fun isGroup => .ite (.get fun s => ?_) ?_
        · refine .ite (fun _ => fail_follows s) fun _ => .ite (fun _ => fail_follows s) fun _ => ?_
          refine .ite (fun _ => fail_follows s) fun _ => ?_
          exact ((hgroup _ _).bind fun _ => .pure) s
        · exact parsePlainField_follows.bind fun _ => .pure
      · refine .get fun s => Follows.behind (fun name => .ite fail_follows ?_) s
        refine behindGroupName_follows <| .behind fun _ => .behind fun number => ?_
        refine bracketedFieldOptions_follows.bind fun field => .behind fun _ => ?_
        exact (hbody _).bind fun _ => .pure
      · refine .behind fun _ => .ite .pure (.behind fun _ => .behind fun _ => .ite (hbody _) ?_)
        exact (hfield _).bind fun _ => hbody _

theorem parseField_follows {oneofName : Option Bytes} :
    Follows ownership (parseField rounds oneofName) (Parser.parseField rounds oneofName) :=
  (parseField_group_follows rounds).1 oneofName

end Fields

/-! ## Enums -/

def parseEnumValue (rounds : Nat) : OwnedParse EnumValueDescriptor := do
  let name ← Parser.expectIdentifier
  Parser.expectSymbol 0x3d
  let number ← Parser.parseSignedInt32
  let options ← if ← Parser.consumeSymbol 0x5b then parseOptionList 0x5d rounds [] else pure []
  Parser.expectSymbol 0x3b
  applyOptions applyEnumValueOption options { name := name, number := number, options := options }

def enumBody : Nat → EnumDescriptor → OwnedParse EnumDescriptor
  | 0, _ => throw .fuel
  | rounds + 1, enumeration => do
      if ← Parser.consumeSymbol 0x7d then return enumeration
      else
        Parser.notAtEnd
        if ← Parser.matchIdent (ascii "option") then
          let option ← parseOptionAssignmentStatement rounds
          let features ← Parser.applyFeatureOption enumeration.features option
          enumBody rounds
            { enumeration with options := enumeration.options ++ [option], features := features }
        else if ← Parser.matchIdent (ascii "reserved") then
          let (ranges, names) ← parseReserved rounds
          enumBody rounds
            { enumeration with
              reservedRanges := enumeration.reservedRanges ++ ranges
              reservedNames := enumeration.reservedNames ++ names }
        else if ← Parser.consumeSymbol 0x3b then enumBody rounds enumeration
        else
          let value ← parseEnumValue rounds
          enumBody rounds { enumeration with values := enumeration.values ++ [value] }

def parseEnumAfterKeyword (rounds : Nat) : OwnedParse EnumDescriptor := do
  let address := (← get).current.start
  let name ← Parser.expectIdentifier
  Parser.expectSymbol 0x7b
  let enumeration ← enumBody rounds { name := name, address := address }
  let self ← get
  liftError (Parser.validateEnum enumeration self.file.fileSyntax)
  return enumeration

section Enums

variable {rounds : Nat}

theorem parseEnumValue_follows :
    Follows ownership (parseEnumValue rounds) (Parser.parseEnumValue rounds) := by
  refine .behind fun name => .behind fun _ => .behind fun number => .behind fun _ => ?_
  have hrest (options : List FieldOption) (value : EnumValueDescriptor) :
      Follows ownership (do
        Parser.expectSymbol 0x3b
        applyOptions applyEnumValueOption options value) (do
        Parser.expectSymbol 0x3b
        Parser.applyOptions Parser.applyEnumValueOption options value) :=
    .behind fun _ => applyOptions_follows fun _ _ => applyEnumValueOption_follows
  exact .ite (parseOptionList_follows.bind fun options => hrest options _)
    (Follows.pure.bind fun options => hrest options _)

theorem enumBody_follows {enumeration : EnumDescriptor} :
    Follows ownership (enumBody rounds enumeration) (Parser.enumBody rounds enumeration) := by
  induction rounds generalizing enumeration with
  | zero => exact .throw
  | succ rounds ih =>
      refine .behind fun _ => .ite .pure (.behind fun _ => .behind fun _ => .ite ?_ ?_)
      · exact parseOptionAssignmentStatement_follows.bind fun _ => .behind fun _ => ih
      refine .behind fun _ => .ite (parseReserved_follows.bind fun _ => ih) (.behind fun _ => ?_)
      exact .ite ih (parseEnumValue_follows.bind fun _ => ih)

theorem parseEnumAfterKeyword_follows :
    Follows ownership (parseEnumAfterKeyword rounds) (Parser.parseEnumAfterKeyword rounds) := by
  refine .get fun s => Follows.behind (fun name => .behind fun _ => ?_) s
  exact enumBody_follows.bind fun _ => .get fun s => liftError_bind (fun _ => .pure) s

end Enums

/-! ## Services -/

def rpcBody : Nat → MethodDescriptor → OwnedParse MethodDescriptor
  | 0, _ => throw .fuel
  | rounds + 1, method => do
      if ← Parser.consumeSymbol 0x7d then return method
      else
        Parser.notAtEnd
        if ← Parser.matchIdent (ascii "option") then
          let option ← parseOptionAssignmentStatement rounds
          let features ← Parser.applyFeatureOption method.features option
          rpcBody rounds { method with options := method.options ++ [option], features := features }
        else
          Parser.expectSymbol 0x3b
          rpcBody rounds method

def parseRpcAfterKeyword (rounds : Nat) : OwnedParse MethodDescriptor := do
  let name ← Parser.expectIdentifier
  Parser.expectSymbol 0x28
  let clientStreaming ← Parser.matchIdent (ascii "stream")
  let inputType ← Parser.parseTypeNameSlice rounds
  Parser.expectSymbol 0x29
  Parser.expectIdent (ascii "returns")
  Parser.expectSymbol 0x28
  let serverStreaming ← Parser.matchIdent (ascii "stream")
  let outputType ← Parser.parseTypeNameSlice rounds
  Parser.expectSymbol 0x29
  let method : MethodDescriptor :=
    { name := name, inputType := inputType, outputType := outputType,
      clientStreaming := clientStreaming, serverStreaming := serverStreaming }
  if ← Parser.consumeSymbol 0x7b then
    let method ← rpcBody rounds method
    let _ ← Parser.consumeSymbol 0x3b
    return method
  else
    Parser.expectSymbol 0x3b
    return method

def serviceBody : Nat → ServiceDescriptor → OwnedParse ServiceDescriptor
  | 0, _ => throw .fuel
  | rounds + 1, service => do
      if ← Parser.consumeSymbol 0x7d then return service
      else
        Parser.notAtEnd
        if ← Parser.matchIdent (ascii "option") then
          let option ← parseOptionAssignmentStatement rounds
          let features ← Parser.applyFeatureOption service.features option
          serviceBody rounds
            { service with options := service.options ++ [option], features := features }
        else if ← Parser.matchIdent (ascii "rpc") then
          let method ← parseRpcAfterKeyword rounds
          serviceBody rounds { service with methods := service.methods ++ [method] }
        else
          Parser.expectSymbol 0x3b
          serviceBody rounds service

def parseServiceAfterKeyword (rounds : Nat) : OwnedParse ServiceDescriptor := do
  let name ← Parser.expectIdentifier
  Parser.expectSymbol 0x7b
  serviceBody rounds { name := name }

section Services

variable {rounds : Nat}

theorem rpcBody_follows {method : MethodDescriptor} :
    Follows ownership (rpcBody rounds method) (Parser.rpcBody rounds method) := by
  induction rounds generalizing method with
  | zero => exact .throw
  | succ rounds ih =>
      refine .behind fun _ => .ite .pure (.behind fun _ => .behind fun _ => .ite ?_ ?_)
      · exact parseOptionAssignmentStatement_follows.bind fun _ => .behind fun _ => ih
      · exact .behind fun _ => ih

theorem parseRpcAfterKeyword_follows :
    Follows ownership (parseRpcAfterKeyword rounds) (Parser.parseRpcAfterKeyword rounds) := by
  refine .behind fun name => .behind fun _ => .behind fun clientStreaming => ?_
  refine .behind fun inputType => .behind fun _ => .behind fun _ => .behind fun _ => ?_
  refine .behind fun serverStreaming => .behind fun outputType => .behind fun _ => ?_
  refine .behind fun _ => .ite ?_ (.behind fun _ => .pure)
  exact rpcBody_follows.bind fun _ => .behind fun _ => .pure

theorem serviceBody_follows {service : ServiceDescriptor} :
    Follows ownership (serviceBody rounds service) (Parser.serviceBody rounds service) := by
  induction rounds generalizing service with
  | zero => exact .throw
  | succ rounds ih =>
      refine .behind fun _ => .ite .pure (.behind fun _ => .behind fun _ => .ite ?_ ?_)
      · exact parseOptionAssignmentStatement_follows.bind fun _ => .behind fun _ => ih
      · exact .behind fun _ => .ite (parseRpcAfterKeyword_follows.bind fun _ => ih)
          (.behind fun _ => ih)

theorem parseServiceAfterKeyword_follows :
    Follows ownership (parseServiceAfterKeyword rounds)
      (Parser.parseServiceAfterKeyword rounds) :=
  .behind fun _ => .behind fun _ => serviceBody_follows

end Services

/-! ## Messages -/

def oneofBody (oneofName : Bytes) : Nat → MessageDescriptor → OwnedParse MessageDescriptor
  | 0, _ => throw .fuel
  | rounds + 1, message => do
      if ← Parser.consumeSymbol 0x7d then return message
      else
        Parser.notAtEnd
        if ← Parser.matchIdent (ascii "option") then
          let option ← parseOptionAssignmentStatement rounds
          let features ←
            Parser.applyFeatureOption (message.oneofs.getLast?.bind (·.features)) option
          oneofBody oneofName rounds (Parser.addOneofOption message option features)
        else if ← Parser.consumeSymbol 0x3b then oneofBody oneofName rounds message
        else
          let declared ← parseField rounds (some oneofName)
          oneofBody oneofName rounds (Parser.addField message declared)

def parseOneof (rounds : Nat) (message : MessageDescriptor) : OwnedParse MessageDescriptor := do
  let oneofName ← Parser.expectIdentifier
  Parser.expectSymbol 0x7b
  oneofBody oneofName rounds { message with oneofs := message.oneofs ++ [{ name := oneofName }] }

def extendBody (extendee scope : Bytes) : Nat → List FieldDescriptor → List MessageDescriptor →
    OwnedParse (List FieldDescriptor × List MessageDescriptor)
  | 0, _, _ => throw .fuel
  | rounds + 1, extensions, groups => do
      if ← Parser.consumeSymbol 0x7d then return (extensions, groups)
      else
        Parser.notAtEnd
        if ← Parser.consumeSymbol 0x3b then extendBody extendee scope rounds extensions groups
        else
          let (field, nested) ← parseField rounds none
          if field.cardinality == .required then fail .invalidSyntax
          else
            let field :=
              { field with
                proto3Optional := false
                extendee := some extendee
                fullName := if scope.isEmpty then none else some (qualifiedName scope field.name) }
            extendBody extendee scope rounds (extensions ++ [field]) (groups ++ nested.toList)

def parseExtend (rounds : Nat) (scope : Bytes) :
    OwnedParse (List FieldDescriptor × List MessageDescriptor) := do
  let extendee ← Parser.parseTypeNameSlice rounds
  Parser.expectSymbol 0x7b
  extendBody extendee scope rounds [] []

mutual

def parseMessageAfterKeyword : Nat → Bytes → OwnedParse MessageDescriptor
  | 0, _ => throw .fuel
  | rounds + 1, parentScope => do
      let address := (← get).current.start
      let name ← Parser.expectIdentifier
      Parser.expectSymbol 0x7b
      let message ← messageBody (qualifiedName parentScope name) rounds
        { name := name, address := address }
      let self ← get
      liftError (Parser.validateMessageFields message self.file.fileSyntax)
      return message

def messageBody (messageScope : Bytes) : Nat → MessageDescriptor → OwnedParse MessageDescriptor
  | 0, _ => throw .fuel
  | rounds + 1, message => do
      if ← Parser.consumeSymbol 0x7d then return message
      else
        Parser.notAtEnd
        if ← Parser.matchIdent (ascii "option") then
          let option ← parseOptionAssignmentStatement rounds
          let message ← Parser.applyMessageOption
            { message with options := message.options ++ [option] } option
          messageBody messageScope rounds message
        else if ← Parser.matchIdent (ascii "message") then
          let nested ← parseMessageAfterKeyword rounds messageScope
          messageBody messageScope rounds { message with messages := message.messages ++ [nested] }
        else if ← Parser.matchIdent (ascii "enum") then
          let enumeration ← parseEnumAfterKeyword rounds
          messageBody messageScope rounds { message with enums := message.enums ++ [enumeration] }
        else if ← Parser.matchIdent (ascii "oneof") then
          let message ← parseOneof rounds message
          messageBody messageScope rounds message
        else if ← Parser.matchIdent (ascii "extensions") then
          let ranges ← parseExtensionRanges rounds
          messageBody messageScope rounds
            { message with extensionRanges := message.extensionRanges ++ ranges }
        else if ← Parser.matchIdent (ascii "reserved") then
          let (ranges, names) ← parseReserved rounds
          messageBody messageScope rounds
            { message with
              reservedRanges := message.reservedRanges ++ ranges
              reservedNames := message.reservedNames ++ names }
        else if ← Parser.matchIdent (ascii "extend") then
          let (extensions, groups) ← parseExtend rounds messageScope
          messageBody messageScope rounds
            { message with
              extensions := message.extensions ++ extensions
              messages := message.messages ++ groups }
        else if ← Parser.consumeSymbol 0x3b then messageBody messageScope rounds message
        else
          let declared ← parseField rounds none
          messageBody messageScope rounds (Parser.addField message declared)

end

section Messages

variable {rounds : Nat}

theorem oneofBody_follows {oneofName : Bytes} {message : MessageDescriptor} :
    Follows ownership (oneofBody oneofName rounds message)
      (Parser.oneofBody oneofName rounds message) := by
  induction rounds generalizing message with
  | zero => exact .throw
  | succ rounds ih =>
      refine .behind fun _ => .ite .pure (.behind fun _ => .behind fun _ => .ite ?_ ?_)
      · exact parseOptionAssignmentStatement_follows.bind fun _ => .behind fun _ => ih
      · exact .behind fun _ => .ite ih (parseField_follows.bind fun _ => ih)

theorem parseOneof_follows {message : MessageDescriptor} :
    Follows ownership (parseOneof rounds message) (Parser.parseOneof rounds message) :=
  .behind fun _ => .behind fun _ => oneofBody_follows

theorem extendBody_follows {extendee scope : Bytes} {extensions : List FieldDescriptor}
    {groups : List MessageDescriptor} :
    Follows ownership (extendBody extendee scope rounds extensions groups)
      (Parser.extendBody extendee scope rounds extensions groups) := by
  induction rounds generalizing extensions groups with
  | zero => exact .throw
  | succ rounds ih =>
      refine .behind fun _ => .ite .pure (.behind fun _ => .behind fun _ => .ite ih ?_)
      exact parseField_follows.bind fun _ => .ite fail_follows ih

theorem parseExtend_follows {scope : Bytes} :
    Follows ownership (parseExtend rounds scope) (Parser.parseExtend rounds scope) :=
  .behind fun _ => .behind fun _ => extendBody_follows

theorem parseMessage_messageBody_follows (rounds : Nat) :
    (∀ scope, Follows ownership (parseMessageAfterKeyword rounds scope)
      (Parser.parseMessageAfterKeyword rounds scope)) ∧
    (∀ scope message, Follows ownership (messageBody scope rounds message)
      (Parser.messageBody scope rounds message)) := by
  induction rounds with
  | zero => exact ⟨fun _ => .throw, fun _ _ => .throw⟩
  | succ rounds ih =>
      obtain ⟨hmessage, hbody⟩ := ih
      refine ⟨fun scope => ?_, fun scope message => ?_⟩
      · refine .get fun s => Follows.behind (fun name => .behind fun _ => ?_) s
        exact (hbody _ _).bind fun _ => .get fun s' => liftError_bind (fun _ => .pure) s'
      refine .behind fun _ => .ite .pure (.behind fun _ => .behind fun _ => .ite ?_ ?_)
      · exact parseOptionAssignmentStatement_follows.bind fun _ => .behind fun _ => hbody _ _
      refine .behind fun _ => .ite ((hmessage _).bind fun _ => hbody _ _) ?_
      refine .behind fun _ => .ite (parseEnumAfterKeyword_follows.bind fun _ => hbody _ _) ?_
      refine .behind fun _ => .ite (parseOneof_follows.bind fun _ => hbody _ _) ?_
      refine .behind fun _ => .ite (parseExtensionRanges_follows.bind fun _ => hbody _ _) ?_
      refine .behind fun _ => .ite (parseReserved_follows.bind fun _ => hbody _ _) ?_
      refine .behind fun _ => .ite (parseExtend_follows.bind fun _ => hbody _ _) ?_
      exact .behind fun _ => .ite (hbody _ _) (parseField_follows.bind fun _ => hbody _ _)

end Messages

/-! ## The file -/

def parseImport (rounds : Nat) : OwnedParse Unit := do
  let kind ← Parser.importKind
  let path ← expectString rounds
  Parser.expectSymbol 0x3b
  Parser.modifyFile (fun file =>
    { file with imports := file.imports ++ [{ path := path, kind := kind }] })

def parseSyntax (rounds : Nat) : OwnedParse Unit := do
  Parser.declareSyntax
  Parser.expectSymbol 0x3d
  let fileSyntax ← expectString rounds
  if fileSyntax == ascii "proto2" then Parser.modifyFile (·.setSyntax .proto2)
  else if fileSyntax == ascii "proto3" then Parser.modifyFile (·.setSyntax .proto3)
  else fail .invalidSyntax
  Parser.expectSymbol 0x3b

def parseEdition (rounds : Nat) : OwnedParse Unit := do
  Parser.declareSyntax
  Parser.expectSymbol 0x3d
  let editionText ← expectString rounds
  match Edition.fromYear editionText with
  | none => fail .invalidEdition
  | some edition =>
      Parser.modifyFile (·.setEdition edition)
      Parser.expectSymbol 0x3b

def parseDeclaration (rounds : Nat) : OwnedParse Unit := do
  if ← Parser.matchIdent (ascii "syntax") then parseSyntax rounds
  else if ← Parser.matchIdent (ascii "edition") then parseEdition rounds
  else if ← Parser.matchIdent (ascii "package") then
    let package ← Parser.parseFullIdent rounds
    Parser.modifyFile (fun file => { file with package := package })
    Parser.expectSymbol 0x3b
  else if ← Parser.matchIdent (ascii "import") then parseImport rounds
  else if ← Parser.matchIdent (ascii "option") then
    let option ← parseOptionAssignmentStatement rounds
    Parser.addFileOption option
  else if ← Parser.matchIdent (ascii "message") then
    let package := (← get).file.package
    let message ← parseMessageAfterKeyword rounds package
    Parser.modifyFile (fun file => { file with messages := file.messages ++ [message] })
  else if ← Parser.matchIdent (ascii "enum") then
    let enumeration ← parseEnumAfterKeyword rounds
    Parser.modifyFile (fun file => { file with enums := file.enums ++ [enumeration] })
  else if ← Parser.matchIdent (ascii "extend") then
    let (extensions, groups) ← parseExtend rounds []
    Parser.modifyFile (fun file =>
      { file with
        extensions := file.extensions ++ extensions
        messages := file.messages ++ groups })
  else if ← Parser.matchIdent (ascii "service") then
    let service ← parseServiceAfterKeyword rounds
    Parser.modifyFile (fun file => { file with services := file.services ++ [service] })
  else Parser.expectSymbol 0x3b

def parseFile : Nat → OwnedParse Unit
  | 0 => throw .fuel
  | rounds + 1 => do
      if (← get).current.tag == .eof then return ()
      else
        parseDeclaration rounds
        parseFile rounds

section File

variable {rounds : Nat}

omit [FloatConversions] in
theorem parseImport_follows :
    Follows ownership (parseImport rounds) (Parser.parseImport rounds) :=
  .behind fun _ => expectString_follows.bind fun _ => .behind fun _ => .plain

omit [FloatConversions] in
theorem parseSyntax_follows :
    Follows ownership (parseSyntax rounds) (Parser.parseSyntax rounds) := by
  refine .behind fun _ => .behind fun _ => expectString_follows.bind fun fileSyntax => ?_
  refine .ite (.behind fun _ => .plain) (.ite (.behind fun _ => .plain) ?_)
  exact fail_follows.bind fun _ => .plain

omit [FloatConversions] in
theorem parseEdition_follows :
    Follows ownership (parseEdition rounds) (Parser.parseEdition rounds) := by
  refine .behind fun _ => .behind fun _ => expectString_follows.bind fun editionText => ?_
  cases Edition.fromYear editionText with
  | none => exact fail_follows
  | some edition => exact .behind fun _ => .plain

theorem parseDeclaration_follows :
    Follows ownership (parseDeclaration rounds) (Parser.parseDeclaration rounds) := by
  refine .behind fun _ => .ite parseSyntax_follows (.behind fun _ => .ite parseEdition_follows ?_)
  refine .behind fun _ => .ite (.behind fun _ => .behind fun _ => .plain) ?_
  refine .behind fun _ => .ite parseImport_follows (.behind fun _ => .ite ?_ ?_)
  · exact parseOptionAssignmentStatement_follows.bind fun _ => .plain
  refine .behind fun _ => .ite (.get fun s => ?_) (.behind fun _ => .ite ?_ ?_)
  · exact (((parseMessage_messageBody_follows rounds).1 _).bind fun _ => .plain) s
  · exact parseEnumAfterKeyword_follows.bind fun _ => .plain
  refine .behind fun _ => .ite (parseExtend_follows.bind fun _ => .plain) (.behind fun _ => ?_)
  exact .ite (parseServiceAfterKeyword_follows.bind fun _ => .plain) .plain

theorem parseFile_follows :
    Follows ownership (parseFile rounds) (Parser.parseFile rounds) := by
  induction rounds with
  | zero => exact .throw
  | succ rounds ih =>
      refine .get fun s => .ite (fun _ => Follows.pure s) fun _ => ?_
      exact (parseDeclaration_follows.bind fun _ => ih) s

end File

end Owned

end Pbz
