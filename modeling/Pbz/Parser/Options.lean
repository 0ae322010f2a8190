import Pbz.Parser.Aggregate

set_option autoImplicit false

/-! # Options

Option values and assignments, and what the options of a field, a message, an enum value, an
extension range or a file do to its descriptor.
-/

namespace Pbz

namespace Parser

/-! ## Option values -/

/-- Read up to the symbol that closes the innermost of `depth` open ones; the end of that symbol. -/
def balancedEnd (opening closing : UInt8) : Nat → Nat → Parse Nat
  | 0, _ => throw .fuel
  | rounds + 1, depth => do
      let self ← get
      if self.current.tag == .eof then fail .unexpectedEof
      else if self.current.isSymbol opening then
        advanceVoid
        balancedEnd opening closing rounds (depth + 1)
      else if self.current.isSymbol closing then
        advanceVoid
        if depth - 1 == 0 then return self.current.end
        else balancedEnd opening closing rounds (depth - 1)
      else
        advanceVoid
        balancedEnd opening closing rounds depth

def consumeBalancedAggregate (rounds : Nat) : Parse Bytes := do
  let self ← get
  let opening := self.current.symbol
  let closing : UInt8 := if opening == 0x7b then 0x7d else 0x3e
  let stop ← balancedEnd opening closing rounds 0
  return self.slice self.current.start stop

variable [FloatConversions]

/-- `std.fmt.parseFloat` of the text behind its sign. -/
def signedFloat (negative : Bool) (text : Bytes) : Except ParseError (BitVec 64) := do
  let signed ← signedText negative text
  match FloatConversions.parseFloat signed with
  | some bits => .ok bits
  | none => .error .invalidNumber

/-- The value of a number without a fraction or an exponent. -/
def integerValue (negative : Bool) (text : Bytes) : Parse OptionValue :=
  match (if negative then none else parseU64 text) with
  | some value =>
      if value > 2 ^ 63 - 1 then return .unsignedInteger value.toNat else return .integer value
  | none =>
      match parseI64 text with
      | some value =>
          if negative then do return .integer (← checkedI64 (-value)) else return .integer value
      | none => do return .float (← liftError (signedFloat negative text))

def numberValue : Parse OptionValue := do
  let negative ← consumeSign
  let self ← get
  if self.current.tag == .identifier then
    advanceVoid
    return .float (← liftError (parseSpecialFloat self.current.text negative))
  else
    let numberText ← expectNumber
    if numberText.any (fun c => c == 0x2e || c == 0x65 || c == 0x45) then
      return .float (← liftError (signedFloat negative numberText))
    else integerValue negative numberText

def parseOptionValue (rounds : Nat) : Parse OptionValue := do
  let self ← get
  if self.current.tag == .stringLiteral then return .string (← expectString rounds)
  else if self.current.tag == .identifier then
    let value := self.current.text
    advanceVoid
    if eqlIgnoreCase value (ascii "true") then return .boolean true
    else if eqlIgnoreCase value (ascii "false") then return .boolean false
    else return .identifier value
  else if self.current.tag == .number || self.current.isSymbol 0x2d || self.current.isSymbol 0x2b then
    numberValue
  else if self.current.isSymbol 0x7b || self.current.isSymbol 0x3c then
    return .aggregate (← consumeBalancedAggregate rounds)
  else fail .unexpectedToken

/-! ## Option assignments -/

/-- Read an option name up to the `=` outside its parentheses. -/
def optionName (terminator : UInt8) : Nat → Nat → Parse Unit
  | 0, _ => throw .fuel
  | rounds + 1, parenDepth => do
      let self ← get
      if self.current.tag == .eof then fail .unexpectedEof
      else if parenDepth == 0 && self.current.isSymbol 0x3d then return ()
      else if parenDepth == 0 && (self.current.isSymbol terminator || self.current.isSymbol 0x2c) then
        fail .unexpectedToken
      else if self.current.isSymbol 0x28 then
        advanceVoid
        optionName terminator rounds (parenDepth + 1)
      else if self.current.isSymbol 0x29 then
        if parenDepth == 0 then fail .unexpectedToken
        else
          advanceVoid
          optionName terminator rounds (parenDepth - 1)
      else
        advanceVoid
        optionName terminator rounds parenDepth

def parseOptionAssignment (terminator : UInt8) (rounds : Nat) : Parse FieldOption := do
  let start := (← get).current.start
  optionName terminator rounds 0
  let self ← get
  let rawName := trimSpace (self.slice start self.current.start)
  expectSymbol 0x3d
  return { name := rawName, value := ← parseOptionValue rounds }

def parseOptionAssignmentStatement (rounds : Nat) : Parse FieldOption := do
  let option ← parseOptionAssignment 0x3b rounds
  expectSymbol 0x3b
  return option

/-- The options up to `endSymbol`, behind those in `options`. -/
def parseOptionList (endSymbol : UInt8) : Nat → List FieldOption → Parse (List FieldOption)
  | 0, _ => throw .fuel
  | rounds + 1, options => do
      if ← consumeSymbol endSymbol then return options
      else
        let self ← get
        if self.current.tag == .eof then fail .unexpectedEof
        else
          let option ← parseOptionAssignment endSymbol rounds
          if ← consumeSymbol 0x2c then parseOptionList endSymbol rounds (options ++ [option])
          else
            expectSymbol endSymbol
            return options ++ [option]

/-! ## Features -/

def isFeatureOption (name : Bytes) : Bool := (ascii "features.").isPrefixOf (trimSpace name)

def applyFeatureOptionValue (features : FeatureSet) (option : FieldOption) :
    Except ParseError FeatureSet :=
  match optionAsIdentifier option.value with
  | none => .error .invalidFieldType
  | some ident =>
      match features.setFeature (optionLeaf option.name) ident with
      | some features => .ok features
      | none => .error .invalidFieldType

def applyFeatureOption (target : Option FeatureSet) (option : FieldOption) :
    Parse (Option FeatureSet) := do
  if !isFeatureOption option.name then return target
  else
    let self ← get
    if self.file.fileSyntax != .editions then fail .invalidSyntax
    else
      let features := target.getD (FeatureSet.defaults self.file.fileSyntax)
      return some (← liftError (applyFeatureOptionValue features option))

def modifyFile (change : FileDescriptor → FileDescriptor) : Parse Unit :=
  modify (fun self => { self with file := change self.file })

def addFileOption (option : FieldOption) : Parse Unit := do
  if isFeatureOption option.name then
    let self ← get
    if self.file.fileSyntax != .editions then fail .invalidSyntax
    else
      let features ← liftError (applyFeatureOptionValue self.file.features option)
      modifyFile (fun file =>
        { file with features := features, options := file.options ++ [option] })
  else modifyFile (·.addOption option)

/-! ## The options of descriptors -/

/-- The text of an aggregate value. -/
def expectAggregate : OptionValue → Except ParseError Bytes
  | .aggregate text => .ok text
  | _ => .error .invalidFieldType

def parseFeatureSupportAggregate (value : OptionValue) : Parse FeatureSupport := do
  let aggregate ← liftError (expectAggregate value)
  liftStop (AggregateOptionParser.run AggregateOptionParser.parseFeatureSupport aggregate)

def parseFieldEditionDefaultAggregate (value : OptionValue) : Parse FieldEditionDefault := do
  let aggregate ← liftError (expectAggregate value)
  liftStop (AggregateOptionParser.run AggregateOptionParser.parseFieldEditionDefault aggregate)

def parseExtensionDeclarationAggregate (value : OptionValue) : Parse ExtensionDeclaration := do
  let aggregate ← liftError (expectAggregate value)
  liftStop (AggregateOptionParser.run AggregateOptionParser.parseExtensionDeclaration aggregate)

/-- The options that have a member of their own in the field descriptor. -/
def applyNamedFieldOption (fileSyntax : Syntax) (field : FieldDescriptor) (option : FieldOption) :
    Parse FieldDescriptor := do
  let leaf := optionLeaf option.name
  if leaf == ascii "default" then
    if field.defaultValue.isSome then fail .invalidFieldType
    else return { field with defaultValue := some option.value }
  else if leaf == ascii "json_name" then
    if field.jsonName.isSome then fail .invalidFieldType
    else match option.value with
      | .string text => return { field with jsonName := some text }
      | _ => fail .invalidFieldType
  else if leaf == ascii "packed" then
    if fileSyntax == .editions then fail .invalidSyntax
    else return { field with packedOverride := optionAsBool option.value }
  else if leaf == ascii "edition_defaults" then
    let editionDefault ← parseFieldEditionDefaultAggregate option.value
    return { field with editionDefaults := field.editionDefaults ++ [editionDefault] }
  else if leaf == ascii "feature_support" then
    return { field with featureSupport := some (← parseFeatureSupportAggregate option.value) }
  else return field

/-- The packing that `repeated_field_encoding` asks for. -/
def encodingOverride (field : FieldDescriptor) (option : FieldOption) : Option Bool :=
  if optionLeaf option.name == ascii "repeated_field_encoding" then
    match optionAsIdentifier option.value with
    | some ident =>
        if eqlIgnoreCase ident (ascii "PACKED") then some true
        else if eqlIgnoreCase ident (ascii "EXPANDED") then some false
        else field.packedOverride
    | none => field.packedOverride
  else field.packedOverride

def applyFieldOption (field : FieldDescriptor) (option : FieldOption) : Parse FieldDescriptor := do
  let self ← get
  let field ← applyNamedFieldOption self.file.fileSyntax field option
  let features ← applyFeatureOption field.features option
  return { field with features := features, packedOverride := encodingOverride field option }

/-- Apply the options one after the other. -/
def applyOptions {α : Type} (apply : α → FieldOption → Parse α) : List FieldOption → α → Parse α
  | [], value => return value
  | option :: rest, value => do
      let value ← apply value option
      applyOptions apply rest value

def parseFieldOptions (rounds : Nat) (field : FieldDescriptor) : Parse FieldDescriptor := do
  let options ← parseOptionList 0x5d rounds []
  applyOptions applyFieldOption options { field with options := options }

/-- The options of a field in brackets, if there are any. -/
def bracketedFieldOptions (rounds : Nat) (field : FieldDescriptor) : Parse FieldDescriptor := do
  if ← consumeSymbol 0x5b then parseFieldOptions rounds field else return field

def applyMessageOption (message : MessageDescriptor) (option : FieldOption) :
    Parse MessageDescriptor := do
  if optionLeaf option.name == ascii "map_entry" then fail .invalidFieldType
  else return { message with features := ← applyFeatureOption message.features option }

def applyEnumValueOption (value : EnumValueDescriptor) (option : FieldOption) :
    Parse EnumValueDescriptor := do
  let value ←
    if optionLeaf option.name == ascii "feature_support" then do
      let support ← parseFeatureSupportAggregate option.value
      pure { value with featureSupport := some support }
    else pure value
  return { value with features := ← applyFeatureOption value.features option }

def applyExtensionRangeOption (range : ExtensionRange) (option : FieldOption) :
    Parse ExtensionRange := do
  let leaf := optionLeaf option.name
  if leaf == ascii "declaration" then
    let declaration ← parseExtensionDeclarationAggregate option.value
    return { range with declarations := range.declarations ++ [declaration] }
  else if leaf == ascii "verification" then
    match optionAsIdentifier option.value with
    | none => fail .invalidFieldType
    | some value =>
        if eqlIgnoreCase value (ascii "DECLARATION") then
          return { range with verification := some .declaration }
        else if eqlIgnoreCase value (ascii "UNVERIFIED") then
          return { range with verification := some .unverified }
        else fail .invalidFieldType
  else if (ascii "features.").isPrefixOf option.name then
    let self ← get
    if self.file.fileSyntax != .editions then fail .invalidSyntax
    else
      let features := range.features.getD (FeatureSet.defaults self.file.fileSyntax)
      return { range with features := some (← liftError (applyFeatureOptionValue features option)) }
  else return range

end Parser

end Pbz
