import Pbz.Parser.OwnedStrings

set_option autoImplicit false

/-! # Options of a parse that owns its strings

The productions of aggregates and options once more, those that allocate strings. Each of them
follows the production without strings that it stands beside.
-/

namespace Pbz

namespace Owned

open Logged

/-! ## Aggregates -/

abbrev Read := Owned AggregateOptionParser

namespace Aggregate

/-- The string is recorded only when the token behind it has been read. -/
def consumeStringLiteral : Read Bytes := do
  let self ← get
  if self.current.tag == .stringLiteral then
    let decoded ← liftStop (Pbz.decodeStringLiteral self.current.text)
    ownBehind AggregateOptionParser.advanceVoid
    return decoded
  else fail .unexpectedToken

def moreStrings : Bool → Nat → Bytes → Read Bytes
  | _, 0, _ => throw .fuel
  | alone, rounds + 1, joined => do
      let self ← get
      if self.current.tag == .stringLiteral then
        let part ← consumeStringLiteral
        moreStrings false rounds (joined ++ part)
      else if alone then return joined
      else
        let _ ← own
        return joined

def expectString (rounds : Nat) : Read Bytes := do
  let decoded ← consumeStringLiteral
  moreStrings true rounds decoded

def fields {α : Type} (field : α → Bytes → Read α) : Nat → α → Read α
  | 0, _ => throw .fuel
  | rounds + 1, value => do
      if ← AggregateOptionParser.consumeEither 0x7d 0x3e then return value
      else
        let self ← get
        if self.current.tag == .eof then return value
        else
          let name ← AggregateOptionParser.expectIdentifier
          AggregateOptionParser.expectSymbol 0x3a
          let value ← field value name
          let _ ← AggregateOptionParser.consumeEither 0x2c 0x3b
          fields field rounds value

def extensionDeclarationField (rounds : Nat) (declaration : ExtensionDeclaration) (name : Bytes) :
    Read ExtensionDeclaration := do
  if name == ascii "number" then
    return { declaration with number := ← AggregateOptionParser.parseSignedInt32 }
  else if name == ascii "full_name" then
    return { declaration with fullName := ← expectString rounds }
  else if name == ascii "type" then return { declaration with typeName := ← expectString rounds }
  else if name == ascii "reserved" then
    return { declaration with reserved := ← AggregateOptionParser.expectBool }
  else if name == ascii "repeated" then
    return { declaration with repeated := ← AggregateOptionParser.expectBool }
  else
    AggregateOptionParser.skipValue rounds
    return declaration

def parseExtensionDeclaration (rounds : Nat) : Read ExtensionDeclaration := do
  let _ ← AggregateOptionParser.consumeEither 0x7b 0x3c
  fields (extensionDeclarationField rounds) rounds {}

def fieldEditionDefaultField (rounds : Nat) (editionDefault : FieldEditionDefault) (name : Bytes) :
    Read FieldEditionDefault := do
  if name == ascii "edition" then
    return { editionDefault with edition := ← AggregateOptionParser.expectEdition }
  else if name == ascii "value" then
    return { editionDefault with value := ← expectString rounds }
  else
    AggregateOptionParser.skipValue rounds
    return editionDefault

def parseFieldEditionDefault (rounds : Nat) : Read FieldEditionDefault := do
  let _ ← AggregateOptionParser.consumeEither 0x7b 0x3c
  fields (fieldEditionDefaultField rounds) rounds {}

def featureSupportField (rounds : Nat) (support : FeatureSupport) (name : Bytes) :
    Read FeatureSupport := do
  if name == ascii "edition_introduced" then
    return { support with editionIntroduced := some (← AggregateOptionParser.expectEdition) }
  else if name == ascii "edition_deprecated" then
    return { support with editionDeprecated := some (← AggregateOptionParser.expectEdition) }
  else if name == ascii "deprecation_warning" then
    return { support with deprecationWarning := ← expectString rounds }
  else if name == ascii "edition_removed" then
    return { support with editionRemoved := some (← AggregateOptionParser.expectEdition) }
  else if name == ascii "removal_error" then
    return { support with removalError := ← expectString rounds }
  else
    AggregateOptionParser.skipValue rounds
    return support

def parseFeatureSupport (rounds : Nat) : Read FeatureSupport := do
  let _ ← AggregateOptionParser.consumeEither 0x7b 0x3c
  let support ← fields (featureSupportField rounds) rounds {}
  liftError support.validate
  return support

/-- Read an aggregate with a fresh parser that shares the strings of the file. -/
def readAggregate {α : Type} (read : Nat → Read α) (aggregate : Bytes) : OwnedParse α :=
  fun s strings => match AggregateOptionParser.init aggregate with
    | .error stop => (.error stop, strings)
    | .ok self => match Logged.run (read (4 * aggregate.length + 2)) self strings with
      | (.ok (value, _), strings) => (.ok (value, s), strings)
      | (.error stop, strings) => (.error stop, strings)

/-! ### Without strings -/

theorem consumeStringLiteral_bind {α : Type} {f : Bytes → Read α}
    {g : Bytes → AggregateOptionParser.Read α} {s : AggregateOptionParser}
    (hs : s.current.tag = .stringLiteral) (hf : ∀ decoded, Follows ownership (f decoded) (g decoded)) :
    FollowsAt ownership (consumeStringLiteral >>= f) (do
      let decoded ← Pbz.liftStop (Pbz.decodeStringLiteral s.current.text)
      AggregateOptionParser.advanceVoid
      g decoded) s := by
  unfold consumeStringLiteral
  rw [bind_assoc]
  refine .get ?_
  rw [if_pos (beq_iff_eq.mpr hs)]
  simp only [bind_assoc, pure_bind]
  exact liftStop_bind (fun decoded => ownBehind_follows.bind fun _ => hf decoded) s

section Strings

variable {rounds : Nat}

theorem moreStrings_follows {alone : Bool} {joined : Bytes} :
    Follows ownership (moreStrings alone rounds joined)
      (AggregateOptionParser.moreStrings rounds joined) := by
  induction rounds generalizing alone joined with
  | zero => exact .throw
  | succ rounds ih =>
      refine .get fun s => .ite (fun htag => ?_) fun _ => ?_
      · exact consumeStringLiteral_bind (beq_iff_eq.mp htag) fun part => ih
      · cases alone with
        | true => exact Follows.pure s
        | false => exact own_follows (fun _ => .pure) s

theorem consumeStringLiteral_fail {α : Type} {f : Bytes → Read α} {s : AggregateOptionParser}
    (hs : s.current.tag ≠ .stringLiteral) :
    FollowsAt ownership (consumeStringLiteral >>= f) (Pbz.fail .unexpectedToken) s := by
  unfold consumeStringLiteral
  rw [bind_assoc]
  refine .get ?_
  rw [if_neg (by simpa using hs)]
  exact fun strings => ⟨strings, rfl, Discipline.ends_refl _ strings⟩

theorem expectString_follows :
    Follows ownership (expectString rounds) (AggregateOptionParser.expectString rounds) := by
  intro s
  have hget : AggregateOptionParser.expectString rounds s
      = (if s.current.tag == .stringLiteral then do
          let first ← Pbz.liftStop (Pbz.decodeStringLiteral s.current.text)
          AggregateOptionParser.advanceVoid
          AggregateOptionParser.moreStrings rounds first
        else Pbz.fail .unexpectedToken : AggregateOptionParser.Read Bytes) s := rfl
  refine FollowsAt.congr ?_ hget
  split
  · next htag =>
      exact consumeStringLiteral_bind (beq_iff_eq.mp htag) fun _ => moreStrings_follows
  · next htag => exact consumeStringLiteral_fail (by simpa using htag)

theorem extensionDeclarationField_follows {declaration : ExtensionDeclaration} {name : Bytes} :
    Follows ownership (extensionDeclarationField rounds declaration name)
      (AggregateOptionParser.extensionDeclarationField rounds declaration name) := by
  refine .ite (.behind fun _ => .pure) (.ite (expectString_follows.bind fun _ => .pure) ?_)
  refine .ite (expectString_follows.bind fun _ => .pure) (.ite (.behind fun _ => .pure) ?_)
  exact .ite (.behind fun _ => .pure) (.behind fun _ => .pure)

theorem fieldEditionDefaultField_follows {editionDefault : FieldEditionDefault} {name : Bytes} :
    Follows ownership (fieldEditionDefaultField rounds editionDefault name)
      (AggregateOptionParser.fieldEditionDefaultField rounds editionDefault name) := by
  refine .ite (.behind fun _ => .pure) ?_
  exact .ite (expectString_follows.bind fun _ => .pure) (.behind fun _ => .pure)

theorem featureSupportField_follows {support : FeatureSupport} {name : Bytes} :
    Follows ownership (featureSupportField rounds support name)
      (AggregateOptionParser.featureSupportField rounds support name) := by
  refine .ite (.behind fun _ => .pure) (.ite (.behind fun _ => .pure) ?_)
  refine .ite (expectString_follows.bind fun _ => .pure) (.ite (.behind fun _ => .pure) ?_)
  exact .ite (expectString_follows.bind fun _ => .pure) (.behind fun _ => .pure)

section Fields

variable {α : Type} {field : α → Bytes → Read α} {field' : α → Bytes → AggregateOptionParser.Read α}

theorem fields_follows {value : α}
    (hfield : ∀ value name, Follows ownership (field value name) (field' value name)) :
    Follows ownership (fields field rounds value)
      (AggregateOptionParser.fields field' rounds value) := by
  induction rounds generalizing value with
  | zero => exact .throw
  | succ rounds ih =>
      refine .behind fun _ => .ite .pure (.get fun s => .ite (fun _ => Follows.pure s) fun _ => ?_)
      refine Follows.behind (fun name => .behind fun _ => ?_) s
      exact (hfield value name).bind fun _ => .behind fun _ => ih

end Fields

theorem parseExtensionDeclaration_follows :
    Follows ownership (parseExtensionDeclaration rounds)
      (AggregateOptionParser.parseExtensionDeclaration rounds) :=
  .behind fun _ => fields_follows fun _ _ => extensionDeclarationField_follows

theorem parseFieldEditionDefault_follows :
    Follows ownership (parseFieldEditionDefault rounds)
      (AggregateOptionParser.parseFieldEditionDefault rounds) :=
  .behind fun _ => fields_follows fun _ _ => fieldEditionDefaultField_follows

theorem parseFeatureSupport_follows :
    Follows ownership (parseFeatureSupport rounds)
      (AggregateOptionParser.parseFeatureSupport rounds) := by
  refine .behind fun _ => (fields_follows fun _ _ => featureSupportField_follows).bind fun _ => ?_
  exact liftError_bind fun _ => .pure

theorem run_of_init {α : Type} {read : Nat → AggregateOptionParser.Read α} {aggregate : Bytes}
    {self : AggregateOptionParser} (hinit : AggregateOptionParser.init aggregate = .ok self) :
    AggregateOptionParser.run read aggregate
      = (read (4 * aggregate.length + 2) self).map Prod.fst := by
  unfold AggregateOptionParser.run
  rw [hinit]
  show (read (4 * aggregate.length + 2) self >>= fun result => Pure.pure result.1) = _
  cases read (4 * aggregate.length + 2) self <;> rfl

theorem readAggregate_follows {α : Type} {read : Nat → Read α}
    {read' : Nat → AggregateOptionParser.Read α} {aggregate : Bytes}
    (hread : ∀ rounds, Follows ownership (read rounds) (read' rounds)) :
    Follows ownership (readAggregate read aggregate)
      (Pbz.liftStop (AggregateOptionParser.run read' aggregate)) := by
  intro s strings
  cases hinit : AggregateOptionParser.init aggregate with
  | error stop =>
      have hpure : AggregateOptionParser.run read' aggregate = .error stop := by
        unfold AggregateOptionParser.run
        rw [hinit]
        rfl
      rw [hpure]
      refine ⟨strings, ?_, Discipline.ends_refl _ strings⟩
      -- a lexer that fails at the first token has allocated nothing
      show readAggregate read aggregate s strings = _
      unfold readAggregate
      rw [hinit]
      rfl
  | ok self =>
      obtain ⟨strings', hrun, hends⟩ := hread (4 * aggregate.length + 2) self strings
      rw [run_of_init hinit]
      cases hresult : read' (4 * aggregate.length + 2) self with
      | error stop =>
          rw [hresult] at hrun hends
          refine ⟨strings', ?_, Discipline.ends_error (hends.stops stop rfl)⟩
          show readAggregate read aggregate s strings = _
          unfold readAggregate
          simp only [hinit, hrun]
          rfl
      | ok result =>
          rw [hresult] at hrun hends
          refine ⟨strings', ?_, Discipline.ends_ok (hends.returns result rfl)⟩
          show readAggregate read aggregate s strings = _
          unfold readAggregate
          simp only [hinit, hrun]
          rfl

end Strings

end Aggregate

/-! ## The options of descriptors -/

def parseFeatureSupportAggregate (value : OptionValue) : OwnedParse FeatureSupport := do
  let aggregate ← liftError (Parser.expectAggregate value)
  Aggregate.readAggregate Aggregate.parseFeatureSupport aggregate

def parseFieldEditionDefaultAggregate (value : OptionValue) : OwnedParse FieldEditionDefault := do
  let aggregate ← liftError (Parser.expectAggregate value)
  Aggregate.readAggregate Aggregate.parseFieldEditionDefault aggregate

def parseExtensionDeclarationAggregate (value : OptionValue) :
    OwnedParse ExtensionDeclaration := do
  let aggregate ← liftError (Parser.expectAggregate value)
  Aggregate.readAggregate Aggregate.parseExtensionDeclaration aggregate

def applyNamedFieldOption (fileSyntax : Syntax) (field : FieldDescriptor) (option : FieldOption) :
    OwnedParse FieldDescriptor := do
  let leaf := optionLeaf option.name
  if leaf == ascii "default" then
    if field.defaultValue.isSome then fail .invalidFieldType
    else return { field with defaultValue := some option.value }
  else if leaf == ascii "json_name" then
    if field.jsonName.isSome then fail .invalidFieldType
    else match option.value with
      | .string text => return { field with jsonName := some text }
      | _ => fail .invalidFieldType
  else if leaf == ascii "packed" then
    if fileSyntax == .editions then fail .invalidSyntax
    else return { field with packedOverride := optionAsBool option.value }
  else if leaf == ascii "edition_defaults" then
    let editionDefault ← parseFieldEditionDefaultAggregate option.value
    return { field with editionDefaults := field.editionDefaults ++ [editionDefault] }
  else if leaf == ascii "feature_support" then
    return { field with featureSupport := some (← parseFeatureSupportAggregate option.value) }
  else return field

def applyFieldOption (field : FieldDescriptor) (option : FieldOption) :
    OwnedParse FieldDescriptor := do
  let self ← get
  let field ← applyNamedFieldOption self.file.fileSyntax field option
  let features ← Parser.applyFeatureOption field.features option
  return { field with
    features := features
    packedOverride := Parser.encodingOverride field option }

def applyOptions {α : Type} (apply : α → FieldOption → OwnedParse α) :
    List FieldOption → α → OwnedParse α
  | [], value => return value
  | option :: rest, value => do
      let value ← apply value option
      applyOptions apply rest value

def applyEnumValueOption (value : EnumValueDescriptor) (option : FieldOption) :
    OwnedParse EnumValueDescriptor := do
  let value ←
    if optionLeaf option.name == ascii "feature_support" then do
      let support ← parseFeatureSupportAggregate option.value
      pure { value with featureSupport := some support }
    else pure value
  return { value with features := ← Parser.applyFeatureOption value.features option }

/-- The options other than declarations read no aggregate. -/
def applyExtensionRangeOption (range : ExtensionRange) (option : FieldOption) :
    OwnedParse ExtensionRange := do
  if optionLeaf option.name == ascii "declaration" then
    let declaration ← parseExtensionDeclarationAggregate option.value
    return { range with declarations := range.declarations ++ [declaration] }
  else Parser.applyExtensionRangeOption range option

section Descriptors

variable {field : FieldDescriptor} {option : FieldOption} {value : OptionValue}

theorem parseFeatureSupportAggregate_follows :
    Follows ownership (parseFeatureSupportAggregate value)
      (Parser.parseFeatureSupportAggregate value) :=
  liftError_bind fun _ =>
    Aggregate.readAggregate_follows fun _ => Aggregate.parseFeatureSupport_follows

theorem parseFieldEditionDefaultAggregate_follows :
    Follows ownership (parseFieldEditionDefaultAggregate value)
      (Parser.parseFieldEditionDefaultAggregate value) :=
  liftError_bind fun _ =>
    Aggregate.readAggregate_follows fun _ => Aggregate.parseFieldEditionDefault_follows

theorem parseExtensionDeclarationAggregate_follows :
    Follows ownership (parseExtensionDeclarationAggregate value)
      (Parser.parseExtensionDeclarationAggregate value) :=
  liftError_bind fun _ =>
    Aggregate.readAggregate_follows fun _ => Aggregate.parseExtensionDeclaration_follows

theorem applyNamedFieldOption_follows {fileSyntax : Syntax} :
    Follows ownership (applyNamedFieldOption fileSyntax field option)
      (Parser.applyNamedFieldOption fileSyntax field option) := by
  refine .ite (.ite fail_follows .pure) (.ite (.ite fail_follows ?_) ?_)
  · cases option.value with
    | string text => exact .pure
    | _ => exact fail_follows
  refine .ite (.ite fail_follows .pure) (.ite ?_ (.ite ?_ .pure))
  · exact parseFieldEditionDefaultAggregate_follows.bind fun _ => .pure
  · exact parseFeatureSupportAggregate_follows.bind fun _ => .pure

theorem applyFieldOption_follows :
    Follows ownership (applyFieldOption field option) (Parser.applyFieldOption field option) :=
  .get fun s => (applyNamedFieldOption_follows.bind fun _ => .behind fun _ => .pure) s

theorem applyOptions_follows {α : Type} {apply : α → FieldOption → OwnedParse α}
    {apply' : α → FieldOption → Parse α} {options : List FieldOption} {value : α}
    (happly : ∀ value option, Follows ownership (apply value option) (apply' value option)) :
    Follows ownership (applyOptions apply options value)
      (Parser.applyOptions apply' options value) := by
  induction options generalizing value with
  | nil => exact .pure
  | cons option rest ih => exact (happly value option).bind fun _ => ih

theorem applyEnumValueOption_follows {value : EnumValueDescriptor} :
    Follows ownership (applyEnumValueOption value option)
      (Parser.applyEnumValueOption value option) := by
  refine .ite (parseFeatureSupportAggregate_follows.bind fun _ => ?_) ?_
  · exact Follows.pure.bind fun _ => .behind fun _ => .pure
  · exact Follows.pure.bind fun _ => .behind fun _ => .pure

theorem applyExtensionRangeOption_follows {range : ExtensionRange} :
    Follows ownership (applyExtensionRangeOption range option)
      (Parser.applyExtensionRangeOption range option) := by
  unfold applyExtensionRangeOption
  split
  · next hleaf =>
      unfold Parser.applyExtensionRangeOption
      dsimp only
      rw [if_pos hleaf]
      exact parseExtensionDeclarationAggregate_follows.bind fun _ => .pure
  · exact .plain

end Descriptors

/-! ## Option values and assignments -/

variable [FloatConversions]

/-- Values other than strings allocate nothing. -/
def parseOptionValue (rounds : Nat) : OwnedParse OptionValue := do
  let self ← get
  if self.current.tag == .stringLiteral then return .string (← expectString rounds)
  else Parser.parseOptionValue rounds

def parseOptionAssignment (terminator : UInt8) (rounds : Nat) : OwnedParse FieldOption := do
  let start := (← get).current.start
  Parser.optionName terminator rounds 0
  let self ← get
  let rawName := trimSpace (self.slice start self.current.start)
  Parser.expectSymbol 0x3d
  return { name := rawName, value := ← parseOptionValue rounds }

def parseOptionAssignmentStatement (rounds : Nat) : OwnedParse FieldOption := do
  let option ← parseOptionAssignment 0x3b rounds
  Parser.expectSymbol 0x3b
  return option

def parseOptionList (endSymbol : UInt8) : Nat → List FieldOption → OwnedParse (List FieldOption)
  | 0, _ => throw .fuel
  | rounds + 1, options => do
      if ← Parser.consumeSymbol endSymbol then return options
      else
        let self ← get
        if self.current.tag == .eof then fail .unexpectedEof
        else
          let option ← parseOptionAssignment endSymbol rounds
          if ← Parser.consumeSymbol 0x2c then parseOptionList endSymbol rounds (options ++ [option])
          else
            Parser.expectSymbol endSymbol
            return options ++ [option]

def parseFieldOptions (rounds : Nat) (field : FieldDescriptor) : OwnedParse FieldDescriptor := do
  let options ← parseOptionList 0x5d rounds []
  applyOptions applyFieldOption options { field with options := options }

def bracketedFieldOptions (rounds : Nat) (field : FieldDescriptor) :
    OwnedParse FieldDescriptor := do
  if ← Parser.consumeSymbol 0x5b then parseFieldOptions rounds field else return field

section Assignments

variable {rounds : Nat}

theorem parseOptionValue_follows :
    Follows ownership (parseOptionValue rounds) (Parser.parseOptionValue rounds) := by
  intro s
  refine .get ?_
  split
  · next htag =>
      have hstring : Parser.parseOptionValue rounds s
          = (do return .string (← Parser.expectString rounds) : Parse OptionValue) s := by
        show (if s.current.tag == .stringLiteral then
          (do return .string (← Parser.expectString rounds) : Parse OptionValue) else _) s = _
        rw [if_pos htag]
      exact FollowsAt.congr ((expectString_follows.bind fun _ => .pure) s) hstring
  · exact Follows.plain s

theorem parseOptionAssignment_follows {terminator : UInt8} :
    Follows ownership (parseOptionAssignment terminator rounds)
      (Parser.parseOptionAssignment terminator rounds) := by
  refine .get fun s => Follows.behind (fun _ => .get fun s' => ?_) s
  exact Follows.behind (fun _ => parseOptionValue_follows.bind fun _ => .pure) s'

theorem parseOptionAssignmentStatement_follows :
    Follows ownership (parseOptionAssignmentStatement rounds)
      (Parser.parseOptionAssignmentStatement rounds) :=
  parseOptionAssignment_follows.bind fun _ => .behind fun _ => .pure

theorem parseOptionList_follows {endSymbol : UInt8} {options : List FieldOption} :
    Follows ownership (parseOptionList endSymbol rounds options)
      (Parser.parseOptionList endSymbol rounds options) := by
  induction rounds generalizing options with
  | zero => exact .throw
  | succ rounds ih =>
      refine .behind fun _ => .ite .pure (.get fun s => .ite (fun _ => fail_follows s) fun _ => ?_)
      refine parseOptionAssignment_follows.bind (fun option => .behind fun _ => ?_) s
      exact .ite ih (.behind fun _ => .pure)

theorem parseFieldOptions_follows {field : FieldDescriptor} :
    Follows ownership (parseFieldOptions rounds field) (Parser.parseFieldOptions rounds field) :=
  parseOptionList_follows.bind fun _ => applyOptions_follows fun _ _ => applyFieldOption_follows

theorem bracketedFieldOptions_follows {field : FieldDescriptor} :
    Follows ownership (bracketedFieldOptions rounds field)
      (Parser.bracketedFieldOptions rounds field) :=
  .behind fun _ => .ite parseFieldOptions_follows .pure

end Assignments

end Owned

end Pbz
