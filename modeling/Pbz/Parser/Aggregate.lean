import Pbz.Parser.State

set_option autoImplicit false

/-! # Aggregate option values

`AggregateOptionParser` reads the text of an aggregate value once more, for the options whose
values the descriptors keep.
-/

namespace Pbz

namespace Edition

def fromYear (year : Bytes) : Option Edition :=
  if year == ascii "2023" then some .edition2023
  else if year == ascii "2024" then some .edition2024
  else if year == ascii "2026" then some .edition2026
  else if year == ascii "UNSTABLE" then some .unstable
  else if year == ascii "1_TEST_ONLY" then some .edition1TestOnly
  else if year == ascii "2_TEST_ONLY" then some .edition2TestOnly
  else if year == ascii "99997_TEST_ONLY" then some .edition99997TestOnly
  else if year == ascii "99998_TEST_ONLY" then some .edition99998TestOnly
  else if year == ascii "99999_TEST_ONLY" then some .edition99999TestOnly
  else none

def protoName : Edition → Bytes
  | .unknown => ascii "EDITION_UNKNOWN"
  | .legacy => ascii "EDITION_LEGACY"
  | .proto2 => ascii "EDITION_PROTO2"
  | .proto3 => ascii "EDITION_PROTO3"
  | .edition2023 => ascii "EDITION_2023"
  | .edition2024 => ascii "EDITION_2024"
  | .edition2026 => ascii "EDITION_2026"
  | .unstable => ascii "EDITION_UNSTABLE"
  | .edition1TestOnly => ascii "EDITION_1_TEST_ONLY"
  | .edition2TestOnly => ascii "EDITION_2_TEST_ONLY"
  | .edition99997TestOnly => ascii "EDITION_99997_TEST_ONLY"
  | .edition99998TestOnly => ascii "EDITION_99998_TEST_ONLY"
  | .edition99999TestOnly => ascii "EDITION_99999_TEST_ONLY"
  | .max => ascii "EDITION_MAX"

def fromProtoName (name : Bytes) : Option Edition :=
  all.find? (fun edition => eqlIgnoreCase name edition.protoName)

end Edition

/-- `validateFeatureSupport`. -/
def FeatureSupport.validate (support : FeatureSupport) : Except ParseError Unit := do
  if support.editionIntroduced == some .unknown then .error .invalidFieldType
  match support.editionDeprecated with
  | some deprecated =>
      if deprecated == .unknown then .error .invalidFieldType
      if support.deprecationWarning.isEmpty then .error .invalidFieldType
      if support.editionIntroduced.any (deprecated.number < ·.number) then
        .error .invalidFieldType
      if support.editionRemoved.any (deprecated.number ≥ ·.number) then .error .invalidFieldType
  | none => if !support.deprecationWarning.isEmpty then .error .invalidFieldType
  match support.editionRemoved with
  | some removed =>
      if removed == .unknown then .error .invalidFieldType
      if support.editionIntroduced.any (removed.number < ·.number) then .error .invalidFieldType
  | none => if !support.removalError.isEmpty then .error .invalidFieldType

structure AggregateOptionParser where
  lexer : Lexer
  current : Token

namespace AggregateOptionParser

abbrev Read := StateT AggregateOptionParser (Except Stop)

def init (input : Bytes) : Except Stop AggregateOptionParser :=
  match Lexer.next { input := input } with
  | .error e => .error (.error e)
  | .ok (first, lexer) => .ok { lexer := lexer, current := first }

def step (onError : ParseError → Stop) : Read Unit := do
  let self ← get
  match self.lexer.next with
  | .error e => throw (onError e)
  | .ok (token, lexer) => set { self with lexer := lexer, current := token }

def advanceVoid : Read Unit := step .error

def consumeSymbol (symbol : UInt8) : Read Bool := do
  let self ← get
  if self.current.isSymbol symbol then
    step (fun _ => .unreachable)
    return true
  else return false

def expectSymbol (symbol : UInt8) : Read Unit := do
  if ← consumeSymbol symbol then return () else fail .unexpectedToken

/-- `consumeSymbol(first) or consumeSymbol(second)`. -/
def consumeEither (first second : UInt8) : Read Bool := do
  if ← consumeSymbol first then return true else consumeSymbol second

def expectIdentifier : Read Bytes := do
  let self ← get
  if self.current.tag == .identifier then
    advanceVoid
    return self.current.text
  else fail .unexpectedToken

def moreStrings : Nat → Bytes → Read Bytes
  | 0, _ => throw .fuel
  | rounds + 1, joined => do
      let self ← get
      if self.current.tag == .stringLiteral then
        let part ← liftStop (decodeStringLiteral self.current.text)
        advanceVoid
        moreStrings rounds (joined ++ part)
      else return joined

def expectString (rounds : Nat) : Read Bytes := do
  let self ← get
  if self.current.tag == .stringLiteral then
    let first ← liftStop (decodeStringLiteral self.current.text)
    advanceVoid
    moreStrings rounds first
  else fail .unexpectedToken

def expectBool : Read Bool := do
  let text ← expectIdentifier
  if eqlIgnoreCase text (ascii "true") then return true
  else if eqlIgnoreCase text (ascii "false") then return false
  else fail .invalidFieldType

def consumeSign : Read Bool := do
  if ← consumeSymbol 0x2d then return true
  else
    let _ ← consumeSymbol 0x2b
    return false

def parseSignedInt32 : Read Int := do
  let negative ← consumeSign
  let self ← get
  if self.current.tag == .number then
    match parseI64 self.current.text with
    | none => fail .invalidNumber
    | some value =>
        let value ← if negative then checkedI64 (-value) else pure value
        match IntegerType.i32.cast value with
        | none => fail .invalidNumber
        | some value =>
            advanceVoid
            return value
  else fail .unexpectedToken

def expectEdition : Read Edition := do
  let self ← get
  if self.current.tag == .identifier then
    let text ← expectIdentifier
    match Edition.fromProtoName text with
    | some edition => return edition
    | none => fail .invalidEdition
  else
    let number ← parseSignedInt32
    match Edition.fromInt number with
    | some edition => return edition
    | none => fail .invalidEdition

/-- Skip to the symbol that closes the innermost of `depth` open ones. -/
def skipBalanced (opening closing : UInt8) : Nat → Nat → Read Unit
  | 0, _ => throw .fuel
  | rounds + 1, depth => do
      let self ← get
      if self.current.tag == .eof then fail .unexpectedEof
      else if self.current.isSymbol opening then
        advanceVoid
        skipBalanced opening closing rounds (depth + 1)
      else if self.current.isSymbol closing then
        advanceVoid
        if depth - 1 == 0 then return () else skipBalanced opening closing rounds (depth - 1)
      else
        advanceVoid
        skipBalanced opening closing rounds depth

def skipValue (rounds : Nat) : Read Unit := do
  let self ← get
  if self.current.isSymbol 0x7b then skipBalanced 0x7b 0x7d rounds 0
  else if self.current.isSymbol 0x3c then skipBalanced 0x3c 0x3e rounds 0
  else advanceVoid

/-- The fields of an aggregate up to the symbol that closes it or the end of the text. -/
def fields {α : Type} (field : α → Bytes → Read α) : Nat → α → Read α
  | 0, _ => throw .fuel
  | rounds + 1, value => do
      if ← consumeEither 0x7d 0x3e then return value
      else
        let self ← get
        if self.current.tag == .eof then return value
        else
          let name ← expectIdentifier
          expectSymbol 0x3a
          let value ← field value name
          let _ ← consumeEither 0x2c 0x3b
          fields field rounds value

def extensionDeclarationField (rounds : Nat) (declaration : ExtensionDeclaration) (name : Bytes) :
    Read ExtensionDeclaration := do
  if name == ascii "number" then return { declaration with number := ← parseSignedInt32 }
  else if name == ascii "full_name" then
    return { declaration with fullName := ← expectString rounds }
  else if name == ascii "type" then return { declaration with typeName := ← expectString rounds }
  else if name == ascii "reserved" then return { declaration with reserved := ← expectBool }
  else if name == ascii "repeated" then return { declaration with repeated := ← expectBool }
  else
    skipValue rounds
    return declaration

def parseExtensionDeclaration (rounds : Nat) : Read ExtensionDeclaration := do
  let _ ← consumeEither 0x7b 0x3c
  fields (extensionDeclarationField rounds) rounds {}

def fieldEditionDefaultField (rounds : Nat) (editionDefault : FieldEditionDefault) (name : Bytes) :
    Read FieldEditionDefault := do
  if name == ascii "edition" then return { editionDefault with edition := ← expectEdition }
  else if name == ascii "value" then
    return { editionDefault with value := ← expectString rounds }
  else
    skipValue rounds
    return editionDefault

def parseFieldEditionDefault (rounds : Nat) : Read FieldEditionDefault := do
  let _ ← consumeEither 0x7b 0x3c
  fields (fieldEditionDefaultField rounds) rounds {}

def featureSupportField (rounds : Nat) (support : FeatureSupport) (name : Bytes) :
    Read FeatureSupport := do
  if name == ascii "edition_introduced" then
    return { support with editionIntroduced := some (← expectEdition) }
  else if name == ascii "edition_deprecated" then
    return { support with editionDeprecated := some (← expectEdition) }
  else if name == ascii "deprecation_warning" then
    return { support with deprecationWarning := ← expectString rounds }
  else if name == ascii "edition_removed" then
    return { support with editionRemoved := some (← expectEdition) }
  else if name == ascii "removal_error" then
    return { support with removalError := ← expectString rounds }
  else
    skipValue rounds
    return support

def parseFeatureSupport (rounds : Nat) : Read FeatureSupport := do
  let _ ← consumeEither 0x7b 0x3c
  let support ← fields (featureSupportField rounds) rounds {}
  liftError support.validate
  return support

/-- Read an aggregate with a fresh parser over its text. -/
def run {α : Type} (read : Nat → Read α) (aggregate : Bytes) : Except Stop α := do
  let self ← init aggregate
  let (value, _) ← read (4 * aggregate.length + 2) self
  return value

end AggregateOptionParser

end Pbz
