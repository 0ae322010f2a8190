import Pbz.Lib.Program
import Pbz.Parser.Literal

set_option autoImplicit false

/-! # The state of the parser

The parser keeps one token of lookahead. `advance` passes on an error of the lexer;
`consumeSymbol` and `matchIdent` take it to be impossible. Left out are the source code info, the
positions that only it uses and the bookkeeping of allocations.
-/

namespace Pbz

structure Parser where
  lexer : Lexer
  current : Token
  file : FileDescriptor := {}
  previousEnd : Nat := 0
  sawSyntaxOrEdition : Bool := false

abbrev Parse := StateT Parser (Except Stop)

/-- Stop with an error value. -/
def fail {σ α : Type} (e : ParseError) : StateT σ (Except Stop) α := throw (.error e)

/-- The value of a computation on the side, or its error. -/
def liftError {σ α : Type} : Except ParseError α → StateT σ (Except Stop) α
  | .ok a => pure a
  | .error e => fail e

def liftStop {σ α : Type} : Except Stop α → StateT σ (Except Stop) α
  | .ok a => pure a
  | .error stop => throw stop

/-- `i64` arithmetic that leaves its type stops the program. -/
def checkedI64 {σ : Type} (value : Int) : StateT σ (Except Stop) Int :=
  match IntegerType.i64.cast value with
  | some value => pure value
  | none => throw .overflow

namespace Token

def isSymbol (token : Token) (symbol : UInt8) : Bool :=
  token.tag == .symbol && token.symbol == symbol

def isIdent (token : Token) (text : Bytes) : Bool :=
  token.tag == .identifier && token.text == text

end Token

namespace Parser

def init (input : Bytes) : Except Stop Parser :=
  match Lexer.next { input := input } with
  | .error e => .error (.error e)
  | .ok (first, lexer) => .ok { lexer := lexer, current := first }

/-- The bytes of the input from `start` up to `stop`. -/
def slice (self : Parser) (start stop : Nat) : Bytes :=
  (self.lexer.input.drop start).take (stop - start)

/-- Read the token behind the current one; `onError` says what an error of the lexer becomes. -/
def step (onError : ParseError → Stop) : Parse Unit := do
  let self ← get
  match self.lexer.next with
  | .error e => throw (onError e)
  | .ok (token, lexer) =>
      set { self with lexer := lexer, current := token, previousEnd := self.current.end }

def advanceVoid : Parse Unit := step .error

/-- Read on if the current token passes the test, and say whether it did. An error of the lexer is
taken to be impossible. -/
def consumeIf (test : Token → Bool) : Parse Bool := do
  let self ← get
  if test self.current then
    step (fun _ => .unreachable)
    return true
  else return false

def consumeSymbol (symbol : UInt8) : Parse Bool := consumeIf (·.isSymbol symbol)

def matchIdent (text : Bytes) : Parse Bool := consumeIf (·.isIdent text)

def expectSymbol (symbol : UInt8) : Parse Unit := do
  if ← consumeSymbol symbol then return () else fail .unexpectedToken

def expectIdent (text : Bytes) : Parse Unit := do
  if ← matchIdent text then return () else fail .unexpectedToken

/-- The text of the current token if it bears the tag. -/
def expectTag (tag : TokenTag) : Parse Bytes := do
  let self ← get
  if self.current.tag == tag then
    advanceVoid
    return self.current.text
  else fail .unexpectedToken

def expectIdentifier : Parse Bytes := expectTag .identifier

def expectNumber : Parse Bytes := expectTag .number

/-- The string literals at the front, decoded and joined. -/
def moreStrings : Nat → Bytes → Parse Bytes
  | 0, _ => throw .fuel
  | rounds + 1, joined => do
      let self ← get
      if self.current.tag == .stringLiteral then
        let part ← liftStop (decodeStringLiteral self.current.text)
        advanceVoid
        moreStrings rounds (joined ++ part)
      else return joined

def expectString (rounds : Nat) : Parse Bytes := do
  let self ← get
  if self.current.tag == .stringLiteral then
    let first ← liftStop (decodeStringLiteral self.current.text)
    advanceVoid
    moreStrings rounds first
  else fail .unexpectedToken

/-! ## Numbers -/

/-- A sign in front of a number; `true` for a minus. -/
def consumeSign : Parse Bool := do
  if ← consumeSymbol 0x2d then return true
  else
    let _ ← consumeSymbol 0x2b
    return false

def parseSignedInt64 : Parse Int := do
  let negative ← consumeSign
  let numberText ← expectNumber
  match parseI64 numberText with
  | none => fail .invalidNumber
  | some value => if negative then checkedI64 (-value) else return value

def parseSignedInt32 : Parse (BitVec 32) := do
  let value ← parseSignedInt64
  match IntegerType.i32.cast value with
  | none => fail .invalidNumber
  | some value => return BitVec.ofInt 32 value

def parseRangeBound : Parse Int := parseSignedInt64

def parseRangeEnd : Parse (Option Int) := do
  if ← matchIdent (ascii "max") then return none
  else
    let inclusive ← parseSignedInt64
    return some (← checkedI64 (inclusive + 1))

def parseFieldNumber : Parse Nat := do
  let value ← parseSignedInt64
  if value ≤ 0 ∨ value > 2 ^ 29 - 1 then fail .invalidNumber
  else if value ≥ 19000 ∧ value ≤ 19999 then fail .invalidNumber
  else return value.toNat

/-! ## Names -/

/-- The components of a name behind the first one. -/
def moreIdentifiers : Nat → Parse Unit
  | 0 => throw .fuel
  | rounds + 1 => do
      if ← consumeSymbol 0x2e then
        let _ ← expectIdentifier
        moreIdentifiers rounds
      else return ()

/-- The text from `start` up to the end of the last token that has been read. -/
def textFrom (start : Nat) : Parse Bytes := do
  let self ← get
  return self.slice start self.previousEnd

def parseFullIdent (rounds : Nat) : Parse Bytes := do
  let start := (← get).current.start
  let _ ← expectIdentifier
  moreIdentifiers rounds
  textFrom start

def parseTypeNameSlice (rounds : Nat) : Parse Bytes := do
  let start := (← get).current.start
  let _ ← consumeSymbol 0x2e
  let _ ← expectIdentifier
  moreIdentifiers rounds
  textFrom start

end Parser

end Pbz
