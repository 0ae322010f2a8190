import Pbz.Names

set_option autoImplicit false

/-! # The lexer of `parser.zig`

`Lexer.next` skips white space and comments and reads one token at its index. The scanning
functions read a suffix of the input and return how many bytes they go over.
-/

namespace Pbz

/-- `ParseError` together with the error of the allocator. -/
inductive ParseError where
  | unexpectedToken
  | unexpectedEof
  | invalidSyntax
  | invalidEdition
  | invalidNumber
  | invalidFieldType
  | invalidEnum
  | duplicateEnumValue
  | duplicateField
  | duplicateOneof
  | duplicateSymbol
  | invalidRange
  | reservedField
  | invalidEscape
  | invalidDefault
  | unterminatedString
  | unterminatedComment
  | outOfMemory
  deriving DecidableEq, Repr

inductive TokenTag where
  | eof
  | identifier
  | number
  | stringLiteral
  | symbol
  deriving DecidableEq, Repr

structure Token where
  tag : TokenTag
  start : Nat
  «end» : Nat
  text : Bytes
  symbol : UInt8 := 0
  deriving DecidableEq, Repr

structure Lexer where
  input : Bytes
  index : Nat := 0
  deriving DecidableEq, Repr

/-- `std.ascii.isWhitespace`. -/
def isWhitespace (c : UInt8) : Bool :=
  c == 0x20 || c == 0x09 || c == 0x0a || c == 0x0d || c == 0x0b || c == 0x0c

def isNumberContinue (c : UInt8) : Bool :=
  isAlphabetic c || isDigit c || c == 0x5f || c == 0x2e || c == 0x2b || c == 0x2d

/-- A scan that passes `n` bytes and then does what `scan` does. -/
def passing (n : Nat) (scan : Except ParseError Nat) : Except ParseError Nat :=
  scan.map (n + ·)

namespace Lexer

mutual

/-- White space and comments up to the next token. -/
def skipSpaceAndComments : Bytes → Except ParseError Nat
  | [] => .ok 0
  | c :: rest =>
      if isWhitespace c then passing 1 (skipSpaceAndComments rest)
      else if c == 0x2f then
        match rest with
        | [] => .ok 0
        | n :: rest =>
            if n == 0x2f then passing 2 (skipLineComment rest)
            else if n == 0x2a then passing 2 (skipBlockComment rest)
            else .ok 0
      else .ok 0

/-- The rest of a `//` comment and what is skipped behind it. -/
def skipLineComment : Bytes → Except ParseError Nat
  | [] => .ok 0
  | c :: rest =>
      if c == 0x0a then passing 1 (skipSpaceAndComments rest)
      else passing 1 (skipLineComment rest)

/-- The rest of a block comment and what is skipped behind it. -/
def skipBlockComment : Bytes → Except ParseError Nat
  | [] => .error .unterminatedComment
  | c :: rest =>
      if c == 0x2a && rest.head? == some 0x2f then
        match rest with
        | [] => .error .unterminatedComment
        | _ :: rest => passing 2 (skipSpaceAndComments rest)
      else passing 1 (skipBlockComment rest)

end

/-- The bytes of a string literal in front of its closing quote. -/
def readString (quote : UInt8) : Bytes → Except ParseError Nat
  | [] => .error .unterminatedString
  | c :: rest =>
      if c == quote then .ok 0
      else if c == 0x5c then
        match rest with
        | [] => .error .unterminatedString
        | _ :: rest => passing 2 (readString quote rest)
      else passing 1 (readString quote rest)

/-- The token at `start`, where `rest` is the input from there. -/
def token (start : Nat) (rest : Bytes) : Except ParseError Token :=
  match rest with
  | [] => .ok { tag := .eof, start := start, «end» := start, text := [] }
  | c :: more =>
      if isIdentStart c then
        let text := c :: more.takeWhile isIdentContinue
        .ok { tag := .identifier, start := start, «end» := start + text.length, text := text }
      else if isDigit c then
        let text := c :: more.takeWhile isNumberContinue
        .ok { tag := .number, start := start, «end» := start + text.length, text := text }
      else if c == 0x22 || c == 0x27 then do
        let length ← readString c more
        .ok { tag := .stringLiteral, start := start, «end» := start + length + 2,
              text := more.take length }
      else
        .ok { tag := .symbol, start := start, «end» := start + 1, text := [c], symbol := c }

/-- The next token and the lexer behind it. -/
def next (lexer : Lexer) : Except ParseError (Token × Lexer) := do
  let skipped ← skipSpaceAndComments (lexer.input.drop lexer.index)
  let start := lexer.index + skipped
  let found ← token start (lexer.input.drop start)
  .ok (found, { lexer with index := found.end })

end Lexer

end Pbz
