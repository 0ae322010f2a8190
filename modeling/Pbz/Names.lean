import Pbz.Schema

set_option autoImplicit false

/-! # Names derived from declared names

The functions of `schema.zig` that check identifiers, derive the JSON name of a field and the
canonical key of an enum value, and compare the names of extensions.
-/

namespace Pbz

def isAlphabetic (c : UInt8) : Bool := (0x41 ≤ c && c ≤ 0x5a) || (0x61 ≤ c && c ≤ 0x7a)

def isDigit (c : UInt8) : Bool := 0x30 ≤ c && c ≤ 0x39

def isUpper (c : UInt8) : Bool := 0x41 ≤ c && c ≤ 0x5a

def toUpper (b : UInt8) : UInt8 := if 0x61 ≤ b ∧ b ≤ 0x7a then b - 0x20 else b

def isIdentStart (c : UInt8) : Bool := isAlphabetic c || c == 0x5f

def isIdentContinue (c : UInt8) : Bool := isIdentStart c || isDigit c

/-- `expectStart` says that a dot or the start of the name has been read last. -/
def isFullIdentifierFrom : Bool → Bytes → Bool
  | expectStart, [] => !expectStart
  | expectStart, c :: rest =>
      if c == 0x2e then if expectStart then false else isFullIdentifierFrom true rest
      else if expectStart then if isIdentStart c then isFullIdentifierFrom false rest else false
      else if isIdentContinue c then isFullIdentifierFrom false rest
      else false

def isFullIdentifier (value : Bytes) : Bool := isFullIdentifierFrom true value

def declarationTypeNameIsScalar (typeName : Bytes) : Bool := (ScalarType.fromName typeName).isSome

def declarationSymbolIsQualified (typeName : Bytes) : Bool :=
  match typeName with
  | 0x2e :: rest => isFullIdentifier rest
  | _ => false

/-! ## JSON names -/

/-- The characters that the calls of `nextDefaultJsonNameChar` give one after the other. -/
def defaultJsonNameFrom : Bool → Bytes → Bytes
  | _, [] => []
  | upperNext, c :: rest =>
      if c == 0x5f then defaultJsonNameFrom true rest
      else (if upperNext then toUpper c else c) :: defaultJsonNameFrom false rest

def defaultJsonName (fieldName : Bytes) : Bytes := defaultJsonNameFrom false fieldName

def eqlDefaultJsonName (fieldName candidate : Bytes) : Bool := defaultJsonName fieldName == candidate

def defaultJsonNamesEqual (a b : Bytes) : Bool := defaultJsonName a == defaultJsonName b

def jsonNameLooksLikeExtension (jsonName : Bytes) : Bool :=
  jsonName.length ≥ 2 && jsonName.head? == some 0x5b && jsonName.getLast? == some 0x5d

/-- `jsonName`: the explicit JSON name of a field, else the one derived from its name. -/
def FieldDescriptor.effectiveJsonName (field : FieldDescriptor) : Bytes :=
  field.jsonName.getD (defaultJsonName field.name)

/-! ## Enum values -/

/-- Match the lower case letters of a prefix against a name, underscores in the name skipped;
`some rest` with what is behind the match. -/
def matchPrefix : Bytes → Bytes → Option Bytes
  | [], rest => some rest
  | _ :: _, [] => none
  | p :: ps, c :: rest =>
      if c == 0x5f then matchPrefix (p :: ps) rest
      else if toLower c != p then none
      else matchPrefix ps rest

def enumValueWithoutPrefix (enumName valueName : Bytes) : Bytes :=
  let letters := (enumName.filter (· != 0x5f)).map toLower
  if letters.length > 256 then valueName
  else match matchPrefix letters valueName with
    | none => valueName
    | some rest =>
        let stripped := rest.dropWhile (· == 0x5f)
        if stripped.isEmpty then valueName else stripped

def canonicalCaseFrom : Bool → Bytes → Bytes
  | _, [] => []
  | nextUpper, c :: rest =>
      if c == 0x5f then canonicalCaseFrom true rest
      else (if nextUpper then toUpper c else toLower c) :: canonicalCaseFrom false rest

def enumValueCanonicalKey (enumName valueName : Bytes) : Bytes :=
  canonicalCaseFrom true (enumValueWithoutPrefix enumName valueName)

/-! ## Extensions -/

def extensionFullName (field : FieldDescriptor) : Bytes := field.fullName.getD field.name

def qualifiedLeafEquals (package leaf fullName : Bytes) : Bool :=
  !package.isEmpty && fullName == package ++ 0x2e :: leaf

def extensionSymbolsEqualWithPackages (aPackage : Bytes) (a : FieldDescriptor) (bPackage : Bytes)
    (b : FieldDescriptor) : Bool :=
  let aName := normalizeName (extensionFullName a)
  let bName := normalizeName (extensionFullName b)
  let aScoped := aPackage.isEmpty || aName.contains 0x2e
  let bScoped := bPackage.isEmpty || bName.contains 0x2e
  if aScoped && bScoped then aName == bName
  else if !aScoped && !bScoped then aPackage == bPackage && aName == bName
  else if !aScoped then qualifiedLeafEquals aPackage aName bName
  else qualifiedLeafEquals bPackage bName aName

def extensionSymbolsEqual (package : Bytes) (a b : FieldDescriptor) : Bool :=
  extensionSymbolsEqualWithPackages package a package b

def extensionEffectiveNameEquals (package : Bytes) (field : FieldDescriptor)
    (normalizedQuery : Bytes) : Bool :=
  let fullName := normalizeName (extensionFullName field)
  if fullName.contains 0x2e || package.isEmpty then fullName == normalizedQuery
  else qualifiedLeafEquals package fullName normalizedQuery

def extensionDeclarationNameMatches (package declarationFullName : Bytes)
    (field : FieldDescriptor) : Bool :=
  extensionEffectiveNameEquals package field (normalizeName declarationFullName)

end Pbz
