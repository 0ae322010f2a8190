import Pbz.Schema

set_option autoImplicit false

/-! # The registry

The lookups of `registry.zig` that the dynamic messages and the generator use: symbol search by
full name, through the enclosing scopes, and restricted to the files an importing file can see.
-/

namespace Pbz

/-- `max_import_chain_depth` -/
def maxImportChainDepth : Nat := 32

/-- The length of the stack buffers in which scoped names are composed. -/
def scopeBufferSize : Nat := 512

inductive TypeRef where
  | message (message : MessageDescriptor)
  | enumeration (enumeration : EnumDescriptor)

structure Registry where
  files : List FileDescriptor := []

/-! ## Symbols of one file -/

/-- The part before the first dot and the part after it, which is empty if there is no dot. -/
def splitFirst (name : Bytes) : Bytes × Bytes :=
  match name.dropWhile (· != 0x2e) with
  | [] => (name, [])
  | _ :: rest => (name.takeWhile (· != 0x2e), rest)

/-- `findInFile` and `findInMessage`, the search for a relative name among some messages and
enums. The source ends with the first message that carries the head, found or not. -/
def findInScope : Nat → Bytes → List MessageDescriptor → List EnumDescriptor → Option TypeRef
  | 0, _, _, _ => none
  | fuel + 1, relativeName, messages, enums =>
      let (head, tail) := splitFirst relativeName
      match messages.find? (fun message => message.name == head) with
      | some message =>
          if tail.isEmpty then some (.message message)
          else findInScope fuel tail message.messages message.enums
      | none =>
          if tail.isEmpty then
            (enums.find? (fun enumeration => enumeration.name == head)).map .enumeration
          else none

/-- Every step of the search shortens the name, so its length bounds the number of steps. -/
def findInFile (file : FileDescriptor) (relativeName : Bytes) : Option TypeRef :=
  if relativeName.isEmpty then none
  else findInScope (relativeName.length + 1) relativeName file.messages file.enums

def findAbsoluteInFile (file : FileDescriptor) (fullName : Bytes) : Option TypeRef :=
  let normalized := normalizeName fullName
  if file.package.isEmpty then findInFile file normalized
  else match FileDescriptor.stripDotted file.package normalized with
    | some rest => findInFile file rest
    | none => none

/-! ## Pointer searches -/

mutual

def messageListContainsMessage (target : Nat) : List MessageDescriptor → Bool
  | [] => false
  | message :: rest =>
      message.address == target || messageContainsMessage target message
        || messageListContainsMessage target rest

def messageContainsMessage (target : Nat) : MessageDescriptor → Bool
  | { messages, .. } => messageListContainsMessage target messages

end

mutual

def messageListContainsEnum (target : Nat) : List MessageDescriptor → Bool
  | [] => false
  | message :: rest => messageContainsEnum target message || messageListContainsEnum target rest

def messageContainsEnum (target : Nat) : MessageDescriptor → Bool
  | { messages, enums, .. } =>
      enums.any (fun enumeration => enumeration.address == target)
        || messageListContainsEnum target messages

end

mutual

def messageListContainsExtension (target : Nat) : List MessageDescriptor → Bool
  | [] => false
  | message :: rest =>
      messageContainsExtension target message || messageListContainsExtension target rest

def messageContainsExtension (target : Nat) : MessageDescriptor → Bool
  | { messages, extensions, .. } =>
      extensions.any (fun field => field.address == target)
        || messageListContainsExtension target messages

end

/-- `lastIndexOfScalar(name, '.')` as the part before the last dot. -/
def beforeLastDot (name : Bytes) : Option Bytes :=
  match name.reverse.dropWhile (· != 0x2e) with
  | [] => none
  | _ :: rest => some rest.reverse

/-- The package of a file as a scope. -/
def packageScope (file : FileDescriptor) : Option Bytes :=
  if file.package.isEmpty then none else some file.package

/-- A scope followed by the scopes around it, innermost first. -/
def enclosingScopes : Nat → Bytes → List Bytes
  | 0, _ => []
  | fuel + 1, current =>
      match beforeLastDot current with
      | some outer => current :: enclosingScopes fuel outer
      | none => [current]

/-- The names a reference may stand for: the name under each scope that fits the buffer, and the
name itself last. -/
def candidates (scope : Option Bytes) (name : Bytes) : List Bytes :=
  match scope with
  | none => [name]
  | some scopeName =>
      ((enclosingScopes (scopeName.length + 1) scopeName).filter
        (fun current => current.length + 1 + name.length ≤ scopeBufferSize)).map
          (fun current => current ++ 0x2e :: name) ++ [name]

def extensionScope (file : FileDescriptor) (field : FieldDescriptor) : Option Bytes :=
  match field.fullName with
  | some fullName =>
      match beforeLastDot (normalizeName fullName) with
      | some scope => some scope
      | none => if normalizeName fullName != fullName then none else packageScope file
  | none => packageScope file

def sameFile (a b : FileDescriptor) : Bool :=
  a.address == b.address || (!a.name.isEmpty && !b.name.isEmpty && a.name == b.name)

namespace Registry

def fileContainingMessage (registry : Registry) (target : MessageDescriptor) :
    Option FileDescriptor :=
  registry.files.find? (fun file => messageListContainsMessage target.address file.messages)

def fileContainingEnum (registry : Registry) (target : EnumDescriptor) : Option FileDescriptor :=
  registry.files.find? (fun file =>
    file.enums.any (fun enumeration => enumeration.address == target.address)
      || messageListContainsEnum target.address file.messages)

def fileContainingExtension (registry : Registry) (target : FieldDescriptor) :
    Option FileDescriptor :=
  registry.files.find? (fun file =>
    file.extensions.any (fun field => field.address == target.address)
      || messageListContainsExtension target.address file.messages)

/-! ## Imports -/

def findFile (registry : Registry) (path : Bytes) : Option FileDescriptor :=
  registry.files.find? (fun file => file.name == path)

def prependImportPath (path : Bytes) (tail : List Bytes) : Option (List Bytes) :=
  if tail.length + 1 > maxImportChainDepth then none else some (path :: tail)

/-- The chain of public imports from one file to another; the fuel is what is left of
`max_import_chain_depth`. -/
def publicImportChainFrom (registry : Registry) (target : FileDescriptor) :
    Nat → FileDescriptor → Option (List Bytes)
  | 0, _ => none
  | fuel + 1, source =>
      (source.imports.findSome? fun entry =>
        if entry.kind != .public then none
        else match registry.findFile entry.path with
          | none => none
          | some imported =>
              if sameFile imported target then some (some [entry.path])
              else (publicImportChainFrom registry target fuel imported).map
                (prependImportPath entry.path)).join

/-- The chain of imports by which one file sees another. -/
def importChain (registry : Registry) (source target : FileDescriptor) : Option (List Bytes) :=
  if sameFile source target then some []
  else (source.imports.findSome? fun entry =>
    if entry.kind == .option then none
    else match registry.findFile entry.path with
      | none => none
      | some imported =>
          if sameFile imported target then some (some [entry.path])
          else (registry.publicImportChainFrom target (maxImportChainDepth - 1) imported).map
            (prependImportPath entry.path)).join

def fileCanSee (registry : Registry) (source target : FileDescriptor) : Bool :=
  sameFile source target || (registry.importChain source target).isSome

/-! ## Types -/

def findAbsolute (registry : Registry) (fullName : Bytes) : Option TypeRef :=
  registry.files.findSome? (fun file => findAbsoluteInFile file fullName)

def findAbsoluteVisible (registry : Registry) (source : FileDescriptor) (fullName : Bytes) :
    Option TypeRef :=
  registry.files.findSome? (fun file =>
    if registry.fileCanSee source file then findAbsoluteInFile file fullName else none)

def findType (registry : Registry) (name : Bytes) (scope : Option Bytes) : Option TypeRef :=
  match name with
  | 0x2e :: rest => registry.findAbsolute rest
  | _ => (candidates scope name).findSome? registry.findAbsolute

def findTypeVisible (registry : Registry) (source : FileDescriptor) (name : Bytes)
    (scope : Option Bytes) : Option TypeRef :=
  let find (fullName : Bytes) :=
    (findAbsoluteInFile source fullName).or (registry.findAbsoluteVisible source fullName)
  match name with
  | 0x2e :: rest => find rest
  | _ => (candidates (scope.or (packageScope source)) name).findSome? find

def asMessage : TypeRef → Option MessageDescriptor
  | .message message => some message
  | .enumeration _ => none

def asEnum : TypeRef → Option EnumDescriptor
  | .message _ => none
  | .enumeration enumeration => some enumeration

def findMessage (registry : Registry) (name : Bytes) (scope : Option Bytes) :
    Option MessageDescriptor :=
  (registry.findType name scope).bind asMessage

def findEnum (registry : Registry) (name : Bytes) (scope : Option Bytes) :
    Option EnumDescriptor :=
  (registry.findType name scope).bind asEnum

def findMessageVisible (registry : Registry) (source : FileDescriptor) (name : Bytes)
    (scope : Option Bytes) : Option MessageDescriptor :=
  (registry.findTypeVisible source name scope).bind asMessage

def findEnumVisible (registry : Registry) (source : FileDescriptor) (name : Bytes)
    (scope : Option Bytes) : Option EnumDescriptor :=
  (registry.findTypeVisible source name scope).bind asEnum

/-! ## Extensions -/

def resolveExtensionExtendee (registry : Registry) (file : FileDescriptor)
    (field : FieldDescriptor) : Option MessageDescriptor :=
  match field.extendee with
  | none => none
  | some extendee => registry.findMessageVisible file extendee (extensionScope file field)

def extensionTargetsMessage (registry : Registry) (field : FieldDescriptor)
    (message : MessageDescriptor) (number : Nat) : Bool :=
  if field.number != number then false
  else match registry.fileContainingExtension field with
    | none => false
    | some owner =>
        match registry.resolveExtensionExtendee owner field with
        | none => false
        | some resolved => resolved.address == message.address

end Registry

mutual

/-- `findExtensionForMessageInScope` over a list of scopes. -/
def findExtensionInScopes (targets : FieldDescriptor → Bool) :
    List MessageDescriptor → Option FieldDescriptor
  | [] => none
  | scope :: rest =>
      match findExtensionInScope targets scope with
      | some field => some field
      | none => findExtensionInScopes targets rest

def findExtensionInScope (targets : FieldDescriptor → Bool) :
    MessageDescriptor → Option FieldDescriptor
  | { messages, extensions, .. } =>
      match extensions.find? targets with
      | some field => some field
      | none => findExtensionInScopes targets messages

end

def Registry.findExtensionForMessage (registry : Registry) (message : MessageDescriptor)
    (number : Nat) : Option FieldDescriptor :=
  let targets (field : FieldDescriptor) := registry.extensionTargetsMessage field message number
  registry.files.findSome? (fun file =>
    match file.extensions.find? targets with
    | some field => some field
    | none => findExtensionInScopes targets file.messages)

/-! ## The file a descriptor is defined in -/

def messageDefiningFile (defaultFile : FileDescriptor) (registry : Option Registry)
    (descriptor : MessageDescriptor) : FileDescriptor :=
  match registry with
  | none => defaultFile
  | some registry => (registry.fileContainingMessage descriptor).getD defaultFile

def enumDefiningFile (defaultFile : FileDescriptor) (registry : Option Registry)
    (descriptor : EnumDescriptor) : FileDescriptor :=
  match registry with
  | none => defaultFile
  | some registry => (registry.fileContainingEnum descriptor).getD defaultFile

def fieldDefiningFile (defaultFile : FileDescriptor) (registry : Option Registry)
    (field : FieldDescriptor) : FileDescriptor :=
  match registry with
  | none => defaultFile
  | some registry => (registry.fileContainingExtension field).getD defaultFile

@[simp] theorem messageDefiningFile_none (file : FileDescriptor) (d : MessageDescriptor) :
    messageDefiningFile file none d = file := rfl

@[simp] theorem enumDefiningFile_none (file : FileDescriptor) (d : EnumDescriptor) :
    enumDefiningFile file none d = file := rfl

@[simp] theorem fieldDefiningFile_none (file : FileDescriptor) (d : FieldDescriptor) :
    fieldDefiningFile file none d = file := rfl

end Pbz
