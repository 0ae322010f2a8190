import Pbz.MemberLookup

set_option autoImplicit false

/-! # The file of a symbol

`findFileContainingSymbol` makes eight lookups in a row, of a message, a field, an extension, a
oneof, an enum, an enum value, a service and a method, and returns the file of the first that finds
something. Most of them take more than the full name: `Meets` says what each takes.
-/

namespace Pbz

open Dotted FirstMatch

/-! ## Lookups -/

/-- The name matches the full name of the extension, or its last part when it has no dot. -/
def extensionNameMatches (package : Bytes) (field : FieldDescriptor) (queryName : Bytes) : Bool :=
  let query := normalizeName queryName
  extensionEffectiveNameEquals package field query
    || (!query.contains 0x2e && optionLeaf (extensionFullName field) == query)

/-- A pointer to a value of an enum. -/
def EnumDescriptor.valuePointer (enumeration : EnumDescriptor) (name : Bytes) :
    Option (EnumDescriptor × EnumValueDescriptor) :=
  (enumeration.findValue name).map (fun value => (enumeration, value))

/-- The value of an enum of the message. -/
def MessageDescriptor.findEnumValue (message : MessageDescriptor) (name : Bytes) :
    Option (EnumDescriptor × EnumValueDescriptor) :=
  message.enums.findSome? (fun enumeration => enumeration.valuePointer name)

def findEnumValueInEnumPath (query : Bytes) (enumeration : EnumDescriptor) :
    Option (EnumDescriptor × EnumValueDescriptor) :=
  match splitAtDot query with
  | some _ => none
  | none => enumeration.valuePointer query

def findEnumValueInMessagePath (query : Bytes) (message : MessageDescriptor) :
    Option (EnumDescriptor × EnumValueDescriptor) :=
  (findMemberInMessagePath MessageDescriptor.findEnumValue message query).map Prod.snd

def ServiceDescriptor.findMethod (service : ServiceDescriptor) (name : Bytes) :
    Option MethodDescriptor :=
  service.methods.find? (fun method => method.name == name)

def serviceNameMatches (package serviceName query : Bytes) (scope : Option Bytes) : Bool :=
  match splitAtDot query with
  | some _ => qualifiedLeafEquals package serviceName query
  | none =>
      if serviceName != query then false
      else match scope with
        | none => true
        | some ownerScope => package.isEmpty || normalizeName ownerScope == package

def methodNameMatches (package : Bytes) (service : ServiceDescriptor) (query : Bytes)
    (scope : Option Bytes) : Option MethodDescriptor :=
  match beforeLastDot query with
  | some serviceQuery =>
      if serviceNameMatches package service.name serviceQuery scope then
        service.findMethod (afterLastDot query)
      else none
  | none =>
      match scope with
      | none => service.findMethod query
      | some ownerScope =>
          if serviceNameMatches package service.name (normalizeName ownerScope) none then
            service.findMethod query
          else none

namespace Registry

variable (registry : Registry)

def findExtensionBySymbolName (name : Bytes) : Option FieldDescriptor :=
  registry.files.findSome? (fun file => (Parser.collectExtensions file).find? (fun field =>
    extensionNameMatches file.package field (normalizeName name)))

def findEnumValue (name : Bytes) (scope : Option Bytes) :
    Option (EnumDescriptor × EnumValueDescriptor) :=
  registry.files.findSome? (fun file =>
    let query := fieldLookupNameInFile file.package (normalizeName name) scope
    (file.enums.findSome? (findEnumValueInEnumPath query)).or
      (file.messages.findSome? (findEnumValueInMessagePath query)))

/-- A pointer to a service. The file that holds it tells it from equal services of others. -/
def findService (name : Bytes) (scope : Option Bytes) :
    Option (FileDescriptor × ServiceDescriptor) :=
  registry.files.findSome? (fun file => (file.services.find? (fun service =>
    serviceNameMatches file.package service.name (normalizeName name) scope)).map
      (fun service => (file, service)))

def findMethod (name : Bytes) (scope : Option Bytes) :
    Option ((FileDescriptor × ServiceDescriptor) × MethodDescriptor) :=
  registry.files.findSome? (fun file => file.services.findSome? (fun service =>
    (methodNameMatches file.package service (normalizeName name) scope).map
      (fun method => ((file, service), method))))

/-! ## The files of pointers -/

/-- `messageContainingField` and its like: the message that a pointer to a member points into. -/
def messageContaining {β : Type} (target : MemberPointer β) : Option MessageDescriptor :=
  registry.files.findSome? (fun file => ((Pbz.declaredMessages [] file.messages).find? (fun pair =>
    pair.2.address == target.1.address)).map Prod.snd)

def fileContainingMember {β : Type} (target : MemberPointer β) : Option FileDescriptor :=
  (registry.messageContaining target).bind registry.fileContainingMessage

def fileContainingField (target : MemberPointer FieldDescriptor) : Option FileDescriptor :=
  (registry.fileContainingExtension target.2).or (registry.fileContainingMember target)

def enumContainingValue (target : EnumDescriptor × EnumValueDescriptor) : Option EnumDescriptor :=
  registry.files.findSome? (fun file => (file.enums ++ nestedEnums file.messages).find?
    (fun enumeration => enumeration.address == target.1.address))

def fileContainingEnumValue (target : EnumDescriptor × EnumValueDescriptor) :
    Option FileDescriptor :=
  (registry.enumContainingValue target).bind registry.fileContainingEnum

def fileContainingService (target : FileDescriptor × ServiceDescriptor) : Option FileDescriptor :=
  registry.files.find? (fun file =>
    file.address == target.1.address && file.services.contains target.2)

def serviceContainingMethod (target : (FileDescriptor × ServiceDescriptor) × MethodDescriptor) :
    Option (FileDescriptor × ServiceDescriptor) :=
  registry.files.findSome? (fun file => (file.services.find? (fun service =>
    file.address == target.1.1.address && service == target.1.2)).map
      (fun service => (file, service)))

def fileContainingMethod (target : (FileDescriptor × ServiceDescriptor) × MethodDescriptor) :
    Option FileDescriptor :=
  (registry.serviceContainingMethod target).bind registry.fileContainingService

/-- The lookups of `findFileContainingSymbol`, in their order. -/
inductive SymbolKind where
  | message
  | field
  | extension
  | oneof
  | enumeration
  | enumValue
  | service
  | method
  deriving DecidableEq, Repr

namespace SymbolKind

def all : List SymbolKind :=
  [.message, .field, .extension, .oneof, .enumeration, .enumValue, .service, .method]

/-- One of the lookups; if it finds something, the result is the file of what it finds. -/
def lookup (registry : Registry) (name : Bytes) : SymbolKind → Option (Option FileDescriptor)
  | .message => (registry.findMessage name none).map registry.fileContainingMessage
  | .field => (registry.findField name none).map registry.fileContainingField
  | .extension => (registry.findExtensionBySymbolName name).map registry.fileContainingExtension
  | .oneof => (registry.findOneof name none).map registry.fileContainingMember
  | .enumeration => (registry.findEnum name none).map registry.fileContainingEnum
  | .enumValue => (registry.findEnumValue name none).map registry.fileContainingEnumValue
  | .service => (registry.findService name none).map registry.fileContainingService
  | .method => (registry.findMethod name none).map registry.fileContainingMethod

end SymbolKind

def findFileContainingSymbol (symbolName : Bytes) : Option FileDescriptor :=
  (SymbolKind.all.findSome? (SymbolKind.lookup registry (normalizeName symbolName))).join

end Registry

/-! ## What the lookups take -/

/-- The path without the package of the file, or all of it where it is not below the package. -/
def FileDescriptor.pathBelow (file : FileDescriptor) (path : List Bytes) : List Bytes :=
  if file.packagePath ≠ [] ∧ file.packagePath.isPrefixOf path ∧ path ≠ file.packagePath then
    path.drop file.packagePath.length
  else path

section Query

variable {file : FileDescriptor} {path : List Bytes}

theorem fieldLookupNameInFile_none (hf : file.WellNamed) (hp : IsPath 0x2e path) :
    fieldLookupNameInFile file.package (joined 0x2e path) none =
      joined 0x2e (file.pathBelow path) := by
  unfold fieldLookupNameInFile FileDescriptor.pathBelow
  rw [behindPackage_joined hf hp]
  by_cases hbelow : file.packagePath ≠ [] ∧ file.packagePath.isPrefixOf path ∧
      path ≠ file.packagePath
  · rw [if_pos hbelow, if_pos hbelow]
  · rw [if_neg hbelow, if_neg hbelow]

theorem pathBelow_isPath (hp : IsPath 0x2e path) : IsPath 0x2e (file.pathBelow path) := by
  unfold FileDescriptor.pathBelow
  split_ifs
  · exact hp.sublist (List.drop_sublist _ _)
  · exact hp

theorem pathBelow_ne_nil (hne : path ≠ []) : file.pathBelow path ≠ [] := by
  unfold FileDescriptor.pathBelow
  split_ifs with hbelow
  · obtain ⟨rest, rfl⟩ := List.isPrefixOf_iff_prefix.mp hbelow.2.1
    rw [List.drop_left]
    rintro rfl
    exact hbelow.2.2 (List.append_nil _)
  · exact hne

/-- The search of a file for a member with a full name. -/
theorem findSome?_pathBelow {β : Type} (find : MessageDescriptor → Bytes → Option β)
    (hf : file.WellNamed) (hp : IsPath 0x2e path) (hne : path ≠ []) :
    file.messages.findSome? (fun message => findMemberInMessagePath find message
        (fieldLookupNameInFile file.package (joined 0x2e path) none)) =
      memberAt find file.messages (file.pathBelow path) := by
  rw [fieldLookupNameInFile_none hf hp]
  exact findSome?_messagePath find (pathBelow_isPath hp) (pathBelow_ne_nil hne) file.messages

end Query

/-- A file has something that a lookup takes for the symbol with a full name. -/
def FileDescriptor.Meets (file : FileDescriptor) (path : List Bytes) : Registry.SymbolKind → Prop
  | .message => ∃ message, (path, .message message) ∈ file.declaredTypes
  | .field => file.Answers MessageDescriptor.findField (file.pathBelow path)
  | .extension => ∃ field ∈ Parser.collectExtensions file,
      extensionNameMatches file.package field (joined 0x2e path) = true
  | .oneof => file.Answers MessageDescriptor.findOneof (file.pathBelow path)
  | .enumeration => ∃ enumeration, (path, .enumeration enumeration) ∈ file.declaredTypes
  | .enumValue => (∃ name, file.pathBelow path = [name] ∧
        ∃ enumeration ∈ file.enums, enumeration.findValue name ≠ none)
      ∨ file.Answers MessageDescriptor.findEnumValue (file.pathBelow path)
  | .service => ∃ service ∈ file.services,
      serviceNameMatches file.package service.name (joined 0x2e path) none = true
  | .method => ∃ service ∈ file.services,
      methodNameMatches file.package service (joined 0x2e path) none ≠ none

/-- The first of some files with a property. -/
def FirstAmong (files : List FileDescriptor) (holds : FileDescriptor → Prop)
    (file : FileDescriptor) : Prop :=
  ∃ before after, files = before ++ file :: after ∧ holds file ∧ ∀ other ∈ before, ¬ holds other

theorem exists_firstAmong {files : List FileDescriptor} {holds : FileDescriptor → Prop}
    {file : FileDescriptor} (hfile : file ∈ files) (hholds : holds file) :
    ∃ first, FirstAmong files holds first := by
  induction files with
  | nil => cases hfile
  | cons first rest ih =>
      by_cases hfirst : holds first
      · exact ⟨first, [], rest, rfl, hfirst, fun other hother => absurd hother List.not_mem_nil⟩
      · rcases List.mem_cons.mp hfile with rfl | hrest
        · exact absurd hholds hfirst
        · obtain ⟨found, before, after, rfl, hfound, hbefore⟩ := ih hrest
          refine ⟨found, first :: before, after, rfl, hfound, ?_⟩
          exact List.forall_mem_cons.mpr ⟨hfirst, hbefore⟩

/-- A lookup finds something in the first file with a property, and nothing where no file has
it. -/
structure Finds (files : List FileDescriptor) (holds : FileDescriptor → Prop)
    (result : Option (Option FileDescriptor)) : Prop where
  first : ∀ file, FirstAmong files holds file → result = some (some file)
  nothing : (∀ file ∈ files, ¬ holds file) → result = none

theorem Finds.congr {files : List FileDescriptor} {holds other : FileDescriptor → Prop}
    {result : Option (Option FileDescriptor)} (h : Finds files holds result)
    (hiff : ∀ file, holds file ↔ other file) : Finds files other result := by
  have hsame : holds = other := funext fun file => propext (hiff file)
  exact hsame ▸ h

/-- A lookup that asks the files one after the other. -/
theorem Finds.of_findSome? {γ : Type} {files : List FileDescriptor} {holds : FileDescriptor → Prop}
    {search : FileDescriptor → Option γ} {containing : γ → Option FileDescriptor}
    (hsearch : ∀ file ∈ files, search file ≠ none ↔ holds file)
    (hcontaining : ∀ file ∈ files, ∀ target, search file = some target →
      containing target = some file) :
    Finds files holds ((files.findSome? search).map containing) := by
  have hnone : ∀ file ∈ files, ¬ holds file → search file = none := by
    intro file hfile hholds
    by_contra hfound
    exact hholds ((hsearch file hfile).mp hfound)
  constructor
  · rintro file ⟨before, after, hfiles, hholds, hbefore⟩
    have hfile : file ∈ files := by simp [hfiles]
    obtain ⟨target, htarget⟩ := Option.ne_none_iff_exists'.mp ((hsearch file hfile).mpr hholds)
    have hfound : files.findSome? search = some target :=
      List.findSome?_eq_some_iff.mpr ⟨before, file, after, hfiles, htarget,
        fun other hother => hnone other (by simp [hfiles, hother]) (hbefore other hother)⟩
    rw [hfound, Option.map_some, hcontaining file hfile target htarget]
  · intro hall
    have hfound : files.findSome? search = none :=
      List.findSome?_eq_none_iff.mpr (fun file hfile => hnone file hfile (hall file hfile))
    rw [hfound, Option.map_none]

/-! ## Pointers -/

mutual

/-- An enum of a declared message is a declared type, and one of the enums that are searched. -/
theorem enum_of_declared {scope place : List Bytes} {message : MessageDescriptor}
    {enumeration : EnumDescriptor} (henum : enumeration ∈ message.enums) :
    ∀ {messages : List MessageDescriptor}, (place, message) ∈ declaredMessages scope messages →
      enumeration ∈ nestedEnums messages ∧
        (place ++ [enumeration.name], .enumeration enumeration) ∈ declaredTypes scope messages
  | [], h => absurd h List.not_mem_nil
  | first :: rest, h => by
      rw [declaredMessages, List.mem_cons, List.mem_append] at h
      rw [nestedEnums, declaredTypes, List.mem_append, List.mem_cons, List.mem_append]
      rcases h with h | h | h
      · obtain ⟨rfl, rfl⟩ := Prod.mk.inj h
        refine ⟨.inl ?_, .inr (.inl ?_)⟩
        · rw [declaredEnums_eq]
          exact List.mem_append_left _ henum
        · rw [nestedTypes_eq]
          exact List.mem_append_right _ (enum_mem_enumTypes _ henum)
      · obtain ⟨hnested, htype⟩ := enum_of_nested henum h
        exact ⟨.inl hnested, .inr (.inl htype)⟩
      · obtain ⟨hnested, htype⟩ := enum_of_declared henum h
        exact ⟨.inr hnested, .inr (.inr htype)⟩

theorem enum_of_nested {scope place : List Bytes} {message : MessageDescriptor}
    {enumeration : EnumDescriptor} (henum : enumeration ∈ message.enums) :
    ∀ {outer : MessageDescriptor}, (place, message) ∈ outer.nestedMessages scope →
      enumeration ∈ outer.declaredEnums ∧
        (place ++ [enumeration.name], .enumeration enumeration) ∈ outer.nestedTypes scope
  | { messages, enums, .. }, h => by
      rw [MessageDescriptor.nestedMessages] at h
      rw [MessageDescriptor.declaredEnums, MessageDescriptor.nestedTypes]
      obtain ⟨hnested, htype⟩ := enum_of_declared henum h
      exact ⟨List.mem_append_right _ hnested, List.mem_append_left _ htype⟩

end

mutual

/-- The search for an enum by its address finds a declared one. -/
theorem exists_enum_of_contains {target : Nat} (scope : List Bytes) :
    ∀ {messages : List MessageDescriptor}, messageListContainsEnum target messages = true →
      ∃ path enumeration, (path, TypeRef.enumeration enumeration) ∈ declaredTypes scope messages ∧
        enumeration.address = target
  | [], h => by cases h
  | first :: rest, h => by
      rw [messageListContainsEnum, Bool.or_eq_true] at h
      rcases h with h | h
      · obtain ⟨path, enumeration, hmem, haddress⟩ :=
          exists_enum_of_nested (scope ++ [first.name]) h
        refine ⟨path, enumeration, ?_, haddress⟩
        rw [declaredTypes, List.mem_cons, List.mem_append]
        exact .inr (.inl hmem)
      · obtain ⟨path, enumeration, hmem, haddress⟩ := exists_enum_of_contains scope h
        refine ⟨path, enumeration, ?_, haddress⟩
        rw [declaredTypes, List.mem_cons, List.mem_append]
        exact .inr (.inr hmem)

theorem exists_enum_of_nested {target : Nat} (scope : List Bytes) :
    ∀ {outer : MessageDescriptor}, messageContainsEnum target outer = true →
      ∃ path enumeration, (path, TypeRef.enumeration enumeration) ∈ outer.nestedTypes scope ∧
        enumeration.address = target
  | { messages, enums, .. }, h => by
      rw [messageContainsEnum, Bool.or_eq_true] at h
      rw [MessageDescriptor.nestedTypes]
      rcases h with h | h
      · obtain ⟨enumeration, henum, haddress⟩ := List.any_eq_true.mp h
        exact ⟨_, enumeration, List.mem_append_right _ (enum_mem_enumTypes scope henum),
          beq_iff_eq.mp haddress⟩
      · obtain ⟨path, enumeration, hmem, haddress⟩ := exists_enum_of_contains scope h
        exact ⟨path, enumeration, List.mem_append_left _ hmem, haddress⟩

end

mutual

theorem messageListContainsExtension_iff {target : Nat} : ∀ messages : List MessageDescriptor,
    messageListContainsExtension target messages = true ↔
      ∃ field ∈ Parser.collectMessagesExtensions messages, field.address = target
  | [] => by simp [messageListContainsExtension, Parser.collectMessagesExtensions]
  | first :: rest => by
      rw [messageListContainsExtension, Parser.collectMessagesExtensions, Bool.or_eq_true,
        messageContainsExtension_iff first, messageListContainsExtension_iff rest]
      simp only [List.mem_append, or_and_right, exists_or]

theorem messageContainsExtension_iff {target : Nat} : ∀ message : MessageDescriptor,
    messageContainsExtension target message = true ↔
      ∃ field ∈ Parser.collectMessageExtensions message, field.address = target
  | { extensions, messages, .. } => by
      rw [messageContainsExtension, Parser.collectMessageExtensions, Bool.or_eq_true,
        messageListContainsExtension_iff messages]
      simp only [List.any_eq_true, beq_iff_eq, List.mem_append, or_and_right, exists_or]

end

namespace Registry

open Descriptor

variable {registry : Registry} {file : FileDescriptor} {path : List Bytes}

/-- Files, extensions and fields are different objects. -/
structure PointersApart (registry : Registry) : Prop where
  files : (registry.files.map FileDescriptor.address).Nodup
  extensions :
    ((registry.files.flatMap Parser.collectExtensions).map FieldDescriptor.address).Nodup
  fields : ∀ file ∈ registry.files, ∀ pair ∈ file.declaredMessages, ∀ field ∈ pair.2.fields,
    ∀ other ∈ registry.files, ∀ extension ∈ Parser.collectExtensions other,
      field.address ≠ extension.address

/-- A type stands in the file that declares its full name. -/
theorem file_of_address (h : Described registry) (hfile : file ∈ registry.files) {type : TypeRef}
    (htype : (path, type) ∈ file.declaredTypes) {other : FileDescriptor} {place : List Bytes}
    {found : TypeRef} (hother : other ∈ registry.files)
    (hfound : (place, found) ∈ other.declaredTypes) (haddress : found.address = type.address) :
    other = file := by
  have hplace : place = path := h.pointers _ ((typesOf_sublist hother).subset hfound) _
    ((typesOf_sublist hfile).subset htype) haddress
  subst hplace
  exact h.file_eq hother hfile hfound htype

theorem fileContainingMessage_eq (h : Described registry) (hfile : file ∈ registry.files)
    {message : MessageDescriptor} (hmessage : (path, message) ∈ file.declaredMessages) :
    registry.fileContainingMessage message = some file := by
  obtain ⟨owner, howner, hmem, place, found, hfound, haddress⟩ :=
    exists_fileContainingMessage hfile hmessage
  rw [howner, file_of_address h hfile (mem_typesOf hfile hmessage).1 hmem
    (mem_typesOf hmem hfound).1 haddress]

theorem fileContainingEnum_eq (h : Described registry) (hfile : file ∈ registry.files)
    {enumeration : EnumDescriptor} (henum : (path, .enumeration enumeration) ∈ file.declaredTypes) :
    registry.fileContainingEnum enumeration = some file := by
  have hholds : (file.enums.any (fun other => other.address == enumeration.address)
      || messageListContainsEnum enumeration.address file.messages) = true := by
    rw [Bool.or_eq_true]
    rcases List.mem_append.mp henum with hmem | hmem
    · exact .inr (messageListContainsEnum_of_mem hmem)
    · obtain ⟨other, hother, hpair⟩ := mem_enumTypes.mp hmem
      obtain rfl := TypeRef.enumeration.inj (Prod.mk.inj hpair).2
      exact .inl (List.any_eq_true.mpr ⟨enumeration, hother, beq_self_eq_true _⟩)
  have hsome : (registry.fileContainingEnum enumeration).isSome = true :=
    List.find?_isSome.mpr ⟨file, hfile, hholds⟩
  obtain ⟨owner, howner⟩ := Option.isSome_iff_exists.mp hsome
  have hmem : owner ∈ registry.files := List.mem_of_find?_eq_some howner
  have hcontains := List.find?_some howner
  rw [Bool.or_eq_true] at hcontains
  obtain ⟨place, found, hfound, haddress⟩ : ∃ place found,
      (place, TypeRef.enumeration found) ∈ owner.declaredTypes ∧
        found.address = enumeration.address := by
    rcases hcontains with hbeside | hnested
    · obtain ⟨found, hfound, haddress⟩ := List.any_eq_true.mp hbeside
      exact ⟨_, found, List.mem_append_right _ (enum_mem_enumTypes _ hfound),
        beq_iff_eq.mp haddress⟩
    · obtain ⟨place, found, hfound, haddress⟩ := exists_enum_of_contains owner.packagePath hnested
      exact ⟨place, found, List.mem_append_left _ hfound, haddress⟩
  rw [howner, file_of_address h hfile henum hmem hfound haddress]

/-- The test of `fileContainingExtension`. -/
theorem holdsExtension_iff {target : Nat} :
    (file.extensions.any (fun field => field.address == target)
        || messageListContainsExtension target file.messages) = true ↔
      ∃ field ∈ Parser.collectExtensions file, field.address = target := by
  rw [Bool.or_eq_true, messageListContainsExtension_iff, Parser.collectExtensions]
  simp only [List.any_eq_true, beq_iff_eq, List.mem_append, or_and_right, exists_or]

theorem fileContainingExtension_eq (h : registry.PointersApart) (hfile : file ∈ registry.files)
    {field : FieldDescriptor} (hfield : field ∈ Parser.collectExtensions file) :
    registry.fileContainingExtension field = some file := by
  have hsome : (registry.fileContainingExtension field).isSome = true :=
    List.find?_isSome.mpr ⟨file, hfile, holdsExtension_iff.mpr ⟨field, hfield, rfl⟩⟩
  obtain ⟨owner, howner⟩ := Option.isSome_iff_exists.mp hsome
  have hmem : owner ∈ registry.files := List.mem_of_find?_eq_some howner
  have hholds := List.find?_some howner
  obtain ⟨found, hfound, haddress⟩ := holdsExtension_iff.mp hholds
  -- the two files share an extension, so they are one
  have hnodup := h.extensions
  have hin : found ∈ registry.files.flatMap Parser.collectExtensions :=
    List.mem_flatMap.mpr ⟨owner, hmem, hfound⟩
  have hin' : field ∈ registry.files.flatMap Parser.collectExtensions :=
    List.mem_flatMap.mpr ⟨file, hfile, hfield⟩
  obtain rfl : found = field := List.inj_on_of_nodup_map hnodup hin hin' haddress
  have hlists := (List.nodup_flatMap.mp hnodup.of_map).2
  have hsymm : Std.Symm (Function.onFun List.Disjoint Parser.collectExtensions) :=
    ⟨fun _ _ hdisjoint => hdisjoint.symm⟩
  by_contra hne
  rw [howner, Option.some.injEq] at hne
  exact hlists.forall hmem hfile hne hfound hfield

theorem fileContainingExtension_eq_none (h : registry.PointersApart) (hfile : file ∈ registry.files)
    {message : MessageDescriptor} (hmessage : (path, message) ∈ file.declaredMessages)
    {field : FieldDescriptor} (hfield : field ∈ message.fields) :
    registry.fileContainingExtension field = none := by
  unfold fileContainingExtension
  rw [List.find?_eq_none]
  intro other hother hholds
  obtain ⟨extension, hextension, haddress⟩ := holdsExtension_iff.mp hholds
  exact h.fields file hfile _ hmessage field hfield other hother extension hextension haddress.symm

/-- The message that a pointer to a member points into leads to its file. -/
theorem fileContainingMember_eq (h : Described registry) (hfile : file ∈ registry.files)
    {message : MessageDescriptor} (hmessage : (path, message) ∈ file.declaredMessages) {β : Type}
    (member : β) : registry.fileContainingMember (message, member) = some file := by
  have hbelow : ∃ place, (place, message) ∈ Pbz.declaredMessages [] file.messages := by
    obtain ⟨below, hbelow, hpath⟩ := mem_below (mem_typesOf hfile hmessage).1
    dsimp only at hpath
    have hat := (messageNamed_iff (distinct_file h hfile) hbelow).mpr (hpath ▸ hmessage)
    obtain ⟨type, htype, hasMessage⟩ := Option.bind_eq_some_iff.mp hat
    cases type with
    | message found =>
        obtain rfl := Option.some.inj hasMessage
        exact ⟨_, typeAt_declared htype []⟩
    | enumeration _ => cases hasMessage
  obtain ⟨place, hplace⟩ := hbelow
  have hsome : (registry.messageContaining (message, member)).isSome = true := by
    unfold messageContaining
    rw [List.findSome?_isSome_iff]
    refine ⟨file, hfile, ?_⟩
    rw [Option.isSome_map, List.find?_isSome]
    exact ⟨_, hplace, beq_self_eq_true _⟩
  obtain ⟨found, hfound⟩ := Option.isSome_iff_exists.mp hsome
  have haddress : found.address = message.address := by
    obtain ⟨other, -, hother⟩ := List.exists_of_findSome?_eq_some hfound
    obtain ⟨pair, hpair, rfl⟩ := Option.map_eq_some_iff.mp hother
    have hholds := List.find?_some hpair
    exact beq_iff_eq.mp hholds
  have hsame : registry.fileContainingMessage found = registry.fileContainingMessage message := by
    unfold fileContainingMessage
    rw [haddress]
  unfold fileContainingMember
  rw [hfound, Option.bind_some, hsame, fileContainingMessage_eq h hfile hmessage]

theorem fileContainingEnumValue_eq (h : Described registry) (hfile : file ∈ registry.files)
    {enumeration : EnumDescriptor} (henum : (path, .enumeration enumeration) ∈ file.declaredTypes)
    (hmem : enumeration ∈ file.enums ++ nestedEnums file.messages) (value : EnumValueDescriptor) :
    registry.fileContainingEnumValue (enumeration, value) = some file := by
  have hsome : (registry.enumContainingValue (enumeration, value)).isSome = true := by
    unfold enumContainingValue
    rw [List.findSome?_isSome_iff]
    refine ⟨file, hfile, ?_⟩
    rw [List.find?_isSome]
    exact ⟨_, hmem, beq_self_eq_true _⟩
  obtain ⟨found, hfound⟩ := Option.isSome_iff_exists.mp hsome
  have haddress : found.address = enumeration.address := by
    obtain ⟨other, -, hother⟩ := List.exists_of_findSome?_eq_some hfound
    have hholds := List.find?_some hother
    exact beq_iff_eq.mp hholds
  have hsame : registry.fileContainingEnum found = registry.fileContainingEnum enumeration := by
    unfold fileContainingEnum
    rw [haddress]
  unfold fileContainingEnumValue
  rw [hfound, Option.bind_some, hsame, fileContainingEnum_eq h hfile henum]

theorem fileContainingService_eq (h : registry.PointersApart) (hfile : file ∈ registry.files)
    {service : ServiceDescriptor} (hservice : service ∈ file.services) :
    registry.fileContainingService (file, service) = some file := by
  have hsome : (registry.fileContainingService (file, service)).isSome = true := by
    refine List.find?_isSome.mpr ⟨file, hfile, ?_⟩
    simpa using hservice
  obtain ⟨owner, howner⟩ := Option.isSome_iff_exists.mp hsome
  have hmem : owner ∈ registry.files := List.mem_of_find?_eq_some howner
  have hholds := List.find?_some howner
  rw [Bool.and_eq_true, beq_iff_eq] at hholds
  rw [howner, List.inj_on_of_nodup_map h.files hmem hfile hholds.1]

theorem fileContainingMethod_eq (h : registry.PointersApart) (hfile : file ∈ registry.files)
    {service : ServiceDescriptor} (hservice : service ∈ file.services) (method : MethodDescriptor) :
    registry.fileContainingMethod ((file, service), method) = some file := by
  have hsome : (registry.serviceContainingMethod ((file, service), method)).isSome = true := by
    unfold serviceContainingMethod
    rw [List.findSome?_isSome_iff]
    refine ⟨file, hfile, ?_⟩
    rw [Option.isSome_map, List.find?_isSome]
    exact ⟨service, hservice, by simp⟩
  obtain ⟨⟨owner, found⟩, hfound⟩ := Option.isSome_iff_exists.mp hsome
  obtain ⟨other, hother, hresult⟩ := List.exists_of_findSome?_eq_some hfound
  obtain ⟨first, hfirst, hpair⟩ := Option.map_eq_some_iff.mp hresult
  obtain ⟨rfl, rfl⟩ := Prod.mk.inj hpair
  have hholds := List.find?_some hfirst
  rw [Bool.and_eq_true, beq_iff_eq, beq_iff_eq] at hholds
  obtain rfl : other = file := List.inj_on_of_nodup_map h.files hother hfile hholds.1
  unfold fileContainingMethod
  rw [hfound, Option.bind_some, hholds.2, fileContainingService_eq h hfile hservice]

/-! ## The lookups -/

theorem findType_full (hr : ∀ file ∈ registry.files, file.WellNamed) (hp : IsPath 0x2e path) :
    registry.findType (joined 0x2e path) none = typeNamed registry.files path := by
  have habsolute := findAbsolute_joined hr hp
  unfold findType
  split
  · next rest hdot => exact absurd hdot (head_joined_ne hp rest)
  · rw [candidates, List.findSome?_singleton]
    exact habsolute

/-- The lookup of a type of some kind. -/
theorem finds_type (h : Described registry) {γ : Type} (select : TypeRef → Option γ)
    (containing : γ → Option FileDescriptor)
    (hcontaining : ∀ file ∈ registry.files, ∀ type target, (path, type) ∈ file.declaredTypes →
      select type = some target → containing target = some file) :
    Finds registry.files
      (fun file => ∃ type target, (path, type) ∈ file.declaredTypes ∧ select type = some target)
      (((typeNamed registry.files path).bind select).map containing) := by
  constructor
  · rintro file ⟨before, after, hfiles, ⟨type, target, htype, htarget⟩, -⟩
    have hfile : file ∈ registry.files := by simp [hfiles]
    have hnamed := (typeNamed_eq_some_iff h.distinct).mpr ((typesOf_sublist hfile).subset htype)
    rw [hnamed, Option.bind_some, htarget, Option.map_some,
      hcontaining file hfile type target htype htarget]
  · intro hnone
    cases hnamed : typeNamed registry.files path with
    | none => rfl
    | some type =>
        have hmem := (typeNamed_eq_some_iff h.distinct).mp hnamed
        obtain ⟨file, hfile, htype⟩ := List.mem_flatMap.mp hmem
        cases hselect : select type with
        | none => rw [Option.bind_some, hselect, Option.map_none]
        | some target => exact absurd ⟨type, target, htype, hselect⟩ (hnone file hfile)

theorem finds_message (h : Described registry) (hp : IsPath 0x2e path) :
    Finds registry.files (fun file => file.Meets path .message)
      (SymbolKind.lookup registry (joined 0x2e path) .message) := by
  unfold SymbolKind.lookup findMessage
  rw [findType_full h.wellNamed hp]
  refine (finds_type h asMessage registry.fileContainingMessage ?_).congr fun file => ?_
  · intro file hfile type message htype hmessage
    cases type with
    | enumeration _ => cases hmessage
    | message found =>
        obtain rfl := Option.some.inj hmessage
        exact fileContainingMessage_eq h hfile (mem_declaredTypes_file.mp htype)
  · constructor
    · rintro ⟨type, message, htype, hmessage⟩
      cases type with
      | enumeration _ => cases hmessage
      | message found => exact ⟨found, htype⟩
    · rintro ⟨message, htype⟩
      exact ⟨_, message, htype, rfl⟩

theorem finds_enum (h : Described registry) (hp : IsPath 0x2e path) :
    Finds registry.files (fun file => file.Meets path .enumeration)
      (SymbolKind.lookup registry (joined 0x2e path) .enumeration) := by
  unfold SymbolKind.lookup findEnum
  rw [findType_full h.wellNamed hp]
  refine (finds_type h asEnum registry.fileContainingEnum ?_).congr fun file => ?_
  · intro file hfile type enumeration htype henum
    cases type with
    | message _ => cases henum
    | enumeration found =>
        obtain rfl := Option.some.inj henum
        exact fileContainingEnum_eq h hfile htype
  · constructor
    · rintro ⟨type, enumeration, htype, henum⟩
      cases type with
      | message _ => cases henum
      | enumeration found => exact ⟨found, htype⟩
    · rintro ⟨enumeration, htype⟩
      exact ⟨_, enumeration, htype, rfl⟩

/-- The lookup of a member of the messages. -/
theorem finds_member (h : Described registry) (hp : IsPath 0x2e path) (hne : path ≠ []) {β : Type}
    (find : MessageDescriptor → Bytes → Option β) {containing : MemberPointer β → Option FileDescriptor}
    (hcontaining : ∀ file ∈ registry.files, ∀ place message last member,
      (place, message) ∈ file.declaredMessages → find message last = some member →
        containing (message, member) = some file) :
    Finds registry.files (fun file => file.Answers find (file.pathBelow path))
      ((registry.findMember find (joined 0x2e path) none).map containing) := by
  unfold findMember
  rw [normalizeName_joined hp]
  have hsearch : ∀ file ∈ registry.files, file.messages.findSome? (fun message =>
      findMemberInMessagePath find message
        (fieldLookupNameInFile file.package (joined 0x2e path) none)) =
      memberAt find file.messages (file.pathBelow path) :=
    fun file hfile => findSome?_pathBelow find (h.wellNamed file hfile) hp hne
  refine Finds.of_findSome? (fun file hfile => ?_) (fun file hfile target htarget => ?_)
  · rw [hsearch file hfile, ne_eq, memberAt_eq_none_iff (distinct_file h hfile), not_not]
  · rw [hsearch file hfile] at htarget
    obtain ⟨message, member⟩ := target
    obtain ⟨-, last, place, -, hplace, -, hmember⟩ :=
      memberAt_eq_some (distinct_file h hfile) htarget
    exact hcontaining file hfile place message last member hplace hmember

theorem finds_field (h : Described registry) (happart : registry.PointersApart)
    (hp : IsPath 0x2e path) (hne : path ≠ []) :
    Finds registry.files (fun file => file.Meets path .field)
      (SymbolKind.lookup registry (joined 0x2e path) .field) := by
  refine finds_member h hp hne MessageDescriptor.findField ?_
  intro file hfile place message last field hplace hfield
  have hmem : field ∈ message.fields := List.mem_of_find?_eq_some hfield
  unfold fileContainingField
  rw [fileContainingExtension_eq_none happart hfile hplace hmem, Option.none_or]
  exact fileContainingMember_eq h hfile hplace field

theorem finds_oneof (h : Described registry) (hp : IsPath 0x2e path) (hne : path ≠ []) :
    Finds registry.files (fun file => file.Meets path .oneof)
      (SymbolKind.lookup registry (joined 0x2e path) .oneof) :=
  finds_member h hp hne MessageDescriptor.findOneof
    (fun _ hfile _ _ _ oneof hplace _ => fileContainingMember_eq h hfile hplace oneof)

theorem finds_extension (happart : registry.PointersApart) (hp : IsPath 0x2e path) :
    Finds registry.files (fun file => file.Meets path .extension)
      (SymbolKind.lookup registry (joined 0x2e path) .extension) := by
  refine Finds.of_findSome? (fun file hfile => ?_) (fun file hfile field hfield => ?_)
  · rw [normalizeName_joined hp, ← Option.isSome_iff_ne_none, List.find?_isSome]
    rfl
  · exact fileContainingExtension_eq happart hfile (List.mem_of_find?_eq_some hfield)

theorem finds_service (happart : registry.PointersApart) (hp : IsPath 0x2e path) :
    Finds registry.files (fun file => file.Meets path .service)
      (SymbolKind.lookup registry (joined 0x2e path) .service) := by
  refine Finds.of_findSome? (fun file hfile => ?_) (fun file hfile target htarget => ?_)
  · rw [normalizeName_joined hp, ← Option.isSome_iff_ne_none, Option.isSome_map, List.find?_isSome]
    rfl
  · obtain ⟨service, hservice, rfl⟩ := Option.map_eq_some_iff.mp htarget
    exact fileContainingService_eq happart hfile (List.mem_of_find?_eq_some hservice)

theorem finds_method (happart : registry.PointersApart) (hp : IsPath 0x2e path) :
    Finds registry.files (fun file => file.Meets path .method)
      (SymbolKind.lookup registry (joined 0x2e path) .method) := by
  refine Finds.of_findSome? (fun file hfile => ?_) (fun file hfile target htarget => ?_)
  · rw [normalizeName_joined hp, ← Option.isSome_iff_ne_none, List.findSome?_isSome_iff]
    simp only [Option.isSome_map, Option.isSome_iff_ne_none]
    rfl
  · obtain ⟨service, hservice, hmethod⟩ := List.exists_of_findSome?_eq_some htarget
    obtain ⟨method, -, rfl⟩ := Option.map_eq_some_iff.mp hmethod
    exact fileContainingMethod_eq happart hfile hservice method

/-- The search of a file for an enum value, at its top level and in its messages. -/
theorem enumValueSearch_eq (hf : file.WellNamed) (hp : IsPath 0x2e path) (hne : path ≠ []) :
    ((file.enums.findSome? (findEnumValueInEnumPath
          (fieldLookupNameInFile file.package (joined 0x2e path) none))).or
        (file.messages.findSome? (findEnumValueInMessagePath
          (fieldLookupNameInFile file.package (joined 0x2e path) none)))) =
      (file.enums.findSome? (findEnumValueInEnumPath (joined 0x2e (file.pathBelow path)))).or
        ((memberAt MessageDescriptor.findEnumValue file.messages (file.pathBelow path)).map
          Prod.snd) := by
  have hmessages := findSome?_pathBelow MessageDescriptor.findEnumValue hf hp hne
  rw [fieldLookupNameInFile_none hf hp] at hmessages ⊢
  rw [← hmessages, List.map_findSome?]
  rfl

theorem findEnumValueInEnumPath_joined {below : List Bytes} (hp : IsPath 0x2e below)
    (hne : below ≠ []) (enumeration : EnumDescriptor) :
    findEnumValueInEnumPath (joined 0x2e below) enumeration ≠ none ↔
      ∃ name, below = [name] ∧ enumeration.findValue name ≠ none := by
  unfold findEnumValueInEnumPath
  obtain ⟨head, rest, rfl⟩ := List.exists_cons_of_ne_nil hne
  cases rest with
  | nil =>
      rw [joined_singleton, splitAtDot_part (hp head List.mem_cons_self)]
      simp [EnumDescriptor.valuePointer]
  | cons next rest =>
      rw [splitAtDot_joined hp]
      simp

theorem findEnumValueInEnumPath_owner {query : Bytes} {enumeration : EnumDescriptor}
    {target : EnumDescriptor × EnumValueDescriptor}
    (h : findEnumValueInEnumPath query enumeration = some target) : target.1 = enumeration := by
  unfold findEnumValueInEnumPath at h
  split at h
  · cases h
  · obtain ⟨value, -, rfl⟩ := Option.map_eq_some_iff.mp h
    rfl

theorem findEnumValue_owner {message : MessageDescriptor} {name : Bytes}
    {target : EnumDescriptor × EnumValueDescriptor}
    (h : message.findEnumValue name = some target) : target.1 ∈ message.enums := by
  obtain ⟨enumeration, henum, hvalue⟩ := List.exists_of_findSome?_eq_some h
  obtain ⟨value, -, rfl⟩ := Option.map_eq_some_iff.mp hvalue
  exact henum

theorem finds_enumValue (h : Described registry) (hp : IsPath 0x2e path) (hne : path ≠ []) :
    Finds registry.files (fun file => file.Meets path .enumValue)
      (SymbolKind.lookup registry (joined 0x2e path) .enumValue) := by
  refine Finds.of_findSome? (fun file hfile => ?_) (fun file hfile target htarget => ?_)
  · have hbelow : IsPath 0x2e (file.pathBelow path) := pathBelow_isPath hp
    have hbelowNe : file.pathBelow path ≠ [] := pathBelow_ne_nil hne
    dsimp only
    rw [normalizeName_joined hp, enumValueSearch_eq (h.wellNamed file hfile) hp hne, ne_eq,
      Option.or_eq_none_iff, not_and_or, Option.map_eq_none_iff,
      memberAt_eq_none_iff (distinct_file h hfile), not_not]
    refine or_congr_left ?_
    rw [← ne_eq, ← Option.isSome_iff_ne_none, List.findSome?_isSome_iff]
    simp only [Option.isSome_iff_ne_none, findEnumValueInEnumPath_joined hbelow hbelowNe]
    constructor
    · rintro ⟨enumeration, henum, name, hname, hvalue⟩
      exact ⟨name, hname, enumeration, henum, hvalue⟩
    · rintro ⟨name, hname, enumeration, henum, hvalue⟩
      exact ⟨enumeration, henum, name, hname, hvalue⟩
  · dsimp only at htarget
    rw [normalizeName_joined hp, enumValueSearch_eq (h.wellNamed file hfile) hp hne,
      Option.or_eq_some_iff] at htarget
    obtain ⟨enumeration, value⟩ := target
    rcases htarget with hbeside | ⟨-, hnested⟩
    · obtain ⟨other, hother, hvalue⟩ := List.exists_of_findSome?_eq_some hbeside
      obtain rfl : enumeration = other := findEnumValueInEnumPath_owner hvalue
      exact fileContainingEnumValue_eq h hfile
        (List.mem_append_right _ (enum_mem_enumTypes file.packagePath hother))
        (List.mem_append_left _ hother) value
    · obtain ⟨⟨message, found⟩, hfound, hpair⟩ := Option.map_eq_some_iff.mp hnested
      obtain rfl : found = (enumeration, value) := hpair
      obtain ⟨-, last, place, -, hplace, -, hvalue⟩ :=
        memberAt_eq_some (distinct_file h hfile) hfound
      obtain ⟨hlisted, htype⟩ := enum_of_declared (findEnumValue_owner hvalue) hplace
      exact fileContainingEnumValue_eq h hfile (List.mem_append_left _ htype)
        (List.mem_append_right _ hlisted) value

/-- What each of the lookups finds. -/
theorem lookup_finds (h : Described registry) (happart : registry.PointersApart)
    (hp : IsPath 0x2e path) (hne : path ≠ []) (kind : SymbolKind) :
    Finds registry.files (fun file => file.Meets path kind)
      (kind.lookup registry (joined 0x2e path)) := by
  cases kind with
  | message => exact finds_message h hp
  | field => exact finds_field h happart hp hne
  | extension => exact finds_extension happart hp
  | oneof => exact finds_oneof h hp hne
  | enumeration => exact finds_enum h hp
  | enumValue => exact finds_enumValue h hp hne
  | service => exact finds_service happart hp
  | method => exact finds_method happart hp

/-! ## The first lookup that finds something -/

/-- A file is the first that one of the lookups takes, and no file is taken by an earlier one. -/
def FirstMeets (registry : Registry) (path : List Bytes) (kind : SymbolKind)
    (file : FileDescriptor) : Prop :=
  FirstAmong registry.files (fun file => file.Meets path kind) file ∧
    ∃ before after, SymbolKind.all = before ++ kind :: after ∧
      ∀ earlier ∈ before, ∀ other ∈ registry.files, ¬ other.Meets path earlier

theorem exists_firstMeets {kind : SymbolKind} (hfile : file ∈ registry.files)
    (hmeets : file.Meets path kind) : ∃ kind first, registry.FirstMeets path kind first := by
  -- the kinds one after the other, up to the first that some file meets
  have hsearch : ∀ kinds : List SymbolKind, kind ∈ kinds →
      ∃ before first after, kinds = before ++ first :: after ∧
        (∃ other ∈ registry.files, other.Meets path first) ∧
        ∀ earlier ∈ before, ∀ other ∈ registry.files, ¬ other.Meets path earlier := by
    intro kinds
    induction kinds with
    | nil => intro hkind; cases hkind
    | cons first rest ih =>
        intro hkind
        by_cases hfirst : ∃ other ∈ registry.files, other.Meets path first
        · exact ⟨[], first, rest, rfl, hfirst, fun earlier hearlier => absurd hearlier List.not_mem_nil⟩
        · rcases List.mem_cons.mp hkind with rfl | hrest
          · exact absurd ⟨file, hfile, hmeets⟩ hfirst
          · obtain ⟨before, found, after, rfl, hfound, hbefore⟩ := ih hrest
            refine ⟨first :: before, found, after, rfl, hfound, ?_⟩
            refine List.forall_mem_cons.mpr ⟨fun other hother hother' => ?_, hbefore⟩
            exact hfirst ⟨other, hother, hother'⟩
  obtain ⟨before, first, after, hkinds, ⟨other, hother, hotherMeets⟩, hbefore⟩ :=
    hsearch SymbolKind.all (by cases kind <;> decide)
  obtain ⟨found, hfound⟩ : ∃ found,
      FirstAmong registry.files (fun file => file.Meets path first) found :=
    exists_firstAmong hother hotherMeets
  exact ⟨first, found, hfound, before, after, hkinds, hbefore⟩

section

variable {symbol : Bytes}

theorem findFileContainingSymbol_of_firstMeets (h : Described registry)
    (happart : registry.PointersApart) (hp : IsPath 0x2e path) (hne : path ≠ [])
    (hsymbol : normalizeName symbol = joined 0x2e path) {kind : SymbolKind}
    (hfirst : registry.FirstMeets path kind file) :
    registry.findFileContainingSymbol symbol = some file := by
  obtain ⟨hfile, before, after, hkinds, hbefore⟩ := hfirst
  have hfound : SymbolKind.all.findSome? (SymbolKind.lookup registry (joined 0x2e path)) =
      some (some file) :=
    List.findSome?_eq_some_iff.mpr ⟨before, kind, after, hkinds,
      (lookup_finds h happart hp hne kind).first file hfile,
      fun earlier hearlier => (lookup_finds h happart hp hne earlier).nothing
        (hbefore earlier hearlier)⟩
  rw [findFileContainingSymbol, hsymbol, hfound]
  rfl

theorem findFileContainingSymbol_of_none (h : Described registry)
    (happart : registry.PointersApart) (hp : IsPath 0x2e path) (hne : path ≠ [])
    (hsymbol : normalizeName symbol = joined 0x2e path)
    (hnone : ∀ kind, ∀ other ∈ registry.files, ¬ other.Meets path kind) :
    registry.findFileContainingSymbol symbol = none := by
  have hfound : SymbolKind.all.findSome? (SymbolKind.lookup registry (joined 0x2e path)) = none :=
    List.findSome?_eq_none_iff.mpr (fun kind _ =>
      (lookup_finds h happart hp hne kind).nothing (hnone kind))
  rw [findFileContainingSymbol, hsymbol, hfound]
  rfl

end

/-! ## Exact results -/

/-- A file declares the symbol with a full name. -/
def Declares (file : FileDescriptor) (path : List Bytes) : Prop :=
  joined 0x2e path ∈ fileSymbols file

/-- The result is the file that declares the symbol, and nothing where no file does. -/
structure FindsDeclaring (registry : Registry) (path : List Bytes)
    (result : Option FileDescriptor) : Prop where
  declared : ∀ file ∈ registry.files, Declares file path → result = some file
  undeclared : (∀ file ∈ registry.files, ¬ Declares file path) → result = none

/-- The first file that a lookup takes for the symbol declares it, and where a file declares it
some lookup takes one. -/
structure MeetsDeclaring (registry : Registry) (path : List Bytes) : Prop where
  first : ∀ kind file, registry.FirstMeets path kind file → Declares file path
  declared : ∀ file ∈ registry.files, Declares file path →
    ∃ kind, ∃ other ∈ registry.files, other.Meets path kind

/-- A symbol is declared in one file. -/
theorem declares_unique (h : registry.loadedSymbols.Nodup) {other : FileDescriptor}
    (hfile : file ∈ registry.files) (hother : other ∈ registry.files)
    (hdeclares : Declares file path) (hdeclares' : Declares other path) : file = other := by
  have hlists := (List.nodup_flatMap.mp h).2
  have hsymm : Std.Symm (Function.onFun List.Disjoint fileSymbols) :=
    ⟨fun _ _ hdisjoint => hdisjoint.symm⟩
  by_contra hne
  exact hlists.forall hfile hother hne hdeclares hdeclares'

theorem FirstMeets.mem {kind : SymbolKind} (h : registry.FirstMeets path kind file) :
    file ∈ registry.files := by
  obtain ⟨⟨before, after, hfiles, -⟩, -⟩ := h
  rw [hfiles]
  simp

/-- When the lookup of a symbol finds the file that declares it. -/
theorem findsDeclaring_iff {calls : List Call}
    (hnamed : ∀ file ∈ (afterCalls {} calls).files, file.WellNamed)
    (hpointers : PointersToOne (typesOf (afterCalls {} calls).files))
    (happart : (afterCalls {} calls).PointersApart) (hp : IsPath 0x2e path) (hne : path ≠ [])
    {symbol : Bytes} (hsymbol : normalizeName symbol = joined 0x2e path) :
    (afterCalls {} calls).FindsDeclaring path
        ((afterCalls {} calls).findFileContainingSymbol symbol) ↔
      (afterCalls {} calls).MeetsDeclaring path := by
  have h := described_afterCalls hnamed hpointers
  have hunique : (afterCalls {} calls).loadedSymbols.Nodup := loadedSymbols_afterCalls List.nodup_nil
  have hresult : ∀ kind file, (afterCalls {} calls).FirstMeets path kind file →
      (afterCalls {} calls).findFileContainingSymbol symbol = some file :=
    fun _ _ hfirst => findFileContainingSymbol_of_firstMeets h happart hp hne hsymbol hfirst
  constructor
  · rintro ⟨hdeclared, hundeclared⟩
    refine ⟨fun kind file hfirst => ?_, fun file hfile hdeclares => ?_⟩
    · have hfound := hresult kind file hfirst
      by_contra hnot
      by_cases hsome : ∃ other ∈ (afterCalls {} calls).files, Declares other path
      · obtain ⟨other, hother, hdeclares⟩ := hsome
        have hsame := hdeclared other hother hdeclares
        rw [hfound, Option.some.injEq] at hsame
        exact hnot (hsame ▸ hdeclares)
      · have hnone := hundeclared (fun other hother hdeclares => hsome ⟨other, hother, hdeclares⟩)
        rw [hfound] at hnone
        cases hnone
    · have hfound := hdeclared file hfile hdeclares
      by_contra hnone
      rw [findFileContainingSymbol_of_none h happart hp hne hsymbol
        (fun kind other hother hmeets => hnone ⟨kind, other, hother, hmeets⟩)] at hfound
      cases hfound
  · rintro ⟨hfirst, hmeets⟩
    refine ⟨fun file hfile hdeclares => ?_, fun hnone => ?_⟩
    · obtain ⟨kind, other, hother, hmeet⟩ := hmeets file hfile hdeclares
      obtain ⟨kind, found, hfound⟩ := exists_firstMeets hother hmeet
      rw [hresult kind found hfound, declares_unique hunique hfound.mem hfile
        (hfirst kind found hfound) hdeclares]
    · refine findFileContainingSymbol_of_none h happart hp hne hsymbol ?_
      intro kind other hother hmeet
      obtain ⟨kind, found, hfound⟩ := exists_firstMeets hother hmeet
      exact hnone found hfound.mem (hfirst kind found hfound)

/-! ## A symbol below a package -/

/-- `package x; message a { optional int32 b = 1; }` -/
def otherPackageFile : FileDescriptor :=
  { name := ascii "x.proto", package := ascii "x", address := 1,
    messages := [messageWithField "a" "b" 2] }

theorem otherPackageFile_loaded :
    (afterCalls {} (callsWith [otherPackageFile])).files = [otherPackageFile] :=
  afterCalls_single (by decide)

theorem otherPackageFile_named :
    ∀ file ∈ (afterCalls {} (callsWith [otherPackageFile])).files, file.WellNamed := by
  rw [otherPackageFile_loaded]
  intro file hfile
  rw [List.mem_singleton.mp hfile]
  exact {
    package := by decide
    messages := fun scope message h =>
      (by decide : ∀ pair ∈ otherPackageFile.declaredMessages, IsPart 0x2e pair.2.name)
        (scope, message) h
    nestedEnums := fun scope message h =>
      (by decide : ∀ pair ∈ otherPackageFile.declaredMessages, ∀ e ∈ pair.2.enums,
        IsPart 0x2e e.name) (scope, message) h
    enums := by decide }

theorem otherPackageFile_pointers :
    PointersToOne (typesOf (afterCalls {} (callsWith [otherPackageFile])).files) := by
  rw [otherPackageFile_loaded, PointersToOne]
  decide

theorem otherPackageFile_apart : (afterCalls {} (callsWith [otherPackageFile])).PointersApart where
  files := by rw [otherPackageFile_loaded]; decide
  extensions := by rw [otherPackageFile_loaded]; decide
  fields := by rw [otherPackageFile_loaded]; decide

/-- The lookup of the message `x.a`. -/
theorem findsDeclaring_iff_message :
    (afterCalls {} (callsWith [otherPackageFile])).FindsDeclaring [ascii "x", ascii "a"]
        ((afterCalls {} (callsWith [otherPackageFile])).findFileContainingSymbol (ascii ".x.a")) ↔
      (afterCalls {} (callsWith [otherPackageFile])).MeetsDeclaring [ascii "x", ascii "a"] :=
  findsDeclaring_iff otherPackageFile_named otherPackageFile_pointers otherPackageFile_apart
    (by decide) (by decide) (by decide)

/-- No file declares `a.b`, and the file of `x.a.b` is found for it. -/
theorem exists_symbol_misplaced :
    (∀ file ∈ (afterCalls {} (callsWith [otherPackageFile])).files,
        ¬ Declares file [ascii "a", ascii "b"]) ∧
      ¬ (afterCalls {} (callsWith [otherPackageFile])).FindsDeclaring [ascii "a", ascii "b"]
        ((afterCalls {} (callsWith [otherPackageFile])).findFileContainingSymbol
          (ascii "a.b")) := by
  have hundeclared : ∀ file ∈ (afterCalls {} (callsWith [otherPackageFile])).files,
      ¬ Declares file [ascii "a", ascii "b"] := by
    rw [otherPackageFile_loaded]
    intro file hfile
    rw [List.mem_singleton.mp hfile]
    exact (by decide : ascii "a.b" ∉ fileSymbols otherPackageFile)
  refine ⟨hundeclared, fun hfinds => ?_⟩
  have hnone := congrArg Option.isSome (hfinds.undeclared hundeclared)
  revert hnone
  decide

end Registry

end Pbz
