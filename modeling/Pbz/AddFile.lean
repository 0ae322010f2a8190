import Pbz.Imports
import Pbz.Lib.Fresh
import Pbz.Parser.ValidateFile

set_option autoImplicit false

/-! # Adding files to a registry

`Registry.addFile` and the checks it makes: no symbol twice, no two extensions of one message with
one number, and every extension as the ranges of its extendee declare it. The checks of
declarations that `registry.zig` shares word for word with the parser are the parser's here.
-/

namespace Pbz

open Check FreshNames

namespace Registry

inductive Error where
  | outOfMemory
  | duplicateSymbol
  | invalidExtensionDeclaration
  deriving DecidableEq

/-- What `addFile` allocates; the number is that of the symbols seen so far. -/
inductive Allocation where
  | symbolName (seen : Nat)
  | symbolEntry (seen : Nat)
  | extensionRefs
  | files
  deriving DecidableEq

/-- Whether an allocation succeeds. -/
abbrev Memory := Allocation → Bool

/-! ## Symbols -/

def qualifiedTypeName (scope name : Bytes) : Bytes :=
  if scope.isEmpty then name else scope ++ 0x2e :: name

/-- A name with a dot in it is a full name already. -/
def qualifiedSymbolName (scope name : Bytes) : Bytes :=
  if scope.isEmpty || (normalizeName name).contains 0x2e then normalizeName name
  else qualifiedTypeName scope (normalizeName name)

section Symbols

variable (memory : Memory)

def putLoadedSymbolName (fullName : Bytes) (seen : List Bytes) : Except Error (List Bytes) := do
  reject (!memory (.symbolName seen.length)) .outOfMemory
  reject (seen.contains fullName) .duplicateSymbol
  reject (!memory (.symbolEntry seen.length)) .outOfMemory
  return fullName :: seen

def collectExtensionSymbol (scope : Bytes) (seen : List Bytes) (field : FieldDescriptor) :
    Except Error (List Bytes) :=
  putLoadedSymbolName memory (qualifiedSymbolName scope (extensionFullName field)) seen

/-- The values of an enum are names of the scope that the enum is in. -/
def collectEnumSymbols (scope : Bytes) (seen : List Bytes) (enumeration : EnumDescriptor) :
    Except Error (List Bytes) := do
  let seen ← putLoadedSymbolName memory (qualifiedSymbolName scope enumeration.name) seen
  enumeration.values.foldlM (fun seen value =>
    putLoadedSymbolName memory (qualifiedSymbolName scope value.name) seen) seen

mutual

def collectMessagesSymbols (scope : Bytes) :
    List MessageDescriptor → List Bytes → Except Error (List Bytes)
  | [], seen => .ok seen
  | message :: rest, seen => do
      let seen ← collectMessageSymbols scope message seen
      collectMessagesSymbols scope rest seen

def collectMessageSymbols (scope : Bytes) :
    MessageDescriptor → List Bytes → Except Error (List Bytes)
  | { name, fields, oneofs, messages, enums, extensions, .. }, seen => do
      let messageScope := qualifiedSymbolName scope name
      let seen ← putLoadedSymbolName memory messageScope seen
      let seen ← fields.foldlM (fun seen field =>
        putLoadedSymbolName memory (qualifiedSymbolName messageScope field.name) seen) seen
      let seen ← oneofs.foldlM (fun seen oneof =>
        putLoadedSymbolName memory (qualifiedSymbolName messageScope oneof.name) seen) seen
      let seen ← extensions.foldlM (collectExtensionSymbol memory messageScope) seen
      let seen ← collectMessagesSymbols messageScope messages seen
      enums.foldlM (collectEnumSymbols memory messageScope) seen

end

def collectServiceSymbols (scope : Bytes) (seen : List Bytes) (service : ServiceDescriptor) :
    Except Error (List Bytes) := do
  let serviceScope := qualifiedSymbolName scope service.name
  let seen ← putLoadedSymbolName memory serviceScope seen
  service.methods.foldlM (fun seen method =>
    putLoadedSymbolName memory (qualifiedSymbolName serviceScope method.name) seen) seen

def collectFileSymbols (seen : List Bytes) (file : FileDescriptor) :
    Except Error (List Bytes) := do
  let seen ← collectMessagesSymbols memory file.package file.messages seen
  let seen ← file.enums.foldlM (collectEnumSymbols memory file.package) seen
  let seen ← file.extensions.foldlM (collectExtensionSymbol memory file.package) seen
  file.services.foldlM (collectServiceSymbols memory file.package) seen

def validateNoSymbolConflicts (registry : Registry) (file : FileDescriptor) :
    Except Error Unit := do
  let seen ← registry.files.foldlM (collectFileSymbols memory) []
  let _ ← collectFileSymbols memory seen file
  return ()

end Symbols

/-! ## Extensions of one message -/

def namesMatch (a b : Bytes) : Bool :=
  normalizeName a == normalizeName b || (normalizeName b).isSuffixOf (normalizeName a)
    || (normalizeName a).isSuffixOf (normalizeName b)

structure ExtensionRef where
  file : FileDescriptor
  field : FieldDescriptor

/-- The extensions of a file, each before those of the messages behind it. -/
def collectFileExtensions (file : FileDescriptor) : List ExtensionRef :=
  (Parser.collectExtensions file).map (fun field => ⟨file, field⟩)

def extendeeOf (registry : Registry) (ref : ExtensionRef) : Option MessageDescriptor :=
  registry.resolveExtensionExtendee ref.file ref.field

def extensionsTargetSameMessage (registry : Registry) (a b : ExtensionRef) : Bool :=
  match a.field.extendee, b.field.extendee with
  | some aExtendee, some bExtendee =>
      match registry.extendeeOf a, registry.extendeeOf b with
      | some aMessage, some bMessage => aMessage.address == bMessage.address
      | none, none => namesMatch aExtendee bExtendee
      | _, _ => false
  | _, _ => false

def extensionsConflictResolved (registry : Registry) (a b : ExtensionRef) : Bool :=
  if !registry.extensionsTargetSameMessage a b then false
  else if a.field.number == b.field.number then true
  else extensionSymbolsEqualWithPackages a.file.package a.field b.file.package b.field

def validateExtensionConflict (registry : Registry) (ref : ExtensionRef) : Except Error Unit :=
  forEach (fun existingFile => forEach (fun existing =>
    reject (registry.extensionsConflictResolved ref existing) .duplicateSymbol)
      (collectFileExtensions existingFile)) registry.files

def validateNoExtensionConflicts (memory : Memory) (registry : Registry) (file : FileDescriptor) :
    Except Error Unit := do
  let extensions := collectFileExtensions file
  reject (!extensions.isEmpty && !memory .extensionRefs) .outOfMemory
  forTails (fun ref others => forEach (fun other =>
    reject (registry.extensionsConflictResolved ref other) .duplicateSymbol) others) extensions
  forEach registry.validateExtensionConflict extensions

/-! ## Declared extensions -/

/-- `maxInt(i64)`, the end of a range that has none. -/
def maxRangeEnd : Int := 2 ^ 63 - 1

def validateExtensionDeclarationShape (declaration : ExtensionDeclaration) : Except Error Unit :=
  let hasFullName := !declaration.fullName.isEmpty
  let hasType := !declaration.typeName.isEmpty
  if !hasFullName || !hasType then
    reject (hasFullName != hasType || !declaration.reserved) .invalidExtensionDeclaration
  else do
    reject (!declarationSymbolIsQualified declaration.fullName) .invalidExtensionDeclaration
    reject (!Parser.extensionDeclarationTypeNameValid declaration.typeName)
      .invalidExtensionDeclaration

def validateExtensionRangeDeclarationSet (range : ExtensionRange) : Except Error Unit := do
  reject (!range.declarations.isEmpty && range.verification == some .unverified)
    .invalidExtensionDeclaration
  forTails (fun (declaration : ExtensionDeclaration) others => do
    reject (declaration.number ≤ 0) .invalidExtensionDeclaration
    reject (declaration.number < range.start || declaration.number ≥ range.end.getD maxRangeEnd)
      .invalidExtensionDeclaration
    validateExtensionDeclarationShape declaration
    forEach (fun (other : ExtensionDeclaration) => do
      reject (declaration.number == other.number) .invalidExtensionDeclaration
      reject (!declaration.fullName.isEmpty && !other.fullName.isEmpty
        && declaration.fullName == other.fullName) .invalidExtensionDeclaration) others)
    range.declarations

def validateExtensionFieldDeclaration (package : Bytes) (field : FieldDescriptor)
    (range : ExtensionRange) : Except Error Unit :=
  -- the last declaration of the number counts
  match range.declarations.reverse.find? (fun declaration =>
      declaration.number == (field.number : Int)) with
  | none =>
      reject (range.verification == some .declaration || !range.declarations.isEmpty)
        .invalidExtensionDeclaration
  | some declaration => do
      reject declaration.reserved .invalidExtensionDeclaration
      reject (!declaration.fullName.isEmpty
        && !extensionDeclarationNameMatches package declaration.fullName field)
        .invalidExtensionDeclaration
      reject (declaration.repeated && field.cardinality != .repeated) .invalidExtensionDeclaration
      reject (!declaration.repeated && field.cardinality == .repeated) .invalidExtensionDeclaration
      reject (!declaration.typeName.isEmpty
        && !Parser.extensionTypeMatches package field declaration.typeName)
        .invalidExtensionDeclaration

def validateMessageSetExtensionShape (field : FieldDescriptor) (extendee : MessageDescriptor) :
    Except Error Unit :=
  if !extendee.messageSetWireFormat then .ok ()
  else do
    reject (field.cardinality == .repeated || field.cardinality == .required)
      .invalidExtensionDeclaration
    reject (!field.kind.isMessage) .invalidExtensionDeclaration

def validateExtensionAgainstDeclaration (registry : Registry) (field : FieldDescriptor) :
    Except Error Unit :=
  match field.extendee with
  | none => .ok ()
  | some extendeeName =>
      match registry.fileContainingExtension field with
      | none => .error .invalidExtensionDeclaration
      | some owner =>
          match registry.resolveExtensionExtendee owner field with
          | none =>
              reject (!Parser.isCustomOptionExtendee extendeeName) .invalidExtensionDeclaration
          | some extendee =>
              match extendee.extensionRanges.find? (fun range =>
                  (field.number : Int) ≥ range.start
                    && (field.number : Int) < range.end.getD maxRangeEnd) with
              | none => .error .invalidExtensionDeclaration
              | some range => do
                  validateExtensionFieldDeclaration owner.package field range
                  validateMessageSetExtensionShape field extendee

mutual

def validateMessagesExtensionRangeDeclarations : List MessageDescriptor → Except Error Unit
  | [] => .ok ()
  | message :: rest => do
      validateMessageExtensionRangeDeclarations message
      validateMessagesExtensionRangeDeclarations rest

def validateMessageExtensionRangeDeclarations : MessageDescriptor → Except Error Unit
  | { extensionRanges, messages, .. } => do
      forEach validateExtensionRangeDeclarationSet extensionRanges
      validateMessagesExtensionRangeDeclarations messages

end

def validateExtensionDeclarations (registry : Registry) : Except Error Unit := do
  forEach (fun (file : FileDescriptor) =>
    validateMessagesExtensionRangeDeclarations file.messages) registry.files
  forEach (fun file =>
    forEach registry.validateExtensionAgainstDeclaration (Parser.collectExtensions file))
    registry.files

/-! ## Adding a file -/

/-- `files.append`. -/
def append (registry : Registry) (file : FileDescriptor) : Registry :=
  { registry with files := registry.files ++ [file] }

/-- `errdefer self.files.items.len -= 1`. -/
def dropLast (registry : Registry) : Registry :=
  { registry with files := registry.files.take (registry.files.length - 1) }

/-- `addFile`: the result of the call and the registry it leaves. -/
def addFile (memory : Memory) (registry : Registry) (file : FileDescriptor) :
    Except Error Unit × Registry :=
  let before : Except Error Unit := do
    validateNoSymbolConflicts memory registry file
    validateNoExtensionConflicts memory registry file
    reject (!memory .files) .outOfMemory
  match before with
  | .error e => (.error e, registry)
  | .ok () =>
      match (registry.append file).validateExtensionDeclarations with
      | .error e => (.error e, (registry.append file).dropLast)
      | .ok () => (.ok (), registry.append file)

/-! ## The symbols of a file -/

def enumSymbols (scope : Bytes) (enumeration : EnumDescriptor) : List Bytes :=
  qualifiedSymbolName scope enumeration.name ::
    enumeration.values.map (fun value => qualifiedSymbolName scope value.name)

def extensionSymbol (scope : Bytes) (field : FieldDescriptor) : Bytes :=
  qualifiedSymbolName scope (extensionFullName field)

mutual

def messagesSymbols (scope : Bytes) : List MessageDescriptor → List Bytes
  | [] => []
  | message :: rest => messageSymbols scope message ++ messagesSymbols scope rest

/-- The full names of a message and of all that is declared in it. -/
def messageSymbols (scope : Bytes) : MessageDescriptor → List Bytes
  | { name, fields, oneofs, messages, enums, extensions, .. } =>
      let messageScope := qualifiedSymbolName scope name
      messageScope ::
        (fields.map (fun field => qualifiedSymbolName messageScope field.name) ++
          (oneofs.map (fun oneof => qualifiedSymbolName messageScope oneof.name) ++
            (extensions.map (extensionSymbol messageScope) ++
              (messagesSymbols messageScope messages ++
                enums.flatMap (enumSymbols messageScope)))))

end

def serviceSymbols (scope : Bytes) (service : ServiceDescriptor) : List Bytes :=
  let serviceScope := qualifiedSymbolName scope service.name
  serviceScope :: service.methods.map (fun method => qualifiedSymbolName serviceScope method.name)

/-- The full names of all that a file declares. -/
def fileSymbols (file : FileDescriptor) : List Bytes :=
  messagesSymbols file.package file.messages ++ (file.enums.flatMap (enumSymbols file.package) ++
    (file.extensions.map (extensionSymbol file.package) ++
      file.services.flatMap (serviceSymbols file.package)))

def loadedSymbols (registry : Registry) : List Bytes := registry.files.flatMap fileSymbols

section Symbols

variable {memory : Memory} {scope : Bytes}

theorem putLoadedSymbolName_adds (fullName : Bytes) :
    Adds (putLoadedSymbolName memory fullName) [fullName] := by
  intro seen result h
  unfold putLoadedSymbolName at h
  obtain ⟨-, h⟩ := reject_bind_eq_ok.mp h
  obtain ⟨hcontains, h⟩ := reject_bind_eq_ok.mp h
  obtain ⟨-, h⟩ := reject_bind_eq_ok.mp h
  cases h
  have hnotMem : fullName ∉ seen := by simpa using hcontains
  exact ⟨rfl, fun hnodup => List.nodup_cons.mpr ⟨hnotMem, hnodup⟩⟩

theorem collectExtensionSymbol_adds (field : FieldDescriptor) :
    Adds (fun seen => collectExtensionSymbol memory scope seen field)
      [extensionSymbol scope field] :=
  putLoadedSymbolName_adds _

theorem collectEnumSymbols_adds (enumeration : EnumDescriptor) :
    Adds (fun seen => collectEnumSymbols memory scope seen enumeration)
      (enumSymbols scope enumeration) :=
  (putLoadedSymbolName_adds _).bind (Adds.foldlM_map fun _ => putLoadedSymbolName_adds _)

mutual

theorem collectMessagesSymbols_adds (scope : Bytes) : (messages : List MessageDescriptor) →
    Adds (collectMessagesSymbols memory scope messages) (messagesSymbols scope messages)
  | [] => adds_nil
  | message :: rest =>
      (collectMessageSymbols_adds scope message).bind (collectMessagesSymbols_adds scope rest)

theorem collectMessageSymbols_adds (scope : Bytes) : (message : MessageDescriptor) →
    Adds (collectMessageSymbols memory scope message) (messageSymbols scope message)
  | { name, fields, oneofs, messages, enums, extensions, .. } => by
      refine (putLoadedSymbolName_adds _).bind ?_
      refine (Adds.foldlM_map fun _ => putLoadedSymbolName_adds _).bind ?_
      refine (Adds.foldlM_map fun _ => putLoadedSymbolName_adds _).bind ?_
      refine (Adds.foldlM_map collectExtensionSymbol_adds).bind ?_
      refine (collectMessagesSymbols_adds _ messages).bind ?_
      exact Adds.foldlM fun _ _ => collectEnumSymbols_adds _

end

theorem collectServiceSymbols_adds (service : ServiceDescriptor) :
    Adds (fun seen => collectServiceSymbols memory scope seen service)
      (serviceSymbols scope service) :=
  (putLoadedSymbolName_adds _).bind (Adds.foldlM_map fun _ => putLoadedSymbolName_adds _)

theorem collectFileSymbols_adds (file : FileDescriptor) :
    Adds (fun seen => collectFileSymbols memory seen file) (fileSymbols file) := by
  refine (collectMessagesSymbols_adds file.package file.messages).bind ?_
  refine (Adds.foldlM fun _ _ => collectEnumSymbols_adds _).bind ?_
  refine (Adds.foldlM_map collectExtensionSymbol_adds).bind ?_
  exact Adds.foldlM fun _ _ => collectServiceSymbols_adds _

theorem nodup_of_validateNoSymbolConflicts {registry : Registry} {file : FileDescriptor}
    (h : validateNoSymbolConflicts memory registry file = .ok ()) :
    (registry.append file).loadedSymbols.Nodup := by
  have hadds : Adds (fun seen => registry.files.foldlM (collectFileSymbols memory) seen >>=
      fun seen => collectFileSymbols memory seen file)
      (registry.files.flatMap fileSymbols ++ fileSymbols file) :=
    (Adds.foldlM fun _ _ => collectFileSymbols_adds _).bind (collectFileSymbols_adds file)
  unfold validateNoSymbolConflicts at h
  cases hfiles : registry.files.foldlM (collectFileSymbols memory) [] with
  | error e => simp [hfiles, bind, Except.bind] at h
  | ok seen =>
      cases hfile : collectFileSymbols memory seen file with
      | error e => simp [hfiles, hfile, bind, Except.bind] at h
      | ok result =>
          have hrun : (registry.files.foldlM (collectFileSymbols memory) [] >>= fun seen =>
              collectFileSymbols memory seen file) = .ok result := by
            rw [hfiles]
            exact hfile
          simpa [loadedSymbols, append] using hadds.nodup hrun

end Symbols

/-! ## What an added file sees -/

section Imports

variable {registry : Registry} {file target source : FileDescriptor} {n : Nat}

@[simp] theorem append_files : (registry.append file).files = registry.files ++ [file] := rfl

theorem findFile_append (path : Bytes) : (registry.append file).findFile path
    = (registry.findFile path).or (if file.name == path then some file else none) := by
  simp only [findFile, append_files, List.find?_append]
  cases hname : file.name == path <;> simp [hname]

theorem findFile_append_of_some {path : Bytes} {found : FileDescriptor}
    (h : registry.findFile path = some found) :
    (registry.append file).findFile path = some found := by
  rw [findFile_append, h, Option.some_or]

theorem publicImportChainFrom_append (hn : n ≤ maxImportChainDepth)
    (h : (registry.publicImportChainFrom target n source).isSome = true) :
    ((registry.append file).publicImportChainFrom target n source).isSome = true := by
  induction n generalizing source with
  | zero => cases h
  | succ n ih =>
      rw [publicImportChainFrom_isSome_iff (by omega)] at h ⊢
      obtain ⟨entry, hmem, hskip, imported, hfound, hleads⟩ := h
      exact ⟨entry, hmem, hskip, imported, findFile_append_of_some hfound,
        hleads.imp_right (ih (by omega))⟩

/-- A chain of public imports that goes through the added file goes on by a public import of that
file, so the file itself sees its end without the chain. -/
theorem publicImportChainFrom_of_append (hself : sameFile file target = false)
    (hn : n < maxImportChainDepth)
    (h : ((registry.append file).publicImportChainFrom target n source).isSome = true) :
    (registry.publicImportChainFrom target n source).isSome = true ∨
      registry.Leads target isOptionImport (maxImportChainDepth - 1) file := by
  induction n generalizing source with
  | zero => cases h
  | succ n ih =>
      rw [publicImportChainFrom_isSome_iff (by omega)] at h
      obtain ⟨entry, hmem, hskip, imported, hfound, hleads⟩ := h
      cases hbefore : registry.findFile entry.path with
      | some found =>
          obtain rfl : found = imported := by
            simpa [findFile_append, hbefore] using hfound
          rcases hleads with hsame | hreach
          · refine .inl ((publicImportChainFrom_isSome_iff (by omega)).mpr ?_)
            exact ⟨entry, hmem, hskip, found, hbefore, .inl hsame⟩
          · rcases ih (by omega) hreach with hold | hfile
            · refine .inl ((publicImportChainFrom_isSome_iff (by omega)).mpr ?_)
              exact ⟨entry, hmem, hskip, found, hbefore, .inr hold⟩
            · exact .inr hfile
      | none =>
          -- the import leads to the added file
          obtain rfl : file = imported := by
            rw [findFile_append, hbefore, Option.none_or] at hfound
            split at hfound
            · simpa using hfound
            · cases hfound
          rcases hleads with hsame | hreach
          · rw [hself] at hsame
            cases hsame
          · rcases ih (by omega) hreach with hold | hfile
            · exact .inr (leads_of_publicImportChainFrom (by omega) hold)
            · exact .inr hfile

/-- To be loaded does not change what a file sees. -/
theorem fileCanSee_append (file target : FileDescriptor) :
    (registry.append file).fileCanSee file target = registry.fileCanSee file target := by
  rw [Bool.eq_iff_iff, fileCanSee_iff, fileCanSee_iff]
  cases hself : sameFile file target with
  | true => simp
  | false =>
      simp only [Bool.false_eq_true, false_or]
      constructor
      · rintro ⟨entry, hmem, hskip, imported, hfound, hleads⟩
        cases hbefore : registry.findFile entry.path with
        | some found =>
            obtain rfl : found = imported := by
              simpa [findFile_append, hbefore] using hfound
            rcases hleads with hsame | hreach
            · exact ⟨entry, hmem, hskip, found, hbefore, .inl hsame⟩
            · rcases publicImportChainFrom_of_append hself (by decide) hreach with hold | hfile
              · exact ⟨entry, hmem, hskip, found, hbefore, .inr hold⟩
              · exact hfile
        | none =>
            obtain rfl : file = imported := by
              rw [findFile_append, hbefore, Option.none_or] at hfound
              split at hfound
              · simpa using hfound
              · cases hfound
            rcases hleads with hsame | hreach
            · rw [hself] at hsame
              cases hsame
            · rcases publicImportChainFrom_of_append hself (by decide) hreach with hold | hfile
              · exact leads_of_publicImportChainFrom (by decide) hold
              · exact hfile
      · rintro ⟨entry, hmem, hskip, imported, hfound, hleads⟩
        exact ⟨entry, hmem, hskip, imported, findFile_append_of_some hfound,
          hleads.imp_right (publicImportChainFrom_append (by decide))⟩

end Imports

/-! ## What an added file refers to -/

/-- The types of a file come first, so what it says of itself is known before it is loaded. -/
theorem findAbsoluteVisible_append (registry : Registry) (file : FileDescriptor) (name : Bytes) :
    (findAbsoluteInFile file name).or ((registry.append file).findAbsoluteVisible file name)
      = (findAbsoluteInFile file name).or (registry.findAbsoluteVisible file name) := by
  cases hown : findAbsoluteInFile file name with
  | some found => rw [Option.some_or, Option.some_or]
  | none =>
      simp [findAbsoluteVisible, List.findSome?_append, fileCanSee_append, hown]

theorem findTypeVisible_append (registry : Registry) (file : FileDescriptor) (name : Bytes)
    (scope : Option Bytes) :
    (registry.append file).findTypeVisible file name scope
      = registry.findTypeVisible file name scope := by
  unfold findTypeVisible
  simp only [findAbsoluteVisible_append]

theorem extendeeOf_append {registry : Registry} {file : FileDescriptor} {ref : ExtensionRef}
    (h : ref ∈ collectFileExtensions file) :
    (registry.append file).extendeeOf ref = registry.extendeeOf ref := by
  obtain ⟨field, -, rfl⟩ := List.mem_map.mp h
  simp only [extendeeOf, resolveExtensionExtendee, findMessageVisible, findTypeVisible_append]

/-! ## One call -/

def loadedExtensions (registry : Registry) : List ExtensionRef :=
  registry.files.flatMap collectFileExtensions

theorem loadedExtensions_append (registry : Registry) (file : FileDescriptor) :
    (registry.append file).loadedExtensions
      = registry.loadedExtensions ++ collectFileExtensions file := by
  simp [loadedExtensions]

theorem namesMatch_comm (a b : Bytes) : namesMatch a b = namesMatch b a := by
  unfold namesMatch
  rw [Bool.beq_comm, Bool.or_assoc, Bool.or_assoc, Bool.or_comm (List.isSuffixOf _ _)]

theorem extensionsTargetSameMessage_comm (registry : Registry) (a b : ExtensionRef) :
    registry.extensionsTargetSameMessage a b = registry.extensionsTargetSameMessage b a := by
  unfold extensionsTargetSameMessage
  cases a.field.extendee with
  | none => cases b.field.extendee <;> rfl
  | some aExtendee =>
      cases b.field.extendee with
      | none => rfl
      | some bExtendee =>
          cases registry.extendeeOf a <;> cases registry.extendeeOf b
          · exact namesMatch_comm aExtendee bExtendee
          · rfl
          · rfl
          · exact Bool.beq_comm

/-- What the registry takes for extensions of one message have different numbers. -/
def TargetsApart (registry : Registry) (a b : ExtensionRef) : Prop :=
  registry.extensionsTargetSameMessage a b = true → a.field.number ≠ b.field.number

theorem TargetsApart.symm {registry : Registry} {a b : ExtensionRef}
    (h : registry.TargetsApart a b) : registry.TargetsApart b a := by
  intro hsame
  rw [extensionsTargetSameMessage_comm] at hsame
  exact (h hsame).symm

theorem targetsApart_of_not_conflict {registry : Registry} {a b : ExtensionRef}
    (h : registry.extensionsConflictResolved a b = false) : registry.TargetsApart a b := by
  intro hsame hnumber
  simp [extensionsConflictResolved, hsame, hnumber] at h

section Step

variable {memory : Memory} {registry : Registry} {file : FileDescriptor}

/-- The check compares the new extensions with each other and with the loaded ones. -/
theorem targetsApart_of_validateNoExtensionConflicts
    (h : validateNoExtensionConflicts memory registry file = .ok ()) :
    (collectFileExtensions file).Pairwise registry.TargetsApart ∧
      ∀ existing ∈ registry.loadedExtensions, ∀ ref ∈ collectFileExtensions file,
        registry.TargetsApart existing ref := by
  unfold validateNoExtensionConflicts at h
  simp only [bind_eq_ok, reject_eq_ok] at h
  obtain ⟨-, hown, hloaded⟩ := h
  constructor
  · refine pairwise_of_forTails hown fun ref others hothers other hother => ?_
    rw [forEach_eq_ok] at hothers
    exact targetsApart_of_not_conflict (reject_eq_ok.mp (hothers other hother))
  · intro existing hexisting ref href
    obtain ⟨existingFile, hfile, hmem⟩ := List.mem_flatMap.mp hexisting
    rw [forEach_eq_ok] at hloaded
    have hfiles := hloaded ref href
    rw [validateExtensionConflict, forEach_eq_ok] at hfiles
    have hchecks := hfiles existingFile hfile
    rw [forEach_eq_ok] at hchecks
    exact (targetsApart_of_not_conflict (reject_eq_ok.mp (hchecks existing hmem))).symm

/-- What a call of `addFile` does: an error leaves the registry as it was. -/
theorem addFile_cases (memory : Memory) (registry : Registry) (file : FileDescriptor) :
    (∃ e, addFile memory registry file = (.error e, registry)) ∨
      (validateNoSymbolConflicts memory registry file = .ok () ∧
        validateNoExtensionConflicts memory registry file = .ok () ∧
        (registry.append file).validateExtensionDeclarations = .ok () ∧
        addFile memory registry file = (.ok (), registry.append file)) := by
  have hdrop : (registry.append file).dropLast = registry := by simp [append, dropLast]
  unfold addFile
  cases hbefore : (do
      validateNoSymbolConflicts memory registry file
      validateNoExtensionConflicts memory registry file
      reject (!memory .files) .outOfMemory : Except Error Unit) with
  | error e => exact .inl ⟨e, rfl⟩
  | ok u =>
      cases u
      simp only [bind_eq_ok] at hbefore
      obtain ⟨hsymbols, hextensions, -⟩ := hbefore
      cases hafter : (registry.append file).validateExtensionDeclarations with
      | error e => exact .inl ⟨e, by simp [hdrop]⟩
      | ok u => exact .inr ⟨hsymbols, hextensions, rfl, rfl⟩

/-- With the file in place no loaded extension is taken to extend the message of another one,
loaded or of the file, if it was not without the file. -/
def KeepsTargets (registry : Registry) (file : FileDescriptor) : Prop :=
  ∀ a ∈ registry.loadedExtensions, ∀ b ∈ registry.loadedExtensions ++ collectFileExtensions file,
    (registry.append file).extensionsTargetSameMessage a b = true →
      registry.extensionsTargetSameMessage a b = true

theorem extensionsTargetSameMessage_append {a b : ExtensionRef}
    (ha : a ∈ collectFileExtensions file) (hb : b ∈ collectFileExtensions file) :
    (registry.append file).extensionsTargetSameMessage a b
      = registry.extensionsTargetSameMessage a b := by
  simp only [extensionsTargetSameMessage, extendeeOf_append ha, extendeeOf_append hb]

theorem targetsApart_append (hkeeps : KeepsTargets registry file)
    (hloaded : registry.loadedExtensions.Pairwise registry.TargetsApart)
    (h : validateNoExtensionConflicts memory registry file = .ok ()) :
    (registry.append file).loadedExtensions.Pairwise (registry.append file).TargetsApart := by
  obtain ⟨hown, hnew⟩ := targetsApart_of_validateNoExtensionConflicts h
  rw [loadedExtensions_append, List.pairwise_append]
  refine ⟨?_, ?_, ?_⟩
  · refine hloaded.imp_of_mem fun {a b} ha hb hab hsame => hab ?_
    exact hkeeps a ha b (List.mem_append_left _ hb) hsame
  · refine hown.imp_of_mem fun {a b} ha hb hab hsame => hab ?_
    rwa [extensionsTargetSameMessage_append ha hb] at hsame
  · intro a ha b hb hsame
    exact hnew a ha b hb (hkeeps a ha b (List.mem_append_right _ hb) hsame)

end Step

/-! ## Runs -/

/-- The extendees of two extensions are one message. -/
def ExtendSame (registry : Registry) (a b : ExtensionRef) : Prop :=
  ∃ address, (registry.extendeeOf a).map MessageDescriptor.address = some address ∧
    (registry.extendeeOf b).map MessageDescriptor.address = some address

/-- Loaded extensions of one message have different numbers. -/
def ExtensionsApart (registry : Registry) : Prop :=
  registry.loadedExtensions.Pairwise (fun a b =>
    registry.ExtendSame a b → a.field.number ≠ b.field.number)

/-- A call of `addFile` and the memory it finds. -/
structure Call where
  memory : Memory
  file : FileDescriptor

def afterCalls : Registry → List Call → Registry
  | registry, [] => registry
  | registry, call :: rest => afterCalls (addFile call.memory registry call.file).2 rest

/-- Every file of the calls keeps the targets of the extensions when it is loaded. -/
def CallsKeepTargets : Registry → List Call → Prop
  | _, [] => True
  | registry, call :: rest =>
      ((addFile call.memory registry call.file).1 = .ok () → KeepsTargets registry call.file) ∧
        CallsKeepTargets (addFile call.memory registry call.file).2 rest

instance (registry : Registry) (file : FileDescriptor) : Decidable (KeepsTargets registry file) :=
  inferInstanceAs (Decidable (∀ a ∈ _, ∀ b ∈ _, _ → _))

instance decidableCallsKeepTargets :
    (registry : Registry) → (calls : List Call) → Decidable (CallsKeepTargets registry calls)
  | _, [] => .isTrue trivial
  | registry, call :: rest =>
      have := decidableCallsKeepTargets (addFile call.memory registry call.file).2 rest
      inferInstanceAs (Decidable ((_ → _) ∧ _))

theorem ExtendSame.target {registry : Registry} {a b : ExtensionRef}
    (h : registry.ExtendSame a b) : registry.extensionsTargetSameMessage a b = true := by
  obtain ⟨address, ha, hb⟩ := h
  obtain ⟨aMessage, haMessage, rfl⟩ := Option.map_eq_some_iff.mp ha
  obtain ⟨bMessage, hbMessage, haddress⟩ := Option.map_eq_some_iff.mp hb
  have hextendee : ∀ {ref message}, registry.extendeeOf ref = some message →
      ∃ name, ref.field.extendee = some name := by
    intro ref message href
    cases hname : ref.field.extendee with
    | none => simp [extendeeOf, resolveExtensionExtendee, hname] at href
    | some name => exact ⟨name, rfl⟩
  obtain ⟨aName, haName⟩ := hextendee haMessage
  obtain ⟨bName, hbName⟩ := hextendee hbMessage
  simp [extensionsTargetSameMessage, haName, hbName, haMessage, hbMessage, haddress]

theorem loadedSymbols_afterCalls {registry : Registry} {calls : List Call}
    (h : registry.loadedSymbols.Nodup) : (afterCalls registry calls).loadedSymbols.Nodup := by
  induction calls generalizing registry with
  | nil => exact h
  | cons call rest ih =>
      rw [afterCalls]
      obtain ⟨e, hcall⟩ | ⟨hsymbols, -, -, hcall⟩ :=
        addFile_cases call.memory registry call.file
      · rw [hcall]
        exact ih h
      · rw [hcall]
        exact ih (nodup_of_validateNoSymbolConflicts hsymbols)

theorem targetsApart_afterCalls {registry : Registry} {calls : List Call}
    (h : registry.loadedExtensions.Pairwise registry.TargetsApart)
    (hkeeps : CallsKeepTargets registry calls) :
    (afterCalls registry calls).loadedExtensions.Pairwise
      (afterCalls registry calls).TargetsApart := by
  induction calls generalizing registry with
  | nil => exact h
  | cons call rest ih =>
      rw [afterCalls]
      obtain ⟨hfile, hrest⟩ := hkeeps
      obtain ⟨e, hcall⟩ | ⟨-, hextensions, -, hcall⟩ :=
        addFile_cases call.memory registry call.file
      · rw [hcall] at hrest ⊢
        exact ih h hrest
      · rw [hcall] at hfile hrest ⊢
        exact ih (targetsApart_append (hfile rfl) h hextensions) hrest

theorem ExtensionsApart.of_targetsApart {registry : Registry}
    (h : registry.loadedExtensions.Pairwise registry.TargetsApart) : registry.ExtensionsApart :=
  h.imp fun hab hsame => hab hsame.target

/-- Over any calls on a fresh registry: an error changes nothing, no symbol is declared twice, and
extensions of one message have different numbers as long as no file that is loaded makes a loaded
extension one of a message it was not compared for. -/
theorem afterCalls_safe (calls : List Call) :
    (∀ memory file e, (addFile memory (afterCalls {} calls) file).1 = .error e →
      (addFile memory (afterCalls {} calls) file).2.files = (afterCalls {} calls).files) ∧
    (afterCalls {} calls).loadedSymbols.Nodup ∧
    (CallsKeepTargets {} calls → (afterCalls {} calls).ExtensionsApart) := by
  refine ⟨?_, loadedSymbols_afterCalls List.nodup_nil, fun hkeeps => ?_⟩
  · intro memory file e herror
    obtain ⟨e', hcall⟩ | ⟨-, -, -, hcall⟩ := addFile_cases memory (afterCalls {} calls) file
    · rw [hcall]
    · rw [hcall] at herror
      cases herror
  · exact .of_targetsApart (targetsApart_afterCalls List.Pairwise.nil hkeeps)

/-! ## A file that changes what a loaded extension extends

`a.proto` extends `Foo` and imports `foo.proto`, which declares it, and `b.proto`, which is not
loaded yet. Then `b.proto` declares `a.Foo`, the nearer one, and extends it too.
-/

section Shadowing

def fooRange : ExtensionRange := { start := 100, «end» := some 200 }

def fooFile : FileDescriptor :=
  { name := ascii "foo.proto", address := 1,
    messages := [{ name := ascii "Foo", extensionRanges := [fooRange], address := 2 }] }

/-- `extend Foo { optional int32 NAME = NUMBER; }`. -/
def fooExtension (fullName : String) (number address : Nat) : FieldDescriptor :=
  { name := afterLastDot (ascii fullName), fullName := some (ascii fullName), number := number,
    cardinality := .optional, kind := .scalar .int32, extendee := some (ascii "Foo"),
    address := address }

def extendingFile : FileDescriptor :=
  { name := ascii "a.proto", package := ascii "a", address := 3,
    imports := [{ path := ascii "foo.proto" }, { path := ascii "b.proto" }],
    extensions := [fooExtension "a.x" 100 4] }

def shadowingFile : FileDescriptor :=
  { name := ascii "b.proto", package := ascii "a", address := 5,
    messages := [{ name := ascii "Foo", extensionRanges := [fooRange], address := 6 }],
    extensions := [fooExtension "a.y" 100 7] }

/-- Calls that find all the memory they need. -/
def callsWith (files : List FileDescriptor) : List Call :=
  files.map (fun file => { memory := fun _ => true, file := file })

/-- All three files are loaded, and then both extensions extend `a.Foo` with the number 100. -/
theorem exists_not_extensionsApart : ∃ calls : List Call,
    (afterCalls {} calls).files.length = calls.length ∧
      ¬ (afterCalls {} calls).ExtensionsApart := by
  refine ⟨callsWith [fooFile, extendingFile, shadowingFile], by decide, fun h => ?_⟩
  have hpair := List.pairwise_iff_getElem.mp h 0 1 (by decide) (by decide)
    (by decide)
  exact hpair ⟨6, by decide, by decide⟩ (by decide)

/-- `c.proto` extends the same `Foo` as `a.proto` and declares no other one. -/
def furtherFile : FileDescriptor :=
  { name := ascii "c.proto", package := ascii "c", address := 8,
    imports := [{ path := ascii "foo.proto" }],
    extensions := [fooExtension "c.z" 101 9] }

theorem afterCalls_safe_further :
    (afterCalls {} (callsWith [fooFile, extendingFile, furtherFile])).files.length = 3 ∧
      (afterCalls {} (callsWith [fooFile, extendingFile, furtherFile])).ExtensionsApart :=
  ⟨by decide, (afterCalls_safe _).2.2 (by decide)⟩

end Shadowing

end Registry

end Pbz
