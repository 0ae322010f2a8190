import Pbz.Dynamic.TypeReference

set_option autoImplicit false

/-! # References of the generator

How `codegen.zig` finds the message that the type name of a field stands for: through the registry
if there is one, and else, or where no chain of imports leads to the file of the message, among the
messages of the generated file.
-/

namespace Pbz

/-- The file is the copy that `generateZigFileWithContext` makes of the one it is given. -/
structure CodegenContext where
  file : FileDescriptor
  registry : Option Registry := none

structure MessageReference where
  message : MessageDescriptor
  file : FileDescriptor
  importChain : Option (List Bytes) := none

/-- Every step of the search shortens the path. -/
def findMessageByPath : Nat → List MessageDescriptor → Bytes → Option MessageDescriptor
  | 0, _, _ => none
  | fuel + 1, messages, path =>
      if path.isEmpty then none
      else
        let (head, tail) := splitFirst path
        match messages.find? (fun message => message.name == head) with
        | none => none
        | some message =>
            if tail.isEmpty then some message else findMessageByPath fuel message.messages tail

def findMessageByQualifiedName (file : FileDescriptor) (name : Bytes) : Option MessageDescriptor :=
  let normalized := normalizeName name
  if !file.package.isEmpty && normalized == file.package then none
  else
    let path :=
      if file.package.isEmpty then normalized
      else (FileDescriptor.stripDotted file.package normalized).getD normalized
    findMessageByPath (path.length + 1) file.messages path

def resolveSameFileMessageReference (file : FileDescriptor) (typeName : Bytes) :
    Option MessageDescriptor :=
  (findMessageByQualifiedName file typeName).or (file.findMessageDeep typeName)

namespace CodegenContext

/-- The branch of `resolveMessageReference` with a registry. -/
def visibleMessageReference (ctx : CodegenContext) (registry : Registry) (typeName : Bytes) :
    Option MessageReference :=
  match registry.findMessageVisible ctx.file typeName (some ctx.file.package) with
  | none => none
  | some message =>
      match registry.fileContainingMessage message with
      | none => none
      | some owner =>
          if sameFile owner ctx.file then some { message := message, file := owner }
          else match registry.importChain ctx.file owner with
            | none => none
            | some [] => some { message := message, file := owner }
            | some chain => some { message := message, file := owner, importChain := some chain }

def resolveMessageReference (ctx : CodegenContext) (typeName : Bytes) : Option MessageReference :=
  (ctx.registry.bind (fun registry => ctx.visibleMessageReference registry typeName)).or
    ((resolveSameFileMessageReference ctx.file typeName).map
      (fun message => { message := message, file := ctx.file }))

def codegenCanReferenceMessage (ctx : CodegenContext) (typeName : Bytes) : Bool :=
  (ctx.resolveMessageReference typeName).isSome

end CodegenContext

/-! ## What is found is declared -/

section

variable {file : FileDescriptor} {message : MessageDescriptor} {name : Bytes}

theorem findInScope_declared {fuel : Nat} {messages : List MessageDescriptor}
    {enums : List EnumDescriptor}
    (h : findInScope fuel name messages enums = some (.message message)) (scope : List Bytes) :
    ∃ path, (path, message) ∈ declaredMessages scope messages := by
  induction fuel generalizing name messages enums scope with
  | zero => cases h
  | succ fuel ih =>
      simp only [findInScope] at h
      cases hfind : messages.find? (fun message => message.name == (splitFirst name).1) with
      | none =>
          simp only [hfind] at h
          split at h
          · obtain ⟨enumeration, -, hfound⟩ := Option.map_eq_some_iff.mp h
            cases hfound
          · cases h
      | some outer =>
          have hmem : outer ∈ messages := List.mem_of_find?_eq_some hfind
          simp only [hfind] at h
          split at h
          · obtain rfl : outer = message := by simpa using h
            exact ⟨_, mem_declaredMessages_of_mem hmem⟩
          · obtain ⟨path, hpath⟩ := ih h (scope ++ [outer.name])
            exact ⟨path, mem_declaredMessages_of_nested hmem hpath⟩

theorem findAbsoluteInFile_declared
    (h : findAbsoluteInFile file name = some (.message message)) :
    ∃ path, (path, message) ∈ file.declaredMessages := by
  have hinFile : ∀ relativeName, findInFile file relativeName = some (.message message) →
      ∃ path, (path, message) ∈ file.declaredMessages := by
    intro relativeName hfound
    rw [findInFile] at hfound
    split at hfound
    · cases hfound
    · exact findInScope_declared hfound file.packagePath
  simp only [findAbsoluteInFile] at h
  split at h
  · exact hinFile _ h
  · split at h
    · exact hinFile _ h
    · cases h

theorem findMessageByPath_declared {fuel : Nat} {messages : List MessageDescriptor}
    (h : findMessageByPath fuel messages name = some message) (scope : List Bytes) :
    ∃ path, (path, message) ∈ declaredMessages scope messages := by
  induction fuel generalizing name messages scope with
  | zero => cases h
  | succ fuel ih =>
      rw [findMessageByPath] at h
      split at h
      · cases h
      · cases hfind : messages.find? (fun message => message.name == (splitFirst name).1) with
        | none => simp [hfind] at h
        | some outer =>
            have hmem : outer ∈ messages := List.mem_of_find?_eq_some hfind
            simp only [hfind] at h
            split at h
            · obtain rfl : outer = message := by simpa using h
              exact ⟨_, mem_declaredMessages_of_mem hmem⟩
            · obtain ⟨path, hpath⟩ := ih h (scope ++ [outer.name])
              exact ⟨path, mem_declaredMessages_of_nested hmem hpath⟩

theorem resolveSameFileMessageReference_declared
    (h : resolveSameFileMessageReference file name = some message) :
    ∃ path, (path, message) ∈ file.declaredMessages := by
  rcases Option.or_eq_some_iff.mp h with hpath | ⟨-, hdeep⟩
  · simp only [findMessageByQualifiedName] at hpath
    split at hpath
    · cases hpath
    · exact findMessageByPath_declared hpath file.packagePath
  · rw [FileDescriptor.findMessageDeep, findMessageDeepIn_eq _ file.packagePath] at hdeep
    obtain ⟨⟨path, found⟩, hmem, rfl⟩ := List.mem_map.mp (List.mem_of_find?_eq_some hdeep)
    exact ⟨path, hmem⟩

mutual

theorem messageListContainsMessage_iff {target : Nat} (scope : List Bytes) :
    ∀ messages : List MessageDescriptor, messageListContainsMessage target messages = true ↔
      ∃ path message, (path, message) ∈ declaredMessages scope messages
        ∧ message.address = target
  | [] => by simp [messageListContainsMessage, declaredMessages]
  | first :: rest => by
      rw [messageListContainsMessage, declaredMessages, Bool.or_eq_true, Bool.or_eq_true,
        messageContainsMessage_iff (scope ++ [first.name]) first,
        messageListContainsMessage_iff scope rest]
      simp only [beq_iff_eq, List.mem_cons, List.mem_append]
      constructor
      · rintro ((hfirst | ⟨path, message, hmem, haddress⟩) | ⟨path, message, hmem, haddress⟩)
        · exact ⟨_, first, .inl rfl, hfirst⟩
        · exact ⟨path, message, .inr (.inl hmem), haddress⟩
        · exact ⟨path, message, .inr (.inr hmem), haddress⟩
      · rintro ⟨path, message, hfirst | hmem | hmem, haddress⟩
        · cases hfirst
          exact .inl (.inl haddress)
        · exact .inl (.inr ⟨path, message, hmem, haddress⟩)
        · exact .inr ⟨path, message, hmem, haddress⟩

theorem messageContainsMessage_iff {target : Nat} (scope : List Bytes) :
    ∀ outer : MessageDescriptor, messageContainsMessage target outer = true ↔
      ∃ path message, (path, message) ∈ outer.nestedMessages scope ∧ message.address = target
  | { messages := messages, .. } => by
      rw [messageContainsMessage, MessageDescriptor.nestedMessages]
      exact messageListContainsMessage_iff scope messages

end

theorem fileContainingMessage_declared {registry : Registry} {owner : FileDescriptor}
    (h : registry.fileContainingMessage message = some owner) :
    owner ∈ registry.files ∧
      ∃ path found, (path, found) ∈ owner.declaredMessages ∧ found.address = message.address := by
  unfold Registry.fileContainingMessage at h
  have hcontains := List.find?_some h
  exact ⟨List.mem_of_find?_eq_some h,
    (messageListContainsMessage_iff owner.packagePath _).mp hcontains⟩

/-- A message of a registered file has an owner: a file with a message of its address. -/
theorem exists_fileContainingMessage {registry : Registry} {file : FileDescriptor}
    {path : List Bytes} (hfile : file ∈ registry.files)
    (hmessage : (path, message) ∈ file.declaredMessages) :
    ∃ owner, registry.fileContainingMessage message = some owner ∧ owner ∈ registry.files ∧
      ∃ place found, (place, found) ∈ owner.declaredMessages ∧ found.address = message.address := by
  have hholds : messageListContainsMessage message.address file.messages = true :=
    (messageListContainsMessage_iff file.packagePath _).mpr ⟨path, message, hmessage, rfl⟩
  have hsome : (registry.fileContainingMessage message).isSome = true :=
    List.find?_isSome.mpr ⟨file, hfile, hholds⟩
  obtain ⟨owner, howner⟩ := Option.isSome_iff_exists.mp hsome
  exact ⟨owner, howner, fileContainingMessage_declared howner⟩

/-- A visible type is one of the file itself, or one of another file whose name the file itself has
no type of. -/
theorem findMessageVisible_declared {registry : Registry} {scope : Option Bytes}
    (h : registry.findMessageVisible file name scope = some message) :
    (∃ path, (path, message) ∈ file.declaredMessages) ∨
      ∃ fullName, findAbsoluteInFile file fullName = none ∧
        ∃ other ∈ registry.files, findAbsoluteInFile other fullName = some (.message message) := by
  have hcandidate : ∀ fullName, ((findAbsoluteInFile file fullName).or
      (registry.findAbsoluteVisible file fullName)) = some (.message message) →
      (∃ path, (path, message) ∈ file.declaredMessages) ∨
        ∃ fullName, findAbsoluteInFile file fullName = none ∧
          ∃ other ∈ registry.files, findAbsoluteInFile other fullName = some (.message message) := by
    intro fullName hfound
    rcases Option.or_eq_some_iff.mp hfound with hown | ⟨hnone, hvisible⟩
    · exact .inl (findAbsoluteInFile_declared hown)
    · obtain ⟨other, hmem, hother⟩ := List.exists_of_findSome?_eq_some hvisible
      split at hother
      · exact .inr ⟨fullName, hnone, other, hmem, hother⟩
      · cases hother
  obtain ⟨type, htype, hmessage⟩ := Option.bind_eq_some_iff.mp h
  obtain rfl : type = .message message := by
    cases type with
    | message found => simpa [Registry.asMessage] using hmessage
    | enumeration found => cases hmessage
  unfold Registry.findTypeVisible at htype
  split at htype
  · exact hcandidate _ htype
  · obtain ⟨fullName, -, hfound⟩ := List.exists_of_findSome?_eq_some htype
    exact hcandidate fullName hfound

end

namespace CodegenContext

variable {ctx : CodegenContext} {typeName : Bytes} {reference : MessageReference}

/-- A reference is to a message of the generated file, or to the visible message that the registry
finds, in its file. -/
theorem resolveMessageReference_cases
    (h : ctx.resolveMessageReference typeName = some reference) :
    (reference.file = ctx.file ∧ ∃ path, (path, reference.message) ∈ ctx.file.declaredMessages) ∨
      ∃ registry, ctx.registry = some registry ∧
        registry.findMessageVisible ctx.file typeName (some ctx.file.package)
          = some reference.message ∧
        registry.fileContainingMessage reference.message = some reference.file ∧
        (sameFile reference.file ctx.file = true ∨
          (registry.importChain ctx.file reference.file).isSome = true) := by
  rcases Option.or_eq_some_iff.mp h with hvisible | ⟨-, hsame⟩
  · obtain ⟨registry, hregistry, hfound⟩ := Option.bind_eq_some_iff.mp hvisible
    refine .inr ⟨registry, hregistry, ?_⟩
    unfold visibleMessageReference at hfound
    cases hmessage : registry.findMessageVisible ctx.file typeName (some ctx.file.package) with
    | none => simp [hmessage] at hfound
    | some message =>
        cases howner : registry.fileContainingMessage message with
        | none => simp [hmessage, howner] at hfound
        | some owner =>
            simp only [hmessage, howner] at hfound
            split at hfound
            · next hsame =>
              cases hfound
              exact ⟨rfl, howner, .inl hsame⟩
            · split at hfound
              · cases hfound
              · next hchain =>
                cases hfound
                exact ⟨rfl, howner, .inr (by rw [hchain]; rfl)⟩
              · next hchain =>
                cases hfound
                exact ⟨rfl, howner, .inr (by rw [hchain]; rfl)⟩
  · obtain ⟨message, hmessage, rfl⟩ := Option.map_eq_some_iff.mp hsame
    exact .inl ⟨rfl, resolveSameFileMessageReference_declared hmessage⟩

end CodegenContext

end Pbz
