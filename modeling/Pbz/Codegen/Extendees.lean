import Pbz.Codegen.RequiredChecks
import Pbz.TypeLookup

set_option autoImplicit false

/-! # Extended messages

Which messages of its file the generator takes an extension to extend. `generateZigFileWithContext`
first replaces the name of an extended message of another file by the full name; then
`extensionAppliesToMessage` searches the file for the name under the scopes around the extension,
and where it finds nothing compares the last part of the name with that of the message.

The search takes a full name without the package in front for one below the package, leaves out the
names that do not fit its buffer and a single part as it stands, and sees no type of another file
and no enum. `extensionApplies_iff` says when the outcome is the designated message all the same.
-/

namespace Pbz

open Dotted

/-! ## The full name of an extended message -/

def joinFullProtoName (package relative : Bytes) : Bytes :=
  if package.isEmpty then 0x2e :: relative else 0x2e :: package ++ 0x2e :: relative

mutual

/-- `nestedMessageFullNameForCodegen` over the nested messages of a message. -/
def nestedMessagesFullName (package path : Bytes) (target : Nat) :
    List MessageDescriptor → Option Bytes
  | [] => none
  | nested :: rest =>
      let nestedPath := path ++ 0x2e :: nested.name
      if nested.address == target then some (joinFullProtoName package nestedPath)
      else match nestedMessageFullName package nestedPath target nested with
        | some fullName => some fullName
        | none => nestedMessagesFullName package path target rest

def nestedMessageFullName (package path : Bytes) (target : Nat) :
    MessageDescriptor → Option Bytes
  | { messages, .. } => nestedMessagesFullName package path target messages

end

/-- `messageFullNameForCodegen` over the top-level messages of a file. -/
def messagesFullName (package : Bytes) (target : Nat) : List MessageDescriptor → Option Bytes
  | [] => none
  | message :: rest =>
      if message.address == target then some (joinFullProtoName package message.name)
      else match nestedMessageFullName package message.name target message with
        | some fullName => some fullName
        | none => messagesFullName package target rest

def messageFullName (file : FileDescriptor) (target : MessageDescriptor) : Option Bytes :=
  messagesFullName file.package target.address file.messages

/-- `resolveFieldExtendeeForCodegen`. The file is the copy of the generator without the aliases of
imported enums, which no extension extends. -/
def CodegenContext.resolveFieldExtendee (ctx : CodegenContext) (field : FieldDescriptor) :
    FieldDescriptor :=
  match ctx.registry, field.extendee with
  | some registry, some extendee =>
      match registry.findMessageVisible ctx.file extendee (extensionScope ctx.file field) with
      | none => field
      | some message =>
          match registry.fileContainingMessage message with
          | none => field
          | some owner =>
              match messageFullName owner message with
              | none => field
              | some fullName => { field with extendee := some fullName }
  | _, _ => field

section

variable {file : FileDescriptor}

theorem joinFullProtoName_joined {path : List Bytes} (hne : path ≠ []) :
    joinFullProtoName file.package (joined 0x2e path)
      = 0x2e :: joined 0x2e (file.packagePath ++ path) := by
  rw [joinFullProtoName]
  by_cases hempty : file.package.isEmpty = true
  · rw [if_pos hempty, FileDescriptor.packagePath, if_pos hempty, List.nil_append]
  · obtain ⟨hp, htext⟩ := packagePath_eq (by simpa using hempty)
    rw [if_neg hempty, joined_append hp hne, htext, List.cons_append]

mutual

theorem nestedMessagesFullName_eq (target : Nat) (path : List Bytes) (hne : path ≠ []) :
    ∀ messages, nestedMessagesFullName file.package (joined 0x2e path) target messages
      = ((declaredMessages (file.packagePath ++ path) messages).find?
          (fun pair => pair.2.address == target)).map (fun pair => 0x2e :: joined 0x2e pair.1)
  | [] => rfl
  | nested :: rest => by
      have htext : joined 0x2e path ++ 0x2e :: nested.name
          = joined 0x2e (path ++ [nested.name]) := by
        rw [joined_append hne (by simp), joined_singleton]
      rw [nestedMessagesFullName, declaredMessages, htext, List.find?_cons]
      cases ha : nested.address == target with
      | true =>
          simp only [if_true, Option.map_some]
          rw [joinFullProtoName_joined (by simp), List.append_assoc]
      | false =>
          have hin := nestedMessageFullName_eq target (path ++ [nested.name]) (by simp) nested
          have hrest := nestedMessagesFullName_eq target path hne rest
          simp only [Bool.false_eq_true, if_false]
          rw [hin, hrest, List.find?_append, List.append_assoc]
          cases (nested.nestedMessages (file.packagePath ++ (path ++ [nested.name]))).find?
            (fun pair => pair.2.address == target) <;> rfl

theorem nestedMessageFullName_eq (target : Nat) (path : List Bytes) (hne : path ≠ []) :
    ∀ message, nestedMessageFullName file.package (joined 0x2e path) target message
      = ((message.nestedMessages (file.packagePath ++ path)).find?
          (fun pair => pair.2.address == target)).map (fun pair => 0x2e :: joined 0x2e pair.1)
  | { messages := messages, .. } => by
      rw [nestedMessageFullName, MessageDescriptor.nestedMessages]
      exact nestedMessagesFullName_eq target path hne messages

end

theorem messagesFullName_eq (target : Nat) :
    ∀ messages, messagesFullName file.package target messages
      = ((declaredMessages file.packagePath messages).find?
          (fun pair => pair.2.address == target)).map (fun pair => 0x2e :: joined 0x2e pair.1)
  | [] => rfl
  | message :: rest => by
      have htext : message.name = joined 0x2e [message.name] := (joined_singleton _).symm
      rw [messagesFullName, declaredMessages, List.find?_cons]
      cases ha : message.address == target with
      | true =>
          simp only [if_true, Option.map_some]
          rw [htext, joinFullProtoName_joined (by simp)]
          simp
      | false =>
          have hin := @nestedMessageFullName_eq file target [message.name] (by simp) message
          rw [joined_singleton] at hin
          simp only [Bool.false_eq_true, if_false]
          rw [hin, messagesFullName_eq target rest, List.find?_append]
          cases (message.nestedMessages (file.packagePath ++ [message.name])).find?
            (fun pair => pair.2.address == target) <;> rfl

end

/-! ## The search for the extended message -/

/-- The message with a path below some messages. -/
def messageAt : List MessageDescriptor → List Bytes → Option MessageDescriptor
  | _, [] => none
  | messages, head :: rest =>
      match messages.find? (fun message => message.name == head) with
      | none => none
      | some message => if rest.isEmpty then some message else messageAt message.messages rest

/-- The message that the generator takes a full name for: the one below the package, and the one
with the name as its path where the package is not in front. -/
def FileDescriptor.messageTaken (file : FileDescriptor) (path : List Bytes) :
    Option MessageDescriptor :=
  messageAt file.messages
    (if file.packagePath.isPrefixOf path then path.drop file.packagePath.length else path)

/-- A full name that the generator tries: not a single part as it stands, and not one that does not
fit the buffer. -/
def isSearched (name : Bytes) (path : List Bytes) : Bool :=
  (isAbsolute name || path != components name || decide (1 < path.length)) && isTried name path

section

variable {file : FileDescriptor}

theorem typeAt_of_messageAt {messages : List MessageDescriptor} {path : List Bytes}
    {message : MessageDescriptor} (h : messageAt messages path = some message)
    (enums : List EnumDescriptor) : typeAt messages enums path = some (.message message) := by
  induction path generalizing messages enums with
  | nil => cases h
  | cons head rest ih =>
      cases hfind : messages.find? (fun message => message.name == head) with
      | none => simp [messageAt, hfind] at h
      | some outer =>
          cases rest with
          | nil =>
              obtain rfl : outer = message := by simpa [messageAt, hfind] using h
              simp [typeAt, hfind]
          | cons next rest =>
              simp only [typeAt, hfind]
              exact ih (by simpa [messageAt, hfind] using h) outer.enums

theorem messageTaken_declared {path : List Bytes} {message : MessageDescriptor}
    (h : file.messageTaken path = some message) :
    ∃ place, (place, message) ∈ file.declaredMessages :=
  ⟨_, typeAt_declared (typeAt_of_messageAt h []) file.packagePath⟩

theorem findMessageByPath_joined {path : List Bytes} (hp : IsPath 0x2e path) {fuel : Nat}
    (hf : path.length < fuel) (messages : List MessageDescriptor) :
    findMessageByPath fuel messages (joined 0x2e path) = messageAt messages path := by
  induction path generalizing fuel messages with
  | nil =>
      cases fuel with
      | zero => omega
      | succ fuel => rfl
  | cons head rest ih =>
      cases fuel with
      | zero => omega
      | succ fuel =>
          have hne : (joined 0x2e (head :: rest)).isEmpty = false := by
            simpa using joined_ne_nil hp (by simp)
          have hlen : rest.length < fuel := by
            rw [List.length_cons] at hf
            omega
          have htail : (joined 0x2e rest).isEmpty = rest.isEmpty := by
            cases rest with
            | nil => rfl
            | cons next rest => simpa using joined_ne_nil hp.tail (by simp)
          cases hfind : messages.find? (fun message => message.name == head) with
          | none => simp [findMessageByPath, splitFirst_joined hp, messageAt, hne, hfind]
          | some message =>
              simp [findMessageByPath, splitFirst_joined hp, messageAt, hne, hfind, htail,
                ih hp.tail hlen]

theorem findMessageByQualifiedName_joined (hf : file.WellNamed) {path : List Bytes}
    (hp : IsPath 0x2e path) {name : Bytes} (hname : normalizeName name = joined 0x2e path) :
    findMessageByQualifiedName file name = file.messageTaken path := by
  have hfound : ∀ below, IsPath 0x2e below →
      findMessageByPath ((joined 0x2e below).length + 1) file.messages (joined 0x2e below)
        = messageAt file.messages below := by
    intro below hbelow
    have hlen := length_le_joined hbelow
    exact findMessageByPath_joined hbelow (by omega) file.messages
  rw [findMessageByQualifiedName, FileDescriptor.messageTaken, hname]
  by_cases hempty : file.package.isEmpty = true
  · have hpackage : file.packagePath = [] := by rw [FileDescriptor.packagePath, if_pos hempty]
    simp only [hempty, Bool.not_true, Bool.false_and, Bool.false_eq_true, if_false, if_true]
    rw [hfound path hp, hpackage]
    rfl
  · obtain ⟨hne, htext⟩ := packagePath_eq (by simpa using hempty)
    have hstrip := stripDotted_joined hf.package hne hp
    rw [htext] at hstrip
    have heq : (joined 0x2e path == file.package) = (path == file.packagePath) := by
      rw [Bool.eq_iff_iff, beq_iff_eq, beq_iff_eq, ← htext]
      exact ⟨joined_injective hp hf.package, fun h => by rw [h]⟩
    simp only [Bool.not_eq_true] at hempty
    simp only [hempty, Bool.not_false, Bool.true_and, heq, Bool.false_eq_true, if_false, hstrip,
      beq_iff_eq]
    by_cases hpath : path = file.packagePath
    · subst hpath
      have hself : file.packagePath.isPrefixOf file.packagePath = true :=
        List.isPrefixOf_iff_prefix.mpr (List.prefix_refl _)
      rw [if_pos rfl, if_pos hself, List.drop_length]
      rfl
    · rw [if_neg hpath]
      by_cases hpre : file.packagePath.isPrefixOf path = true
      · rw [if_pos ⟨hpre, hpath⟩, if_pos hpre, Option.getD_some]
        exact hfound _ (hp.sublist (List.drop_sublist _ _))
      · rw [if_neg (fun hc => hpre hc.1), if_neg hpre, Option.getD_none]
        exact hfound path hp

end

/-! ## Where an extension is declared -/

/-- The extension is declared at a place of the file. Its full name is the one that the readers of
files give it: none beside the messages, and the path of the message around it with its own name
behind; the package is missing in this path where its statement comes after the message. -/
inductive FileDescriptor.DeclaresExtension (file : FileDescriptor) (field : FieldDescriptor) :
    List Bytes → List Bytes → Prop
  | beside (hmem : field ∈ file.extensions) (hname : field.fullName = none) :
      DeclaresExtension file field file.packagePath file.packagePath
  | inside {place scope : List Bytes} {message : MessageDescriptor}
      (hmessage : (place, message) ∈ file.declaredMessages) (hmem : field ∈ message.extensions)
      (hscope : scope = place ∨ file.packagePath ++ scope = place) (hne : scope ≠ [])
      (hpart : IsPart 0x2e field.name)
      (hname : field.fullName = some (joined 0x2e (scope ++ [field.name]))) :
      DeclaresExtension file field place scope

section

variable {file : FileDescriptor} {field : FieldDescriptor} {place scope : List Bytes}

theorem FileDescriptor.DeclaresExtension.isPath (hf : file.WellNamed)
    (h : file.DeclaresExtension field place scope) : IsPath 0x2e scope := by
  cases h with
  | beside => exact hf.package
  | inside hmessage _ hscope _ _ _ =>
      have hplace := (isPath_scope hf hmessage).1
      rcases hscope with rfl | rfl
      · exact hplace
      · exact hplace.sublist (List.sublist_append_right _ _)

/-- A scope is empty only where the package is. -/
theorem FileDescriptor.DeclaresExtension.effectiveScope_eq
    (h : file.DeclaresExtension field place scope) : effectiveScope file scope = scope := by
  cases h with
  | beside => rw [effectiveScope, ite_self]
  | inside _ _ _ hne _ _ => rw [effectiveScope, if_neg hne]

theorem packageScope_eq (file : FileDescriptor) :
    packageScope file = scopeText file.packagePath := by
  rw [packageScope, scopeText]
  by_cases hempty : file.package.isEmpty = true
  · rw [if_pos hempty, FileDescriptor.packagePath, if_pos hempty, if_pos rfl]
  · obtain ⟨hne, htext⟩ := packagePath_eq (by simpa using hempty)
    rw [if_neg hempty, if_neg hne, htext]

/-- The scope in which the name of the extended message is looked up. -/
theorem extensionScope_eq (hf : file.WellNamed) (h : file.DeclaresExtension field place scope) :
    extensionScope file field = scopeText scope := by
  have hpath := h.isPath hf
  cases h with
  | beside _ hname => rw [extensionScope, hname, packageScope_eq]
  | inside _ _ _ hne hpart hname =>
      have hfull : IsPath 0x2e (scope ++ [field.name]) :=
        hpath.append (fun part hp => by rw [List.mem_singleton.mp hp]; exact hpart)
      rw [extensionScope, hname, scopeText, if_neg hne]
      simp only [normalizeName_joined hfull, beforeLastDot_joined hpart, if_neg hne]

theorem contains_dot_iff {name : Bytes} (ha : isAbsolute name = false) :
    name.contains 0x2e = decide (1 < (components name).length) := by
  have hname : joined 0x2e (components name) = name := by
    rw [joined_components, normalizeName_of_not_absolute ha]
  rw [Bool.eq_iff_iff, List.contains_iff_mem, decide_eq_true_iff]
  constructor
  · intro hmem
    by_contra hlen
    obtain ⟨part, hpart⟩ : ∃ part, components name = [part] := by
      have hpos := List.length_pos_iff.mpr (components_ne_nil name)
      exact List.length_eq_one_iff.mp (by omega)
    rw [hpart, joined_singleton] at hname
    subst hname
    exact notMem_of_mem_splitOn part (by rw [← components, hpart]; exact List.mem_singleton_self _) hmem
  · intro hlen
    obtain ⟨first, rest, hsplit⟩ := List.exists_cons_of_ne_nil (components_ne_nil name)
    have hrest : rest ≠ [] := by
      rintro rfl
      rw [hsplit] at hlen
      simp at hlen
    rw [← hname, hsplit, joined_cons hrest]
    simp

/-- The name as it is written is the last of the names in a scope. -/
theorem namesInScope_relative (scope : List Bytes) {name : Bytes} (ha : isAbsolute name = false) :
    ∃ front, namesInScope scope name = front ++ [components name]
      ∧ ∀ path ∈ front, path ≠ components name := by
  obtain ⟨outers, hinits, houters⟩ : ∃ outers, scope.inits = [] :: outers
      ∧ ∀ outer ∈ outers, outer ≠ [] := by
    cases scope with
    | nil => exact ⟨[], rfl, by simp⟩
    | cons part scope =>
        refine ⟨_, List.inits_cons part scope, fun outer ho => ?_⟩
        obtain ⟨inner, _, rfl⟩ := List.mem_map.mp ho
        exact List.cons_ne_nil part inner
  refine ⟨outers.reverse.map (fun outer => outer ++ components name), ?_, ?_⟩
  · rw [namesInScope, if_neg (by simpa using ha), hinits, List.reverse_cons, List.map_append]
    rfl
  · intro path hpath heq
    obtain ⟨outer, houter, rfl⟩ := List.mem_map.mp hpath
    exact houters outer (List.mem_reverse.mp houter) (List.append_left_eq_self.mp heq)

theorem normalizeName_bne_of_absolute {name : Bytes} (hn : IsTypeName name)
    (ha : isAbsolute name = true) : (normalizeName name != name) = true := by
  rw [bne_iff_ne]
  intro heq
  have hhead := head_joined_ne hn.isPath
  rw [joined_components, heq] at hhead
  cases name with
  | nil => exact absurd ha (by simp [isAbsolute])
  | cons b rest =>
      have hb : b = 0x2e := by simpa [isAbsolute] using ha
      exact hhead rest (by rw [hb])

section

variable {name : Bytes} {front : List (List Bytes)}

/-- Under the scopes the generator looks for the names that the registry tries. -/
theorem candidates_front (hs : IsPath 0x2e scope) (hne : scope ≠ [])
    (ha : isAbsolute name = false) (hnames : namesInScope scope name = front ++ [components name]) :
    ((enclosingScopes ((joined 0x2e scope).length + 1) (joined 0x2e scope)).filter
        (fun current => current.length + 1 + name.length ≤ scopeBufferSize)).map
          (fun current => current ++ 0x2e :: name)
      = (front.filter (isTried name)).map (joined 0x2e) := by
  have hcandidates := candidates_eq hs hne ha
  have hself : ([components name].filter (isTried name)).map (joined 0x2e) = [name] := by
    rw [List.filter_cons_of_pos (by simp [isTried]), List.filter_nil, List.map_singleton,
      joined_components, normalizeName_of_not_absolute ha]
  rw [hnames, List.filter_append, List.map_append, hself, candidates] at hcandidates
  exact List.append_cancel_right hcandidates

/-- The search under the scopes. -/
theorem findSome?_scopes (hf : file.WellNamed) (hs : IsPath 0x2e scope) (hn : IsTypeName name)
    (ha : isAbsolute name = false) (hnames : namesInScope scope name = front ++ [components name])
    (hne : scope ≠ []) :
    ((enclosingScopes ((joined 0x2e scope).length + 1) (joined 0x2e scope)).filter
        (fun (current : Bytes) => current.length + 1 + name.length ≤ scopeBufferSize)).findSome?
          (fun current => findMessageByQualifiedName file (current ++ 0x2e :: name))
      = (front.filter (isTried name)).findSome? file.messageTaken := by
  have hpaths : ∀ path ∈ front.filter (isTried name), IsPath 0x2e path := by
    intro path hpath
    refine isPath_of_mem_namesInScope hs hn ?_
    rw [hnames]
    exact List.mem_append_left _ (List.mem_filter.mp hpath).1
  calc _ = (((enclosingScopes ((joined 0x2e scope).length + 1) (joined 0x2e scope)).filter
          (fun current => current.length + 1 + name.length ≤ scopeBufferSize)).map
            (fun current => current ++ 0x2e :: name)).findSome?
              (findMessageByQualifiedName file) := by
        rw [List.findSome?_map]
        rfl
    _ = ((front.filter (isTried name)).map (joined 0x2e)).findSome?
          (findMessageByQualifiedName file) := by rw [candidates_front hs hne ha hnames]
    _ = (front.filter (isTried name)).findSome? file.messageTaken := by
        rw [List.findSome?_map]
        refine FirstMatch.findSome?_congr (fun path hpath => ?_)
        exact findMessageByQualifiedName_joined hf (hpaths path hpath)
          (normalizeName_joined (hpaths path hpath))

/-- The search for the name as it is written. -/
theorem findSome?_written (hf : file.WellNamed) (hn : IsTypeName name)
    (ha : isAbsolute name = false) :
    (if name.contains 0x2e then findMessageByQualifiedName file name else none)
      = ([components name].filter (isSearched name)).findSome? file.messageTaken := by
  have hkept : isSearched name (components name) = name.contains 0x2e := by
    rw [contains_dot_iff ha]
    simp [isSearched, isTried, ha]
  rw [List.filter_singleton, hkept,
    findMessageByQualifiedName_joined hf hn.isPath (joined_components name).symm]
  cases name.contains 0x2e with
  | true => exact List.findSome?_singleton.symm
  | false => rfl

end

/-- What the generator finds in the file is what the first of the names leads to that leads to
something. -/
theorem findExtensionExtendeeInFile_eq (hf : file.WellNamed) (hs : IsPath 0x2e scope)
    (hscope : extensionScope file field = scopeText scope) {name : Bytes}
    (hname : field.extendee = some name) (hn : IsTypeName name) :
    Codegen.findExtensionExtendeeInFile file field
      = ((namesInScope scope name).filter (isSearched name)).findSome? file.messageTaken := by
  rw [Codegen.findExtensionExtendeeInFile, hname, hscope]
  by_cases ha : isAbsolute name = true
  · -- a full name is looked up as it is
    have hkept : isSearched name (components name) = true := by simp [isSearched, isTried, ha]
    simp only [normalizeName_bne_of_absolute hn ha, if_true]
    rw [namesInScope, if_pos ha, List.filter_cons_of_pos hkept, List.filter_nil,
      List.findSome?_singleton]
    exact findMessageByQualifiedName_joined hf hn.isPath (joined_components name).symm
  · rw [Bool.not_eq_true] at ha
    obtain ⟨front, hnames, hfront⟩ := namesInScope_relative scope ha
    -- the names under a scope come first, and then the name as it is written
    have hunder : front.filter (isSearched name) = front.filter (isTried name) := by
      refine List.filter_congr (fun path hpath => ?_)
      rw [isSearched, bne_iff_ne.mpr (hfront path hpath)]
      simp
    rw [hnames, List.filter_append, hunder, List.findSome?_append, ← findSome?_written hf hn ha]
    simp only [normalizeName_of_not_absolute ha, bne_self_eq_false, Bool.false_eq_true, if_false]
    congr 1
    by_cases hne : scope = []
    · have hempty : front = [] := by
        have hlen := congrArg List.length hnames
        rw [hne, namesInScope, if_neg (by simpa using ha)] at hlen
        simpa using hlen
      rw [scopeText, if_pos hne, hempty]
      rfl
    · rw [scopeText, if_neg hne]
      exact findSome?_scopes hf hs hn ha hnames hne

end

/-! ## The name the generator keeps -/

theorem typeNamed_declared {file : FileDescriptor} {path : List Bytes}
    {message : MessageDescriptor} (h : file.typeNamed path = some (.message message)) :
    (path, message) ∈ file.declaredMessages := by
  obtain ⟨rest, rfl, hat⟩ := typeNamed_file h
  exact typeAt_declared hat file.packagePath

namespace CodegenContext

def registeredFiles (ctx : CodegenContext) : List FileDescriptor :=
  match ctx.registry with
  | none => []
  | some registry => registry.files

/-- The files whose types the generated file can see besides its own. -/
def visibleFiles (ctx : CodegenContext) : List FileDescriptor :=
  match ctx.registry with
  | none => []
  | some registry => registry.visibleFrom ctx.file

/-- Names are identifiers, and every message, also each one of the copy, has an address of its
own. -/
structure Prepared (ctx : CodegenContext) : Prop where
  wellNamed : ∀ file ∈ ctx.file :: ctx.registeredFiles, file.WellNamed
  addresses : (((ctx.file :: ctx.registeredFiles).flatMap FileDescriptor.declaredMessages).map
    (fun pair => pair.2.address)).Nodup

/-- The full name of the message of another file that the registry finds for a name. -/
def importedName (ctx : CodegenContext) (scope : List Bytes) (name : Bytes) :
    Option (List Bytes) :=
  (((namesInScope scope name).filter (isTried name)).find?
      (fun path => (typeNamed (ctx.file :: ctx.visibleFiles) path).isSome)).filter
    (fun path => (ctx.file.typeNamed path).isNone
      && ((typeNamed (ctx.file :: ctx.visibleFiles) path).bind Registry.asMessage).isSome)

/-- The name of the extended message in the copy of the generator. -/
def keptName (ctx : CodegenContext) (scope : List Bytes) (name : Bytes) : Bytes :=
  match ctx.importedName scope name with
  | none => name
  | some path => 0x2e :: joined 0x2e path

/-- The full names under which the generator looks for an extended message in its file. -/
def extendeeNames (ctx : CodegenContext) (scope : List Bytes) (name : Bytes) :
    List (List Bytes) :=
  match ctx.importedName scope name with
  | none => (namesInScope scope name).filter (isSearched name)
  | some path => [path]

section

variable {ctx : CodegenContext} {field : FieldDescriptor} {scope : List Bytes} {name : Bytes}

theorem Prepared.pair_eq (h : ctx.Prepared) {file other : FileDescriptor}
    (hf : file ∈ ctx.file :: ctx.registeredFiles) (ho : other ∈ ctx.file :: ctx.registeredFiles)
    {pair more : List Bytes × MessageDescriptor} (hp : pair ∈ file.declaredMessages)
    (hm : more ∈ other.declaredMessages) (haddress : pair.2.address = more.2.address) :
    pair = more :=
  List.inj_on_of_nodup_map h.addresses (List.mem_flatMap.mpr ⟨file, hf, hp⟩)
    (List.mem_flatMap.mpr ⟨other, ho, hm⟩) haddress

/-- No file of the registry holds a message of the copy. -/
theorem Prepared.fileContainingMessage_copy (h : ctx.Prepared) {registry : Registry}
    (hregistry : ctx.registry = some registry) {path : List Bytes} {message : MessageDescriptor}
    (hmessage : (path, message) ∈ ctx.file.declaredMessages) :
    registry.fileContainingMessage message = none := by
  have hfiles : ctx.registeredFiles = registry.files := by rw [registeredFiles, hregistry]
  have happart := h.addresses
  rw [List.flatMap_cons, List.map_append, List.nodup_append'] at happart
  cases howner : registry.fileContainingMessage message with
  | none => rfl
  | some owner =>
      obtain ⟨hmem, place, found, hfound, haddress⟩ := fileContainingMessage_declared howner
      have hcopy := List.mem_map_of_mem (f := fun pair => pair.2.address) hmessage
      have hown : found.address ∈ (ctx.registeredFiles.flatMap
          FileDescriptor.declaredMessages).map (fun pair => pair.2.address) := by
        refine List.mem_map.mpr ⟨(place, found), List.mem_flatMap.mpr ⟨owner, ?_, hfound⟩, rfl⟩
        rw [hfiles]
        exact hmem
      rw [haddress] at hown
      exact absurd hown (happart.2.2 hcopy)

/-- The full name of a message of the registry is its path. -/
theorem Prepared.exists_owner (h : ctx.Prepared) {registry : Registry}
    (hregistry : ctx.registry = some registry) {file : FileDescriptor}
    (hfile : file ∈ registry.files) {path : List Bytes} {message : MessageDescriptor}
    (hmessage : (path, message) ∈ file.declaredMessages) :
    ∃ owner, registry.fileContainingMessage message = some owner ∧
      messageFullName owner message = some (0x2e :: joined 0x2e path) := by
  have hfiles : ctx.registeredFiles = registry.files := by rw [registeredFiles, hregistry]
  obtain ⟨owner, howner, hmem, place, found, hfound, haddress⟩ :=
    exists_fileContainingMessage hfile hmessage
  have hregistered : ∀ other ∈ registry.files, other ∈ ctx.file :: ctx.registeredFiles := by
    intro other hother
    rw [hfiles]
    exact List.mem_cons_of_mem _ hother
  refine ⟨owner, howner, ?_⟩
  rw [messageFullName, messagesFullName_eq, ← FileDescriptor.declaredMessages]
  cases hfind : owner.declaredMessages.find? (fun pair => pair.2.address == message.address) with
  | none =>
      have hnot := List.find?_eq_none.mp hfind _ hfound
      exact absurd (by simpa using haddress) hnot
  | some pair =>
      have hpair : pair.2.address = message.address := by simpa using List.find?_some hfind
      have heq := h.pair_eq (hregistered owner hmem) (hregistered file hfile)
        (List.mem_of_find?_eq_some hfind) hmessage hpair
      rw [Option.map_some, heq]

/-- An imported name is one of the names in the scope. -/
theorem importedName_mem {path : List Bytes} (h : ctx.importedName scope name = some path) :
    path ∈ namesInScope scope name := by
  obtain ⟨hfind, -⟩ := Option.filter_eq_some_iff.mp h
  exact (List.mem_filter.mp (List.mem_of_find?_eq_some hfind)).1

theorem namesInScope_ne_nil {path : List Bytes} (h : path ∈ namesInScope scope name) :
    path ≠ [] := by
  rintro rfl
  have hlast := getLast?_of_mem_namesInScope h
  rw [List.getLast?_nil, eq_comm, List.getLast?_eq_none_iff] at hlast
  exact components_ne_nil name hlast

theorem importedName_path (hs : IsPath 0x2e scope) (hn : IsTypeName name) {path : List Bytes}
    (h : ctx.importedName scope name = some path) : IsPath 0x2e path ∧ path ≠ [] :=
  ⟨isPath_of_mem_namesInScope hs hn (importedName_mem h), namesInScope_ne_nil (importedName_mem h)⟩

theorem resolveFieldExtendee_fullName :
    (ctx.resolveFieldExtendee field).fullName = field.fullName := by
  unfold resolveFieldExtendee
  repeat' split
  all_goals rfl

/-- The lookup of the registry, on paths. -/
theorem findTypeVisible_path (h : ctx.Prepared) {registry : Registry}
    (hregistry : ctx.registry = some registry) (hs : IsPath 0x2e scope)
    (heffective : effectiveScope ctx.file scope = scope) (hn : IsTypeName name) :
    registry.findTypeVisible ctx.file name (scopeText scope)
      = (((namesInScope scope name).filter (isTried name)).find?
          (fun path => (typeNamed (ctx.file :: ctx.visibleFiles) path).isSome)).bind
            (typeNamed (ctx.file :: ctx.visibleFiles)) := by
  have hvisible : ctx.visibleFiles = registry.visibleFrom ctx.file := by
    rw [visibleFiles, hregistry]
  have hfiles : ctx.registeredFiles = registry.files := by rw [registeredFiles, hregistry]
  have hr : ∀ file ∈ registry.files, file.WellNamed := by
    intro file hfile
    exact h.wellNamed file (List.mem_cons_of_mem _ (by rw [hfiles]; exact hfile))
  have hf := h.wellNamed ctx.file List.mem_cons_self
  let find (fullName : Bytes) :=
    (findAbsoluteInFile ctx.file fullName).or (registry.findAbsoluteVisible ctx.file fullName)
  have hfind : ∀ path, IsPath 0x2e path →
      find (joined 0x2e path) = typeNamed (ctx.file :: registry.visibleFrom ctx.file) path :=
    fun path hpath => findVisible_joined hf hr hpath
  have hfrom : (scopeText scope).or (packageScope ctx.file) = scopeText scope := by
    rw [scopeText_or, heffective]
  have hlookup := @findSome?_scopeText scope hs name hn find _ hfind
  rw [← hfrom] at hlookup
  rw [← FirstMatch.findSome?_eq_bind, hvisible]
  exact hlookup

/-- The generator keeps the full name of a message of another file, and else the name as it is
written. -/
theorem resolveFieldExtendee_extendee (h : ctx.Prepared) (hs : IsPath 0x2e scope)
    (heffective : effectiveScope ctx.file scope = scope)
    (hscope : extensionScope ctx.file field = scopeText scope) (hname : field.extendee = some name)
    (hn : IsTypeName name) :
    (ctx.resolveFieldExtendee field).extendee = some (ctx.keptName scope name) := by
  cases hregistry : ctx.registry with
  | none =>
      -- without a registry only the file itself is searched
      have hnone : ctx.importedName scope name = none := by
        have hvisible : ctx.visibleFiles = [] := by rw [visibleFiles, hregistry]
        rw [importedName, Option.filter_eq_none_iff]
        intro path hpath
        have hsome := List.find?_some hpath
        rw [hvisible, typeNamed, List.findSome?_singleton] at hsome
        obtain ⟨type, htype⟩ := Option.isSome_iff_exists.mp hsome
        simp [htype]
      rw [resolveFieldExtendee, hregistry, keptName, hnone, hname]
  | some registry =>
      have hvisible : ctx.visibleFiles = registry.visibleFrom ctx.file := by
        rw [visibleFiles, hregistry]
      have hlookup := findTypeVisible_path h hregistry hs heffective hn
      rw [resolveFieldExtendee, hregistry, hname]
      simp only [hscope, Registry.findMessageVisible, hlookup, keptName, importedName]
      cases hfirst : ((namesInScope scope name).filter (isTried name)).find?
          (fun path => (typeNamed (ctx.file :: ctx.visibleFiles) path).isSome) with
      | none => simp [hname]
      | some path =>
          have hsome : (typeNamed (ctx.file :: ctx.visibleFiles) path).isSome = true := by
            simpa using List.find?_some hfirst
          obtain ⟨type, htype⟩ := Option.isSome_iff_exists.mp hsome
          simp only [Option.bind_some, htype, Option.filter_some]
          cases type with
          | enumeration enumeration => simp [Registry.asMessage, hname]
          | message message =>
              simp only [Registry.asMessage, Option.isSome_some, Bool.and_true]
              rw [typeNamed, FirstMatch.findSome?_cons_or] at htype
              rcases Option.or_eq_some_iff.mp htype with hown | ⟨hnone, hother⟩
              · -- a message of the copy is in no file of the registry
                have hcopy := h.fileContainingMessage_copy hregistry (typeNamed_declared hown)
                simp [hcopy, hown, hname]
              · obtain ⟨file, hfile, hnamed⟩ := List.exists_of_findSome?_eq_some hother
                rw [hvisible] at hfile
                obtain ⟨owner, howner, hfull⟩ := h.exists_owner hregistry
                  (List.mem_filter.mp hfile).1 (typeNamed_declared hnamed)
                simp [howner, hfull, hnone]

/-- The kept name is a full name of its own, or the one that is written. -/
theorem keptName_cases (hs : IsPath 0x2e scope) (hn : IsTypeName name) :
    (ctx.importedName scope name = none ∧ ctx.keptName scope name = name) ∨
      ∃ path, ctx.importedName scope name = some path ∧
        ctx.keptName scope name = 0x2e :: joined 0x2e path ∧
          components (ctx.keptName scope name) = path ∧ IsPath 0x2e path := by
  cases himported : ctx.importedName scope name with
  | none => exact .inl ⟨rfl, by rw [keptName, himported]⟩
  | some path =>
      obtain ⟨hpath, hne⟩ := importedName_path hs hn himported
      have hkept : ctx.keptName scope name = 0x2e :: joined 0x2e path := by
        rw [keptName, himported]
      refine .inr ⟨path, rfl, hkept, ?_, hpath⟩
      rw [hkept]
      exact splitOn_joined hpath hne

theorem keptName_spelled (hs : IsPath 0x2e scope) (hn : IsTypeName name) :
    IsTypeName (ctx.keptName scope name) := by
  rcases @keptName_cases ctx scope name hs hn with ⟨-, hkept⟩ | ⟨path, -, -, hparts, hpath⟩
  · rw [hkept]
    exact hn
  · intro part hpart
    rw [hparts] at hpart
    exact (hpath part hpart).1

/-- The kept name ends as the one that is written. -/
theorem leafName_keptName (hs : IsPath 0x2e scope) (hn : IsTypeName name) :
    leafName (ctx.keptName scope name) = leafName name := by
  rcases @keptName_cases ctx scope name hs hn with
    ⟨-, hkept⟩ | ⟨path, himported, -, hparts, -⟩
  · rw [hkept]
  · rw [leafName_eq_iff, hparts, ← leafName_eq_iff.mp rfl]
    exact getLast?_of_mem_namesInScope (importedName_mem himported)

/-- The search of the generator for the message that an extension of its copy extends. -/
theorem findExtendee_eq (h : ctx.Prepared) (hs : IsPath 0x2e scope)
    (heffective : effectiveScope ctx.file scope = scope)
    (hscope : extensionScope ctx.file field = scopeText scope) (hname : field.extendee = some name)
    (hn : IsTypeName name) :
    Codegen.findExtensionExtendeeInFile ctx.file (ctx.resolveFieldExtendee field)
      = (ctx.extendeeNames scope name).findSome? ctx.file.messageTaken := by
  have hf := h.wellNamed ctx.file List.mem_cons_self
  have hextendee := resolveFieldExtendee_extendee h hs heffective hscope hname hn
  have hresolved : extensionScope ctx.file (ctx.resolveFieldExtendee field) = scopeText scope := by
    rw [← hscope, extensionScope, extensionScope, resolveFieldExtendee_fullName]
  rw [findExtensionExtendeeInFile_eq hf hs hresolved hextendee (keptName_spelled hs hn),
    extendeeNames]
  rcases @keptName_cases ctx scope name hs hn with
    ⟨himported, hkept⟩ | ⟨path, himported, hkept, hparts, -⟩
  · rw [himported, hkept]
  · have habsolute : isAbsolute (ctx.keptName scope name) = true := by
      rw [hkept]
      rfl
    have hsearched : isSearched (ctx.keptName scope name) path = true := by
      simp [isSearched, isTried, habsolute, hparts]
    rw [himported, namesInScope, if_pos habsolute, hparts, List.filter_cons_of_pos hsearched,
      List.filter_nil]

end

end CodegenContext

/-! ## The messages an extension applies to -/

/-- The first of the names that leads to a message of the file leads to this one. -/
def FileDescriptor.LeadsTo (file : FileDescriptor) (names : List (List Bytes))
    (message : MessageDescriptor) : Prop :=
  ∃ inner path outer, names = inner ++ path :: outer ∧ file.messageTaken path = some message ∧
    ∀ other ∈ inner, file.messageTaken other = none

theorem FileDescriptor.leadsTo_iff {file : FileDescriptor} {names : List (List Bytes)}
    {message : MessageDescriptor} :
    file.LeadsTo names message ↔ names.findSome? file.messageTaken = some message :=
  List.findSome?_eq_some_iff.symm

namespace CodegenContext

/-- The name of an extended message, written at a place of the file, is one of this message. -/
def Designates (ctx : CodegenContext) (place : List Bytes) (name : Bytes)
    (message : MessageDescriptor) : Prop :=
  designated (ctx.file :: ctx.visibleFiles) place name = some (.message message)

/-- If the message is the designated one, the names of the generator lead to no other. If it is
not, they do not lead to it, and lead to another one if it bears the last part of the name. -/
def TellsExtendee (ctx : CodegenContext) (place scope : List Bytes) (name : Bytes)
    (message : MessageDescriptor) : Prop :=
  (ctx.Designates place name message →
    ∀ other, ctx.file.LeadsTo (ctx.extendeeNames scope name) other → other = message) ∧
  (¬ ctx.Designates place name message →
    ¬ ctx.file.LeadsTo (ctx.extendeeNames scope name) message ∧
      (message.name = leafName name →
        ∃ other, ctx.file.LeadsTo (ctx.extendeeNames scope name) other))

section

variable {ctx : CodegenContext} {field : FieldDescriptor} {place scope path : List Bytes}
  {name : Bytes} {message : MessageDescriptor}

theorem Designates.name_eq (h : ctx.Designates place name message) :
    message.name = leafName name :=
  ((leafName_of_designated h).1 message rfl).symm

/-- An extension applies to the message that the names lead to, and where they lead to none to
every message that bears the last part of the name. -/
theorem extensionApplies_iff_led (hctx : ctx.Prepared)
    (hmessage : (path, message) ∈ ctx.file.declaredMessages)
    (hfield : ctx.file.DeclaresExtension field place scope) (hname : field.extendee = some name)
    (hn : IsTypeName name) :
    Codegen.extensionAppliesToMessage ctx.file message (ctx.resolveFieldExtendee field) = true ↔
      ctx.file.LeadsTo (ctx.extendeeNames scope name) message ∨
        (∀ other, ¬ ctx.file.LeadsTo (ctx.extendeeNames scope name) other) ∧
          message.name = leafName name := by
  have hf := hctx.wellNamed ctx.file List.mem_cons_self
  have hs := hfield.isPath hf
  have heffective := hfield.effectiveScope_eq
  have hscope := extensionScope_eq hf hfield
  have hfound := findExtendee_eq hctx hs heffective hscope hname hn
  have hextendee := resolveFieldExtendee_extendee hctx hs heffective hscope hname hn
  simp only [FileDescriptor.leadsTo_iff, ← hfound, Codegen.extensionAppliesToMessage, hextendee]
  cases hresolved : Codegen.findExtensionExtendeeInFile ctx.file
      (ctx.resolveFieldExtendee field) with
  | some other =>
      obtain ⟨_, -, htaken⟩ := List.exists_of_findSome?_eq_some (hfound ▸ hresolved)
      obtain ⟨place, hother⟩ := messageTaken_declared htaken
      have hsame : other.address = message.address ↔ other = message := by
        constructor
        · intro haddress
          have hpair := hctx.pair_eq List.mem_cons_self List.mem_cons_self hother hmessage haddress
          exact congrArg Prod.snd hpair
        · exact fun heq => by rw [heq]
      simp [hsame]
  | none =>
      -- the whole name and its last part are told apart by no identifier
      have hpart := hf.messages path message hmessage
      have hspelled := @keptName_spelled ctx scope name hs hn
      have hbears := bears_eq hpart (normalizeName (ctx.keptName scope name))
      rw [hspelled.leafName_normalizeName, leafName_keptName hs hn] at hbears
      rw [Bool.or_comm, leafName_keptName hs hn, hbears]
      simp

/-- An extension of a file applies to a message of the file if and only if its extendee designates
this message, exactly when the names under which the generator looks for the extendee tell. -/
theorem extensionApplies_iff (hctx : ctx.Prepared)
    (hmessage : (path, message) ∈ ctx.file.declaredMessages)
    (hfield : ctx.file.DeclaresExtension field place scope) (hname : field.extendee = some name)
    (hn : IsTypeName name) :
    (Codegen.extensionAppliesToMessage ctx.file message (ctx.resolveFieldExtendee field) = true ↔
        ctx.Designates place name message)
      ↔ ctx.TellsExtendee place scope name message := by
  rw [extensionApplies_iff_led hctx hmessage hfield hname hn, TellsExtendee]
  by_cases hled : ∃ other, ctx.file.LeadsTo (ctx.extendeeNames scope name) other
  · -- the names lead to one message
    obtain ⟨other, hother⟩ := hled
    have hone : ∀ more, ctx.file.LeadsTo (ctx.extendeeNames scope name) more ↔ more = other := by
      intro more
      rw [FileDescriptor.leadsTo_iff] at hother ⊢
      rw [hother, Option.some.injEq, eq_comm]
    simp only [hone]
    by_cases hdesignates : ctx.Designates place name message
    · simp [hdesignates, eq_comm]
    · simp [hdesignates]
  · -- the names lead nowhere, and the last part decides
    rw [not_exists] at hled
    by_cases hdesignates : ctx.Designates place name message
    · simp [hled, hdesignates, hdesignates.name_eq]
    · simp [hled, hdesignates]

/-! ## A name that one message bears -/

/-- What the names lead to bears the last part of the name. -/
theorem leadsTo_name_eq {other : MessageDescriptor}
    (h : ctx.file.LeadsTo (ctx.extendeeNames scope name) other) : other.name = leafName name := by
  obtain ⟨inner, full, outer, hnames, htaken, -⟩ := h
  have hscope : full ∈ namesInScope scope name := by
    have hmem : full ∈ ctx.extendeeNames scope name := by
      rw [hnames]
      simp
    rw [extendeeNames] at hmem
    cases himported : ctx.importedName scope name with
    | none =>
        rw [himported] at hmem
        exact (List.mem_filter.mp hmem).1
    | some path =>
        rw [himported, List.mem_singleton] at hmem
        rw [hmem]
        exact importedName_mem himported
  have hlast := getLast?_of_mem_namesInScope hscope
  rw [getLast?_components] at hlast
  -- the part below the package ends as the whole name
  have hdeclared := fun below (h : messageAt ctx.file.messages below = some other) =>
    getLast?_of_mem_declaredMessages (typeAt_declared (typeAt_of_messageAt h []) [])
  rw [FileDescriptor.messageTaken] at htaken
  split at htaken
  · next hpre =>
    obtain ⟨below, rfl⟩ := List.isPrefixOf_iff_prefix.mp hpre
    rw [List.drop_left] at htaken
    have hbelow := hdeclared below htaken
    rw [List.nil_append] at hbelow
    rw [List.getLast?_append, hbelow, Option.some_or, Option.some.injEq] at hlast
    exact hlast
  · have hfull := hdeclared full htaken
    rw [List.nil_append, hlast, Option.some.injEq] at hfull
    exact hfull.symm

/-- Where no message of the file but the designated one bears the last part of the name, the
extension applies to this message only. -/
theorem extensionApplies_of_unshared (hctx : ctx.Prepared)
    (hmessage : (path, message) ∈ ctx.file.declaredMessages)
    (hfield : ctx.file.DeclaresExtension field place scope) (hname : field.extendee = some name)
    (hn : IsTypeName name)
    (hone : ∀ pair ∈ ctx.file.declaredMessages, pair.2.name = leafName name →
      ctx.Designates place name pair.2) :
    Codegen.extensionAppliesToMessage ctx.file message (ctx.resolveFieldExtendee field) = true ↔
      ctx.Designates place name message := by
  rw [extensionApplies_iff_led hctx hmessage hfield hname hn]
  constructor
  · rintro (hled | ⟨-, hbears⟩)
    · exact hone _ hmessage (leadsTo_name_eq hled)
    · exact hone _ hmessage hbears
  · intro hdesignates
    by_cases hled : ∃ other, ctx.file.LeadsTo (ctx.extendeeNames scope name) other
    · -- whatever the names lead to is designated too
      obtain ⟨other, hother⟩ := hled
      obtain ⟨-, full, -, -, htaken, -⟩ := id hother
      obtain ⟨place, hplace⟩ := messageTaken_declared htaken
      have hsame := hone _ hplace (leadsTo_name_eq hother)
      rw [Designates] at hdesignates hsame
      rw [hdesignates, Option.some.injEq, TypeRef.message.injEq] at hsame
      rw [hsame]
      exact .inl hother
    · rw [not_exists] at hled
      exact .inr ⟨hled, hdesignates.name_eq⟩

/-! ## Two messages with one name -/

def fooMessage : MessageDescriptor := { name := ascii "Foo", address := 1 }

def barFoo : MessageDescriptor := { name := ascii "Foo", address := 3 }

def barMessage : MessageDescriptor :=
  { name := ascii "Bar", address := 2, messages := [barFoo] }

/-- `extend Foo { optional int32 x = 100; }` -/
def fooExtension : FieldDescriptor :=
  { name := ascii "x", number := 100, cardinality := .optional, kind := .scalar .int32,
    extendee := some (ascii "Foo") }

/-- A file of a message `Foo` and a message `Bar` that holds another `Foo`. -/
def fooFile : FileDescriptor :=
  { messages := [fooMessage, barMessage], extensions := [fooExtension] }

theorem fooFile_wellNamed : fooFile.WellNamed where
  package := by decide
  messages := fun scope message h =>
    (by decide : ∀ pair ∈ fooFile.declaredMessages, IsPart 0x2e pair.2.name) (scope, message) h
  nestedEnums := fun scope message h =>
    (by decide : ∀ pair ∈ fooFile.declaredMessages, ∀ e ∈ pair.2.enums, IsPart 0x2e e.name)
      (scope, message) h
  enums := by decide

theorem fooFile_prepared : Prepared { file := fooFile } where
  wellNamed := by
    intro file hfile
    rw [List.mem_singleton.mp hfile]
    exact fooFile_wellNamed
  addresses := by decide

theorem fooExtension_declared : fooFile.DeclaresExtension fooExtension [] [] :=
  .beside (by simp [fooFile]) rfl

theorem designates_foo : Designates { file := fooFile } [] (ascii "Foo") fooMessage := rfl

/-- The extension of `Foo` applies to `Foo`. -/
theorem extensionApplies_iff_foo :
    (Codegen.extensionAppliesToMessage fooFile fooMessage
        (resolveFieldExtendee { file := fooFile } fooExtension) = true ↔
        Designates { file := fooFile } [] (ascii "Foo") fooMessage)
      ↔ TellsExtendee { file := fooFile } [] [] (ascii "Foo") fooMessage :=
  @extensionApplies_iff { file := fooFile } fooExtension [] [] [ascii "Foo"] (ascii "Foo")
    fooMessage fooFile_prepared List.mem_cons_self fooExtension_declared rfl (by decide)

/-- The extension of `Foo` applies to `Bar.Foo` as well. -/
theorem exists_extensionApplies_ne :
    Prepared { file := fooFile } ∧ ([ascii "Bar", ascii "Foo"], barFoo) ∈ fooFile.declaredMessages ∧
      fooFile.DeclaresExtension fooExtension [] [] ∧ fooExtension.extendee = some (ascii "Foo") ∧
      IsTypeName (ascii "Foo") ∧
      ¬ (Codegen.extensionAppliesToMessage fooFile barFoo
          (resolveFieldExtendee { file := fooFile } fooExtension) = true ↔
          Designates { file := fooFile } [] (ascii "Foo") barFoo) := by
  refine ⟨fooFile_prepared, ?_, fooExtension_declared, rfl, by decide, fun hiff => ?_⟩
  · exact List.mem_cons_of_mem _ (List.mem_cons_of_mem _ List.mem_cons_self)
  · have hbar : Designates { file := fooFile } [] (ascii "Foo") barFoo := hiff.mp (by decide)
    rw [Designates, designates_foo] at hbar
    have haddress := congrArg TypeRef.address (Option.some.inj hbar)
    exact absurd haddress (by decide)

end

end CodegenContext

end Pbz
