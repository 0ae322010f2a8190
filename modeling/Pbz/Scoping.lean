import Pbz.Registry
import Pbz.Lib.Dotted
import Pbz.Lib.FirstMatch

set_option autoImplicit false

/-! # The scoping of type names

What a type name stands for by the rules of the language. A type has a full name, the path from
the package down through the messages around it. A name with a leading dot is a full name; any
other name is looked up in the scope it is written in and then in each scope around it, and the
first type found is the one it designates.

Names are lists of parts here. That the lookups of the registry, which work on the texts, find the
designated type is `findTypeVisible_eq` and `findType_eq`.
-/

namespace Pbz

open Dotted

/-! ## Paths -/

/-- The parts of a type name, without its leading dot. -/
def components (name : Bytes) : List Bytes := (normalizeName name).splitOn 0x2e

def isAbsolute (name : Bytes) : Bool := name.head? == some 0x2e

/-- A name as the grammar has it: parts with a dot between each two, and maybe one in front. -/
def IsTypeName (name : Bytes) : Prop := ∀ part ∈ components name, part ≠ []

instance (name : Bytes) : Decidable (IsTypeName name) :=
  inferInstanceAs (Decidable (∀ part ∈ components name, part ≠ []))

def FileDescriptor.packagePath (file : FileDescriptor) : List Bytes :=
  if file.package.isEmpty then [] else file.package.splitOn 0x2e

mutual

/-- The messages of a list and those nested in them, with their paths, depth first. -/
def declaredMessages (scope : List Bytes) :
    List MessageDescriptor → List (List Bytes × MessageDescriptor)
  | [] => []
  | message :: rest =>
      (scope ++ [message.name], message) :: (message.nestedMessages (scope ++ [message.name])
        ++ declaredMessages scope rest)

def MessageDescriptor.nestedMessages (scope : List Bytes) :
    MessageDescriptor → List (List Bytes × MessageDescriptor)
  | { messages, .. } => declaredMessages scope messages

end

def FileDescriptor.declaredMessages (file : FileDescriptor) :
    List (List Bytes × MessageDescriptor) :=
  Pbz.declaredMessages file.packagePath file.messages

/-- Names are identifiers: not empty, and without dots. -/
structure FileDescriptor.WellNamed (file : FileDescriptor) : Prop where
  package : IsPath 0x2e file.packagePath
  messages : ∀ scope message, (scope, message) ∈ file.declaredMessages → IsPart 0x2e message.name
  nestedEnums : ∀ scope message, (scope, message) ∈ file.declaredMessages →
    ∀ enumeration ∈ message.enums, IsPart 0x2e enumeration.name
  enums : ∀ enumeration ∈ file.enums, IsPart 0x2e enumeration.name

/-! ## Designated types -/

/-- The type with a path below a scope. -/
def typeAt : List MessageDescriptor → List EnumDescriptor → List Bytes → Option TypeRef
  | _, _, [] => none
  | messages, enums, [last] =>
      match messages.find? (fun message => message.name == last) with
      | some message => some (.message message)
      | none => (enums.find? (fun enumeration => enumeration.name == last)).map .enumeration
  | messages, _, head :: next :: rest =>
      match messages.find? (fun message => message.name == head) with
      | some message => typeAt message.messages message.enums (next :: rest)
      | none => none

/-- The type of a file with a full name. -/
def FileDescriptor.typeNamed (file : FileDescriptor) (path : List Bytes) : Option TypeRef :=
  if file.packagePath.isPrefixOf path then
    typeAt file.messages file.enums (path.drop file.packagePath.length)
  else none

def typeNamed (files : List FileDescriptor) (path : List Bytes) : Option TypeRef :=
  files.findSome? (fun file => file.typeNamed path)

/-- The full names a name written in a scope may stand for, innermost scope first. -/
def namesInScope (scope : List Bytes) (name : Bytes) : List (List Bytes) :=
  if isAbsolute name then [components name]
  else scope.inits.reverse.map (fun outer => outer ++ components name)

/-- The type that a name written in a scope designates among the types of some files. -/
def designated (files : List FileDescriptor) (scope : List Bytes) (name : Bytes) :
    Option TypeRef :=
  (namesInScope scope name).findSome? (typeNamed files)

/-- With a registry the name designates a type of the files the file can see; the registry holds
one pool of types, in which a name that designates none of those is looked up as a whole. -/
def Registry.designated (registry : Registry) (file : FileDescriptor) (scope : List Bytes)
    (name : Bytes) : Option TypeRef :=
  (Pbz.designated (file :: registry.files.filter (registry.fileCanSee file)) scope name).or
    (Pbz.designated registry.files scope name)

/-! ## Designated types are declared -/

theorem mem_declaredMessages_of_mem {scope : List Bytes} {messages : List MessageDescriptor}
    {message : MessageDescriptor} (h : message ∈ messages) :
    (scope ++ [message.name], message) ∈ declaredMessages scope messages := by
  induction messages with
  | nil => exact absurd h (by simp)
  | cons first rest ih =>
      rw [declaredMessages]
      rcases List.mem_cons.mp h with rfl | hr
      · exact List.mem_cons_self
      · exact List.mem_cons_of_mem _ (List.mem_append_right _ (ih hr))

theorem nestedMessages_eq (scope : List Bytes) (message : MessageDescriptor) :
    message.nestedMessages scope = declaredMessages scope message.messages := by
  cases message
  rw [MessageDescriptor.nestedMessages]

theorem mem_declaredMessages_of_nested {scope : List Bytes} {messages : List MessageDescriptor}
    {message : MessageDescriptor} (h : message ∈ messages) {pair : List Bytes × MessageDescriptor}
    (hp : pair ∈ declaredMessages (scope ++ [message.name]) message.messages) :
    pair ∈ declaredMessages scope messages := by
  induction messages with
  | nil => exact absurd h (by simp)
  | cons first rest ih =>
      rw [declaredMessages]
      rcases List.mem_cons.mp h with rfl | hr
      · rw [nestedMessages_eq]
        exact List.mem_cons_of_mem _ (List.mem_append_left _ hp)
      · exact List.mem_cons_of_mem _ (List.mem_append_right _ (ih hr))

/-- A message with a path is declared at it. -/
theorem typeAt_declared {messages : List MessageDescriptor} {enums : List EnumDescriptor}
    {path : List Bytes} {message : MessageDescriptor}
    (h : typeAt messages enums path = some (.message message)) (scope : List Bytes) :
    (scope ++ path, message) ∈ declaredMessages scope messages := by
  induction path generalizing messages enums scope with
  | nil => simp [typeAt] at h
  | cons head rest ih =>
      cases hfind : messages.find? (fun message => message.name == head) with
      | none => cases rest <;> simp [typeAt, hfind] at h
      | some outer =>
          have hmem := List.mem_of_find?_eq_some hfind
          have hname : outer.name = head := by simpa using List.find?_some hfind
          cases rest with
          | nil =>
              obtain rfl : outer = message := by simpa [typeAt, hfind] using h
              rw [← hname]
              exact mem_declaredMessages_of_mem hmem
          | cons next rest =>
              have hbelow := ih (by simpa [typeAt, hfind] using h) (scope ++ [outer.name])
              rw [hname, List.append_assoc] at hbelow
              exact mem_declaredMessages_of_nested hmem (by rw [hname]; exact hbelow)

mutual

/-- The path of a declared message ends with its name. -/
theorem getLast?_of_mem_declaredMessages {scope : List Bytes}
    {pair : List Bytes × MessageDescriptor} :
    ∀ {messages : List MessageDescriptor}, pair ∈ declaredMessages scope messages →
      pair.1.getLast? = some pair.2.name
  | [], h => absurd h (by simp [declaredMessages])
  | message :: rest, h => by
      rw [declaredMessages] at h
      rcases List.mem_cons.mp h with rfl | h
      · exact List.getLast?_concat
      · rcases List.mem_append.mp h with h | h
        · exact getLast?_of_mem_nestedMessages h
        · exact getLast?_of_mem_declaredMessages h

theorem getLast?_of_mem_nestedMessages {scope : List Bytes}
    {pair : List Bytes × MessageDescriptor} :
    ∀ {message : MessageDescriptor}, pair ∈ message.nestedMessages scope →
      pair.1.getLast? = some pair.2.name
  | { messages := messages, .. }, h => by
      rw [MessageDescriptor.nestedMessages] at h
      exact getLast?_of_mem_declaredMessages h

end

/-- A message with a path is declared, under the last part of the path. -/
theorem typeAt_message {messages : List MessageDescriptor} {enums : List EnumDescriptor}
    {path : List Bytes} {found : MessageDescriptor}
    (h : typeAt messages enums path = some (.message found)) (scope : List Bytes) :
    (∃ place, (place, found) ∈ declaredMessages scope messages)
      ∧ path.getLast? = some found.name :=
  ⟨⟨_, typeAt_declared h scope⟩, getLast?_of_mem_declaredMessages (typeAt_declared h [])⟩

mutual

/-- The enums nested in the messages of a list, each message's own ones first. -/
def nestedEnums : List MessageDescriptor → List EnumDescriptor
  | [] => []
  | message :: rest => message.declaredEnums ++ nestedEnums rest

def MessageDescriptor.declaredEnums : MessageDescriptor → List EnumDescriptor
  | { messages, enums, .. } => enums ++ nestedEnums messages

end

theorem declaredEnums_eq (message : MessageDescriptor) :
    message.declaredEnums = message.enums ++ nestedEnums message.messages := by
  cases message
  rw [MessageDescriptor.declaredEnums]

theorem mem_nestedEnums {messages : List MessageDescriptor} {message : MessageDescriptor}
    (h : message ∈ messages) {enumeration : EnumDescriptor}
    (he : enumeration ∈ message.declaredEnums) : enumeration ∈ nestedEnums messages := by
  induction messages with
  | nil => exact absurd h (by simp)
  | cons first rest ih =>
      rw [nestedEnums]
      rcases List.mem_cons.mp h with rfl | hr
      · exact List.mem_append_left _ he
      · exact List.mem_append_right _ (ih hr)

theorem typeAt_enum {messages : List MessageDescriptor} {enums : List EnumDescriptor}
    {path : List Bytes} {found : EnumDescriptor}
    (h : typeAt messages enums path = some (.enumeration found)) :
    found ∈ enums ++ nestedEnums messages ∧ path.getLast? = some found.name := by
  induction path generalizing messages enums with
  | nil => simp [typeAt] at h
  | cons head rest ih =>
      cases rest with
      | nil =>
          rw [typeAt] at h
          cases hf : messages.find? (fun message => message.name == head) with
          | some message => simp [hf] at h
          | none =>
              simp only [hf, Option.map_eq_some_iff, TypeRef.enumeration.injEq] at h
              obtain ⟨enumeration, he, rfl⟩ := h
              have hname : enumeration.name = head := by simpa using List.find?_some he
              refine ⟨List.mem_append_left _ (List.mem_of_find?_eq_some he), ?_⟩
              rw [hname, List.getLast?_singleton]
      | cons next rest =>
          rw [typeAt] at h
          cases hf : messages.find? (fun message => message.name == head) with
          | none => simp [hf] at h
          | some message =>
              simp only [hf] at h
              obtain ⟨hmem, hlast⟩ := ih h
              rw [← declaredEnums_eq] at hmem
              refine ⟨List.mem_append_right _
                (mem_nestedEnums (List.mem_of_find?_eq_some hf) hmem), ?_⟩
              rw [List.getLast?_cons_cons]
              exact hlast

mutual

/-- An enum nested in a message is one of a message of the file. -/
theorem exists_message_of_nestedEnums {outer : List Bytes} {enumeration : EnumDescriptor} :
    ∀ {messages : List MessageDescriptor}, enumeration ∈ nestedEnums messages →
      ∃ place message, (place, message) ∈ declaredMessages outer messages
        ∧ enumeration ∈ message.enums
  | [], h => absurd h (by simp [nestedEnums])
  | message :: rest, h => by
      rw [nestedEnums] at h
      rcases List.mem_append.mp h with h | h
      · rcases exists_message_of_declaredEnums h with h | ⟨place, nested, hp, he⟩
        · exact ⟨_, message, by rw [declaredMessages]; exact List.mem_cons_self, h⟩
        · refine ⟨place, nested, ?_, he⟩
          rw [declaredMessages]
          exact List.mem_cons_of_mem _ (List.mem_append_left _ hp)
      · obtain ⟨place, nested, hp, he⟩ := exists_message_of_nestedEnums h
        refine ⟨place, nested, ?_, he⟩
        rw [declaredMessages]
        exact List.mem_cons_of_mem _ (List.mem_append_right _ hp)

theorem exists_message_of_declaredEnums {outer : List Bytes} {enumeration : EnumDescriptor} :
    ∀ {message : MessageDescriptor}, enumeration ∈ message.declaredEnums →
      enumeration ∈ message.enums
        ∨ ∃ place nested, (place, nested) ∈ message.nestedMessages outer
          ∧ enumeration ∈ nested.enums
  | { messages := messages, enums := enums, .. }, h => by
      rw [MessageDescriptor.declaredEnums] at h
      rw [MessageDescriptor.nestedMessages]
      rcases List.mem_append.mp h with h | h
      · exact Or.inl h
      · exact Or.inr (exists_message_of_nestedEnums h)

end

/-! ## The names of designated types -/

theorem components_ne_nil (name : Bytes) : components name ≠ [] :=
  List.splitOn_ne_nil _ _

theorem IsTypeName.isPath {name : Bytes} (h : IsTypeName name) : IsPath 0x2e (components name) :=
  fun part hp => ⟨h part hp, notMem_of_mem_splitOn part hp⟩

theorem joined_components (name : Bytes) : joined 0x2e (components name) = normalizeName name :=
  joined_splitOn _

/-- The last part of a name is what stands behind its last dot. -/
theorem getLast?_components (name : Bytes) : (components name).getLast? = some (leafName name) := by
  obtain ⟨last, hl⟩ : ∃ last, (components name).getLast? = some last :=
    Option.ne_none_iff_exists'.mp (by
      rw [ne_eq, List.getLast?_eq_none_iff]
      exact components_ne_nil name)
  obtain ⟨front, hf⟩ := List.getLast?_eq_some_iff.mp hl
  have hmem : last ∈ components name := by
    rw [hf]
    simp
  rw [hl, leafName, afterLastDot, ← joined_components, hf,
    reverse_takeWhile_joined (notMem_of_mem_splitOn last hmem) front]

theorem leafName_eq_iff {name last : Bytes} :
    leafName name = last ↔ (components name).getLast? = some last := by
  rw [getLast?_components, Option.some.injEq]

theorem getLast?_append_components (scope : List Bytes) (name : Bytes) :
    (scope ++ components name).getLast? = (components name).getLast? := by
  cases hl : (components name).getLast? with
  | none => exact absurd (List.getLast?_eq_none_iff.mp hl) (components_ne_nil name)
  | some last => rw [List.getLast?_append, hl, Option.some_or]

theorem getLast?_of_mem_namesInScope {scope path : List Bytes} {name : Bytes}
    (h : path ∈ namesInScope scope name) : path.getLast? = (components name).getLast? := by
  unfold namesInScope at h
  split at h
  · rw [List.mem_singleton.mp h]
  · obtain ⟨outer, _, rfl⟩ := List.mem_map.mp h
    exact getLast?_append_components outer name

theorem typeNamed_file {file : FileDescriptor} {path : List Bytes} {type : TypeRef}
    (h : file.typeNamed path = some type) :
    ∃ rest, path = file.packagePath ++ rest ∧ typeAt file.messages file.enums rest = some type := by
  rw [FileDescriptor.typeNamed] at h
  split at h
  · next hp =>
    obtain ⟨rest, hr⟩ := List.isPrefixOf_iff_prefix.mp hp
    rw [← hr, List.drop_left] at h
    exact ⟨rest, hr.symm, h⟩
  · exact absurd h (by simp)

/-- A designated type is one of a file, and bears the last part of the name. -/
theorem designated_some {files : List FileDescriptor} {scope : List Bytes} {name : Bytes}
    {type : TypeRef} (h : designated files scope name = some type) :
    ∃ file ∈ files, ∃ path, typeAt file.messages file.enums path = some type
      ∧ path.getLast? = (components name).getLast? := by
  obtain ⟨full, hfull, hnamed⟩ := List.exists_of_findSome?_eq_some h
  obtain ⟨file, hfile, htype⟩ := List.exists_of_findSome?_eq_some hnamed
  obtain ⟨rest, hrest, hat⟩ := typeNamed_file htype
  refine ⟨file, hfile, rest, hat, ?_⟩
  rw [← getLast?_of_mem_namesInScope hfull, hrest]
  have hne : rest ≠ [] := by
    rintro rfl
    simp [typeAt] at hat
  cases hl : rest.getLast? with
  | none => exact absurd (List.getLast?_eq_none_iff.mp hl) hne
  | some last => rw [List.getLast?_append, hl, Option.some_or]

theorem leafName_of_designated {files : List FileDescriptor} {scope : List Bytes} {name : Bytes}
    {type : TypeRef} (h : designated files scope name = some type) :
    (∀ message, type = .message message → leafName name = message.name)
      ∧ ∀ enumeration, type = .enumeration enumeration → leafName name = enumeration.name := by
  obtain ⟨file, _, path, hat, hlast⟩ := designated_some h
  constructor
  · rintro message rfl
    rw [leafName_eq_iff, ← hlast]
    exact (typeAt_message hat []).2
  · rintro enumeration rfl
    rw [leafName_eq_iff, ← hlast]
    exact (typeAt_enum hat).2

/-! ## The lookups of the registry -/

/-- Splitting a path at its first dot. -/
theorem splitFirst_joined {head : Bytes} {rest : List Bytes} (h : IsPath 0x2e (head :: rest)) :
    splitFirst (joined 0x2e (head :: rest)) = (head, joined 0x2e rest) := by
  have hhead := (h head List.mem_cons_self).2
  cases rest with
  | nil =>
      rw [joined_singleton, splitFirst, dropWhile_all hhead]
      rfl
  | cons next rest =>
      rw [joined_cons (List.cons_ne_nil next rest), splitFirst, dropWhile_part hhead,
        takeWhile_part hhead]

theorem findInScope_joined {path : List Bytes} (hp : IsPath 0x2e path) (hne : path ≠ [])
    {fuel : Nat} (hf : path.length ≤ fuel) (messages : List MessageDescriptor)
    (enums : List EnumDescriptor) :
    findInScope fuel (joined 0x2e path) messages enums = typeAt messages enums path := by
  induction path generalizing fuel messages enums with
  | nil => exact absurd rfl hne
  | cons head rest ih =>
      cases fuel with
      | zero => simp at hf
      | succ fuel =>
          rw [findInScope, splitFirst_joined hp]
          cases rest with
          | nil =>
              cases hf : messages.find? (fun message => message.name == head) with
              | none => simp [typeAt, hf]
              | some message => simp [typeAt, hf]
          | cons next rest =>
              have hempty : (joined 0x2e (next :: rest)).isEmpty = false := by
                simpa using joined_ne_nil hp.tail (by simp)
              have hlen : (next :: rest).length ≤ fuel := by
                rw [List.length_cons] at hf
                omega
              simp only [hempty, Bool.false_eq_true, if_false, typeAt]
              cases messages.find? (fun message => message.name == head) with
              | none => rfl
              | some message => exact ih hp.tail (by simp) hlen message.messages message.enums

theorem length_le_joined {path : List Bytes} (hp : IsPath 0x2e path) :
    path.length ≤ (joined 0x2e path).length := by
  induction path with
  | nil => simp
  | cons head rest ih =>
      have hhead : 0 < head.length := List.length_pos_iff.mpr (hp head List.mem_cons_self).1
      cases rest with
      | nil =>
          rw [joined_singleton, List.length_singleton]
          exact hhead
      | cons next rest =>
          rw [joined_cons (List.cons_ne_nil next rest), List.length_append, List.length_cons,
            @List.length_cons _ 0x2e (joined 0x2e (next :: rest))]
          have hrest := ih hp.tail
          omega

theorem normalizeName_joined {path : List Bytes} (hp : IsPath 0x2e path) :
    normalizeName (joined 0x2e path) = joined 0x2e path := by
  unfold normalizeName
  split
  · next rest he => exact absurd he (head_joined_ne hp rest)
  · rfl

theorem findInFile_joined {file : FileDescriptor} {path : List Bytes} (hp : IsPath 0x2e path) :
    findInFile file (joined 0x2e path) = typeAt file.messages file.enums path := by
  rw [findInFile]
  by_cases hne : path = []
  · rw [hne, joined_nil, List.isEmpty_nil, if_pos rfl, typeAt]
  · rw [if_neg (by simpa using joined_ne_nil hp hne)]
    exact findInScope_joined hp hne (Nat.le_succ_of_le (length_le_joined hp)) _ _

theorem stripDotted_joined {qualifier path : List Bytes} (hq : IsPath 0x2e qualifier)
    (hne : qualifier ≠ []) (hp : IsPath 0x2e path) :
    FileDescriptor.stripDotted (joined 0x2e qualifier) (joined 0x2e path)
      = if qualifier.isPrefixOf path ∧ path ≠ qualifier
        then some (joined 0x2e (path.drop qualifier.length)) else none := by
  by_cases hpre : qualifier.isPrefixOf path = true ∧ path ≠ qualifier
  · rw [if_pos hpre]
    obtain ⟨rest, rfl⟩ := List.isPrefixOf_iff_prefix.mp hpre.1
    have hrest : rest ≠ [] := fun hc => hpre.2 (by rw [hc, List.append_nil])
    rw [joined_append hne hrest, List.drop_left, FileDescriptor.stripDotted,
      if_pos (List.isPrefixOf_iff_prefix.mpr (List.prefix_append _ _)), List.drop_left]
    rfl
  · rw [if_neg hpre, FileDescriptor.stripDotted]
    split
    · next htext =>
      obtain ⟨rest, hrest⟩ := List.isPrefixOf_iff_prefix.mp htext
      rw [← hrest, List.drop_left]
      split
      · next dotted more =>
        have hpath := joined_eq_append hp hq hne hrest.symm
        refine absurd ⟨List.isPrefixOf_iff_prefix.mpr ⟨_, hpath.symm⟩, fun hc => ?_⟩ hpre
        rw [hc] at hpath
        exact List.splitOn_ne_nil 0x2e more (List.self_eq_append_right.mp hpath)
      · rfl
    · rfl

theorem packagePath_eq {file : FileDescriptor} (h : file.package.isEmpty = false) :
    file.packagePath ≠ [] ∧ joined 0x2e file.packagePath = file.package := by
  rw [FileDescriptor.packagePath, h]
  exact ⟨List.splitOn_ne_nil _ _, joined_splitOn _⟩

/-- The lookup of a full name in a file finds the type with this path. -/
theorem findAbsoluteInFile_joined {file : FileDescriptor} (hf : file.WellNamed)
    {path : List Bytes} (hp : IsPath 0x2e path) :
    findAbsoluteInFile file (joined 0x2e path) = file.typeNamed path := by
  rw [findAbsoluteInFile, normalizeName_joined hp]
  by_cases hempty : file.package.isEmpty = true
  · rw [if_pos hempty, findInFile_joined hp, FileDescriptor.typeNamed,
      show file.packagePath = [] by rw [FileDescriptor.packagePath, if_pos hempty]]
    rfl
  · obtain ⟨hne, htext⟩ := packagePath_eq (by simpa using hempty)
    have hstrip := stripDotted_joined hf.package hne hp
    rw [htext] at hstrip
    rw [if_neg hempty, hstrip, FileDescriptor.typeNamed]
    by_cases hpre : file.packagePath.isPrefixOf path = true
    · rw [if_pos hpre]
      by_cases heq : path = file.packagePath
      · rw [if_neg (fun hc => hc.2 heq), heq, List.drop_length, typeAt]
      · rw [if_pos ⟨hpre, heq⟩]
        exact findInFile_joined (hp.sublist (List.drop_sublist _ _))
    · rw [if_neg (fun hc => hpre hc.1), if_neg hpre]

theorem findAbsolute_joined {registry : Registry} (hr : ∀ file ∈ registry.files, file.WellNamed)
    {path : List Bytes} (hp : IsPath 0x2e path) :
    registry.findAbsolute (joined 0x2e path) = typeNamed registry.files path :=
  FirstMatch.findSome?_congr (fun file hf => findAbsoluteInFile_joined (hr file hf) hp)

/-- The lookup of a full name among the files a file can see. -/
theorem findVisible_joined {registry : Registry} {file : FileDescriptor} (hf : file.WellNamed)
    (hr : ∀ file ∈ registry.files, file.WellNamed) {path : List Bytes} (hp : IsPath 0x2e path) :
    (findAbsoluteInFile file (joined 0x2e path)).or
        (registry.findAbsoluteVisible file (joined 0x2e path))
      = typeNamed (file :: registry.files.filter (registry.fileCanSee file)) path := by
  rw [findAbsoluteInFile_joined hf hp, typeNamed, FirstMatch.findSome?_cons_or,
    FirstMatch.findSome?_filter, Registry.findAbsoluteVisible]
  congr 1
  refine FirstMatch.findSome?_congr (fun other ho => ?_)
  rw [findAbsoluteInFile_joined (hr other ho) hp]

/-! ## Names in a scope -/

theorem beforeLastDot_joined {scope : List Bytes} {part : Bytes} (h : IsPart 0x2e part) :
    beforeLastDot (joined 0x2e (scope ++ [part]))
      = if scope = [] then none else some (joined 0x2e scope) := by
  rw [beforeLastDot, reverse_dropWhile_joined h]
  by_cases hs : scope = []
  · rw [if_pos hs, if_pos hs]
  · rw [if_neg hs, if_neg hs]
    simp

/-- The scopes around a scope are the prefixes of its path, the longest first. -/
theorem enclosingScopes_joined {scope : List Bytes} (h : IsPath 0x2e scope) (hne : scope ≠ [])
    {fuel : Nat} (hf : scope.length ≤ fuel) :
    enclosingScopes fuel (joined 0x2e scope) ++ [[]]
      = scope.inits.reverse.map (joined 0x2e) := by
  induction scope using List.reverseRecOn generalizing fuel with
  | nil => exact absurd rfl hne
  | append_singleton scope part ih =>
      cases fuel with
      | zero => simp at hf
      | succ fuel =>
          have hpart : IsPart 0x2e part := h part (by simp)
          have hscope : IsPath 0x2e scope := h.sublist (List.sublist_append_left _ _)
          rw [enclosingScopes, beforeLastDot_joined hpart, List.inits_append]
          by_cases hs : scope = []
          · subst hs
            simp
          · rw [if_neg hs]
            have hlen : scope.length ≤ fuel := by
              rw [List.length_append, List.length_singleton] at hf
              omega
            have hrec := ih hscope hs hlen
            simp only [List.cons_append, hrec]
            simp

theorem normalizeName_of_not_absolute {name : Bytes} (h : isAbsolute name = false) :
    normalizeName name = name := by
  unfold normalizeName
  split
  · exact absurd h (by simp [isAbsolute])
  · rfl

/-- A full name that the lookups try: it fits their buffer, or is the name as it is written. -/
def isTried (name : Bytes) (path : List Bytes) : Bool :=
  path == components name || (joined 0x2e path).length ≤ scopeBufferSize

theorem isTried_append {outer : List Bytes} (hne : outer ≠ []) {name : Bytes}
    (ha : isAbsolute name = false) :
    isTried name (outer ++ components name)
      = decide ((joined 0x2e outer).length + 1 + name.length ≤ scopeBufferSize) := by
  have hname : joined 0x2e (components name) = name := by
    rw [joined_components, normalizeName_of_not_absolute ha]
  have hbeq : (outer ++ components name == components name) = false := by
    rw [beq_eq_false_iff_ne]
    exact fun hc => hne (List.append_left_eq_self.mp hc)
  rw [isTried, hbeq, Bool.false_or, joined_append hne (components_ne_nil name), hname,
    List.length_append, List.length_cons, ← Nat.add_assoc, Nat.add_right_comm]

/-- The candidates of the registry are the names in the scope that its lookups try. -/
theorem candidates_eq {scope : List Bytes} (hs : IsPath 0x2e scope) (hne : scope ≠ [])
    {name : Bytes} (ha : isAbsolute name = false) :
    candidates (some (joined 0x2e scope)) name
      = ((namesInScope scope name).filter (isTried name)).map (joined 0x2e) := by
  have hname : joined 0x2e (components name) = name := by
    rw [joined_components, normalizeName_of_not_absolute ha]
  obtain ⟨outers, hinits, houters⟩ : ∃ outers, scope.inits = [] :: outers
      ∧ ∀ outer ∈ outers, outer ≠ [] := by
    cases scope with
    | nil => exact absurd rfl hne
    | cons part scope =>
        refine ⟨_, List.inits_cons part scope, fun outer ho => ?_⟩
        obtain ⟨inner, _, rfl⟩ := List.mem_map.mp ho
        exact List.cons_ne_nil part inner
  have hlen : scope.length ≤ (joined 0x2e scope).length + 1 :=
    Nat.le_succ_of_le (length_le_joined hs)
  have hscopes := enclosingScopes_joined hs hne hlen
  rw [hinits, List.reverse_cons, List.map_append] at hscopes
  have hscopes := List.append_cancel_right hscopes
  have hlast : isTried name (components name) = true := by simp [isTried]
  rw [candidates, hscopes, namesInScope, if_neg (by simpa using ha), hinits, List.reverse_cons,
    List.map_append, List.filter_append, List.map_append, List.filter_map, List.filter_map,
    List.map_map, List.map_map]
  congr 1
  · have hkeep : outers.reverse.filter
        ((fun current : Bytes => decide (current.length + 1 + name.length ≤ scopeBufferSize))
          ∘ joined 0x2e)
        = outers.reverse.filter (isTried name ∘ fun outer => outer ++ components name) := by
      refine List.filter_congr (fun outer ho => ?_)
      rw [List.mem_reverse] at ho
      exact (isTried_append (houters outer ho) ha).symm
    rw [hkeep]
    refine List.map_congr_left (fun outer ho => ?_)
    have ho' := List.mem_reverse.mp (List.mem_filter.mp ho).1
    simp only [Function.comp]
    rw [joined_append (houters outer ho') (components_ne_nil name), hname]
  · simp [hlast, hname]

/-- Where the name fits the buffer under the whole scope, all names in the scope are tried. -/
theorem isTried_of_fits {scope : List Bytes} {name : Bytes} (ha : isAbsolute name = false)
    (hfit : (joined 0x2e scope).length + 1 + name.length ≤ scopeBufferSize) :
    ∀ path ∈ namesInScope scope name, isTried name path = true := by
  intro path hp
  rw [namesInScope, if_neg (by simpa using ha)] at hp
  obtain ⟨outer, ho, rfl⟩ := List.mem_map.mp hp
  by_cases houter : outer = []
  · simp [houter, isTried]
  · obtain ⟨inner, hinner⟩ : outer <+: scope := by simpa using ho
    have hlen : (joined 0x2e outer).length ≤ (joined 0x2e scope).length := by
      rw [← hinner]
      by_cases hi : inner = []
      · rw [hi, List.append_nil]
      · rw [joined_append houter hi, List.length_append]
        omega
    rw [isTried_append houter ha, decide_eq_true_eq]
    omega

theorem isPath_of_mem_namesInScope {scope path : List Bytes} (hs : IsPath 0x2e scope)
    {name : Bytes} (hn : IsTypeName name) (h : path ∈ namesInScope scope name) :
    IsPath 0x2e path := by
  unfold namesInScope at h
  split at h
  · rw [List.mem_singleton.mp h]
    exact hn.isPath
  · obtain ⟨outer, ho, rfl⟩ := List.mem_map.mp h
    have hprefix : outer <+: scope := by simpa using ho
    exact (hs.sublist hprefix.sublist).append hn.isPath

theorem not_absolute {name : Bytes} (h : ∀ rest, name ≠ 0x2e :: rest) :
    isAbsolute name = false := by
  cases name with
  | nil => rfl
  | cons b rest =>
      by_contra hc
      have hb : b = 0x2e := by simpa [isAbsolute] using hc
      exact h rest (by rw [hb])

/-- What a lookup in a scope tries, one name after the other. -/
theorem findSome?_tried {scope : List Bytes} (hs : IsPath 0x2e scope) (hne : scope ≠ [])
    {name : Bytes} (hn : IsTypeName name) {find : Bytes → Option TypeRef}
    {files : List FileDescriptor}
    (hfind : ∀ path, IsPath 0x2e path → find (joined 0x2e path) = typeNamed files path) :
    (match name with
      | 0x2e :: rest => find rest
      | _ => (candidates (some (joined 0x2e scope)) name).findSome? find)
      = ((namesInScope scope name).filter (isTried name)).findSome? (typeNamed files) := by
  split
  · next rest =>
    have hrest : joined 0x2e (components (0x2e :: rest)) = rest := joined_components _
    have ha : isAbsolute (0x2e :: rest) = true := rfl
    rw [namesInScope, if_pos ha, List.filter_cons_of_pos (by simp [isTried]), List.filter_nil,
      List.findSome?_singleton, ← hfind _ hn.isPath, hrest]
  · next hdot =>
    rw [candidates_eq hs hne (not_absolute hdot), List.findSome?_map]
    exact FirstMatch.findSome?_congr (fun path hp =>
      hfind path (isPath_of_mem_namesInScope hs hn (List.mem_filter.mp hp).1))

/-- Where all names in the scope fit the buffer, the lookup finds the designated type. -/
theorem findSome?_candidates {scope : List Bytes} (hs : IsPath 0x2e scope) (hne : scope ≠ [])
    {name : Bytes} (hn : IsTypeName name)
    (hfit : (joined 0x2e scope).length + 1 + name.length ≤ scopeBufferSize)
    {find : Bytes → Option TypeRef} {files : List FileDescriptor}
    (hfind : ∀ path, IsPath 0x2e path → find (joined 0x2e path) = typeNamed files path) :
    (match name with
      | 0x2e :: rest => find rest
      | _ => (candidates (some (joined 0x2e scope)) name).findSome? find)
      = designated files scope name := by
  rw [findSome?_tried hs hne hn hfind, designated, List.filter_eq_self.mpr]
  by_cases ha : isAbsolute name = true
  · rw [namesInScope, if_pos ha]
    simp [isTried]
  · exact isTried_of_fits (by simpa using ha) hfit

/-- The lookup in the files of a registry finds the designated type. -/
theorem findType_eq {registry : Registry} (hr : ∀ file ∈ registry.files, file.WellNamed)
    {scope : List Bytes} (hs : IsPath 0x2e scope) (hne : scope ≠ []) {name : Bytes}
    (hn : IsTypeName name)
    (hfit : (joined 0x2e scope).length + 1 + name.length ≤ scopeBufferSize) :
    registry.findType name (some (joined 0x2e scope)) = designated registry.files scope name :=
  findSome?_candidates hs hne hn hfit (fun _ hp => findAbsolute_joined hr hp)

/-- The lookup in the files that a file can see finds the designated type. -/
theorem findTypeVisible_eq {registry : Registry} {file : FileDescriptor} (hf : file.WellNamed)
    (hr : ∀ file ∈ registry.files, file.WellNamed) {scope : List Bytes} (hs : IsPath 0x2e scope)
    (hne : scope ≠ []) {name : Bytes} (hn : IsTypeName name)
    (hfit : (joined 0x2e scope).length + 1 + name.length ≤ scopeBufferSize) :
    registry.findTypeVisible file name (some (joined 0x2e scope))
      = designated (file :: registry.files.filter (registry.fileCanSee file)) scope name :=
  findSome?_candidates hs hne hn hfit (fun _ hp => findVisible_joined hf hr hp)

end Pbz
