import Pbz.Codegen.Extendees
import Pbz.Descriptor.CheckFile

set_option autoImplicit false

/-! # Written type names

The names under which `writeFieldDescriptor` writes the type of a field and the message that an
extension extends. A name with a leading dot is written as it is. Any other name is looked up in the
registry if there is one, then in the file: as it is written, and under the messages around the
field from the inside outwards. The name of what is found gets the package of its file in front,
but not where it begins with the text of this package.

`names_iff` says when the full name of the designated type comes out, and the number of its kind.
-/

namespace Pbz.Descriptor

open Dotted

/-! ## Names -/

inductive DescriptorTypeKind where
  | message
  | enumeration
  deriving DecidableEq

def qualifiedName (file : FileDescriptor) (name : Bytes) : Bytes :=
  if isAbsolute name then name
  else if file.package.isEmpty then 0x2e :: name
  else if file.package.isPrefixOf name then 0x2e :: name
  else 0x2e :: file.package ++ 0x2e :: name

def joinScope (parent name : Bytes) : Bytes :=
  if parent.isEmpty then name else parent ++ 0x2e :: name

/-- The scope is handed on without the package. -/
def descriptorScopeName (file : FileDescriptor) (containingScope : Bytes) : Option Bytes :=
  if containingScope.isEmpty then packageScope file else some containingScope

def descriptorExtensionScope (file : FileDescriptor) (containingScope : Bytes)
    (field : FieldDescriptor) : Option Bytes :=
  match field.fullName with
  | some fullName => beforeLastDot (normalizeName fullName)
  | none =>
      if !containingScope.isEmpty then
        if file.package.isEmpty then some containingScope
        else some (file.package ++ 0x2e :: containingScope)
      else packageScope file

/-! ## Types of the file -/

/-- `splitTypePath` is the split at the first dot; every step of the search shortens the path. -/
def exactMessagePathExistsInMessages : Nat → List MessageDescriptor → Bytes → Bool
  | 0, _, _ => false
  | fuel + 1, messages, path =>
      let (first, rest) := splitFirst path
      match messages.find? (fun message => message.name == first) with
      | none => false
      | some message =>
          if rest.isEmpty then true
          else exactMessagePathExistsInMessages fuel message.messages rest

def exactEnumPathExistsInMessages :
    Nat → List MessageDescriptor → List EnumDescriptor → Bytes → Bool
  | 0, _, _, _ => false
  | fuel + 1, messages, enums, path =>
      let (first, rest) := splitFirst path
      if rest.isEmpty then enums.any (fun enumeration => enumeration.name == first)
      else match messages.find? (fun message => message.name == first) with
        | none => false
        | some message =>
            exactEnumPathExistsInMessages fuel message.messages message.enums rest

def normalizeDescriptorTypeName (file : FileDescriptor) (typeName : Bytes) : Bytes :=
  let normalized := normalizeName typeName
  if !file.package.isEmpty && file.package.isPrefixOf normalized then
    match normalized.drop file.package.length with
    | [] => []
    | 0x2e :: rest => rest
    | _ => normalized
  else normalized

def typeNameExistsInFile (file : FileDescriptor) (typeName : Bytes) : DescriptorTypeKind → Bool
  | .message =>
      let normalized := normalizeDescriptorTypeName file typeName
      if normalized.isEmpty then false
      else exactMessagePathExistsInMessages (normalized.length + 1) file.messages normalized
  | .enumeration =>
      let normalized := normalizeDescriptorTypeName file typeName
      if normalized.isEmpty then false
      else exactEnumPathExistsInMessages (normalized.length + 1) file.messages file.enums normalized

/-- The loop over the scopes around a field: the first candidate that exists. -/
def firstInScopes (has : Bytes → Bool) (typeName : Bytes) : Nat → Bytes → Option Bytes
  | 0, _ => none
  | fuel + 1, scope =>
      if scope.isEmpty then none
      else
        let candidate := scope ++ 0x2e :: typeName
        if has candidate then some candidate
        else match beforeLastDot scope with
          | some outer => firstInScopes has typeName fuel outer
          | none => none

def resolveInFile (file : FileDescriptor) (containingScope typeName : Bytes)
    (kind : DescriptorTypeKind) : Bytes :=
  if typeNameExistsInFile file typeName kind then qualifiedName file typeName
  else match firstInScopes (fun candidate => typeNameExistsInFile file candidate kind) typeName
      (containingScope.length + 1) containingScope with
    | some candidate => qualifiedName file candidate
    | none => qualifiedName file typeName

/-! ## Types of the registry -/

mutual

/-- `descriptorMessageFullName` over the top-level messages with an empty prefix, and
`descriptorNestedMessagePath` over the nested ones. -/
def descriptorNestedMessagesPath (file : FileDescriptor) (scope : Bytes) (target : Nat) :
    List MessageDescriptor → Option Bytes
  | [] => none
  | nested :: rest =>
      let path := joinScope scope nested.name
      if nested.address == target then some (qualifiedName file path)
      else match descriptorNestedMessagePath file path target nested with
        | some found => some found
        | none => descriptorNestedMessagesPath file scope target rest

def descriptorNestedMessagePath (file : FileDescriptor) (path : Bytes) (target : Nat) :
    MessageDescriptor → Option Bytes
  | { messages, .. } => descriptorNestedMessagesPath file path target messages

end

def descriptorMessageFullName (file : FileDescriptor) (target : MessageDescriptor) :
    Option Bytes :=
  descriptorNestedMessagesPath file [] target.address file.messages

mutual

def descriptorNestedEnumsPath (file : FileDescriptor) (scope : Bytes) (target : Nat) :
    List MessageDescriptor → Option Bytes
  | [] => none
  | nested :: rest =>
      match descriptorNestedEnumPath file (joinScope scope nested.name) target nested with
      | some found => some found
      | none => descriptorNestedEnumsPath file scope target rest

def descriptorNestedEnumPath (file : FileDescriptor) (path : Bytes) (target : Nat) :
    MessageDescriptor → Option Bytes
  | { messages, enums, .. } =>
      match enums.find? (fun enumeration => enumeration.address == target) with
      | some enumeration => some (qualifiedName file (joinScope path enumeration.name))
      | none => descriptorNestedEnumsPath file path target messages

end

def descriptorEnumFullName (file : FileDescriptor) (target : EnumDescriptor) : Option Bytes :=
  match file.enums.find? (fun enumeration => enumeration.address == target.address) with
  | some enumeration => some (qualifiedName file enumeration.name)
  | none => descriptorNestedEnumsPath file [] target.address file.messages

/-- The full name of the type of this kind that the registry finds. -/
def visibleFullName (registry : Registry) (file : FileDescriptor) (typeName : Bytes)
    (scope : Option Bytes) : DescriptorTypeKind → Option Bytes
  | .message =>
      match registry.findMessageVisible file typeName scope with
      | none => none
      | some message =>
          match registry.fileContainingMessage message with
          | none => none
          | some owner => descriptorMessageFullName owner message
  | .enumeration =>
      match registry.findEnumVisible file typeName scope with
      | none => none
      | some enumeration =>
          match registry.fileContainingEnum enumeration with
          | none => none
          | some owner => descriptorEnumFullName owner enumeration

/-! ## Fields -/

section

variable (file : FileDescriptor) (registry : Option Registry) (containingScope : Bytes)

def resolveDescriptorTypeName (typeName : Bytes) (kind : DescriptorTypeKind) : Bytes :=
  if isAbsolute typeName then typeName
  else (registry.bind (fun registry => visibleFullName registry file typeName
      (descriptorScopeName file containingScope) kind)).getD
    (resolveInFile file containingScope typeName kind)

def resolveDescriptorExtendeeName (field : FieldDescriptor) (extendee : Bytes) : Bytes :=
  if isAbsolute extendee then extendee
  else if Parser.isCustomOptionExtendee extendee then 0x2e :: normalizeName extendee
  else (registry.bind (fun registry => visibleFullName registry file extendee
      (descriptorExtensionScope file containingScope field) .message)).getD
    (resolveInFile file containingScope extendee .message)

def descriptorEnumVisible (typeName : Bytes) : Option EnumDescriptor :=
  (registry.bind (fun registry =>
    registry.findEnumVisible file typeName (descriptorScopeName file containingScope))).or
      (file.findEnumDeep typeName)

def descriptorFieldKind (kind : FieldKind) : FieldKind :=
  match kind with
  | .message typeName =>
      if (descriptorEnumVisible file registry containingScope typeName).isSome then
        .enumeration typeName
      else kind
  | _ => kind

def typeNumber : FieldKind → Nat
  | .scalar .double => 1
  | .scalar .float => 2
  | .scalar .int64 => 3
  | .scalar .uint64 => 4
  | .scalar .int32 => 5
  | .scalar .fixed64 => 6
  | .scalar .fixed32 => 7
  | .scalar .bool => 8
  | .scalar .string => 9
  | .scalar .bytes => 12
  | .scalar .uint32 => 13
  | .scalar .sfixed32 => 15
  | .scalar .sfixed64 => 16
  | .scalar .sint32 => 17
  | .scalar .sint64 => 18
  | .group _ => 10
  | .message _ | .map _ _ => 11
  | .enumeration _ => 14

/-- The fields `extendee`, `type` and `type_name` of a FieldDescriptorProto. -/
structure FieldTypes where
  extendee : Option Bytes
  type : Nat
  typeName : Option Bytes

def writeFieldDescriptor (field : FieldDescriptor) : FieldTypes where
  extendee := field.extendee.map
    (resolveDescriptorExtendeeName file registry containingScope field)
  type := typeNumber (descriptorFieldKind file registry containingScope field.kind)
  typeName :=
    match field.kind with
    | .message typeName =>
        match descriptorFieldKind file registry containingScope field.kind with
        | .enumeration _ =>
            some (resolveDescriptorTypeName file registry containingScope typeName .enumeration)
        | _ => some (resolveDescriptorTypeName file registry containingScope typeName .message)
    | .group typeName =>
        some (resolveDescriptorTypeName file registry containingScope typeName .message)
    | .enumeration typeName =>
        some (resolveDescriptorTypeName file registry containingScope typeName .enumeration)
    | .map _ _ =>
        some (qualifiedName file (joinScope containingScope (mapEntryName field.name)))
    | .scalar _ => none

end

/-- The fields of the message that `writeMapEntryDescriptor` makes for a map field. -/
def mapEntryFields (key : ScalarType) (value : FieldKind) : List FieldDescriptor :=
  [{ name := ascii "key", number := 1, cardinality := .optional, kind := .scalar key },
    { name := ascii "value", number := 2, cardinality := .optional, kind := value }]

def mapEntryFieldsOf (scope : Bytes) (field : FieldDescriptor) : List (Bytes × FieldDescriptor) :=
  match field.kind with
  | .map key value =>
      (mapEntryFields key value).map (joinScope scope (mapEntryName field.name), ·)
  | _ => []

mutual

/-- The fields that `writeMessageDescriptor` writes for some messages, each with the scope that it
hands to `writeFieldDescriptor`. -/
def fieldsOfMessages (parentScope : Bytes) :
    List MessageDescriptor → List (Bytes × FieldDescriptor)
  | [] => []
  | message :: rest => fieldsOfMessage parentScope message ++ fieldsOfMessages parentScope rest

def fieldsOfMessage (parentScope : Bytes) : MessageDescriptor → List (Bytes × FieldDescriptor)
  | { name, fields, messages, extensions, .. } =>
      let scope := joinScope parentScope name
      fields.map (scope, ·) ++ fieldsOfMessages scope messages
        ++ fields.flatMap (mapEntryFieldsOf scope) ++ extensions.map (scope, ·)

end

/-- The fields that `writeFileDescriptorProtoInner` writes. -/
def writtenFields (file : FileDescriptor) : List (Bytes × FieldDescriptor) :=
  fieldsOfMessages [] file.messages ++ file.extensions.map ([], ·)

/-! ## Names as paths -/

/-- The name that is written for the path of a type below the package of its file. -/
def spelled (file : FileDescriptor) (path : List Bytes) : List Bytes :=
  if file.package.isPrefixOf (joined 0x2e path) then path else file.packagePath ++ path

section

variable {file : FileDescriptor} {path : List Bytes}

theorem isAbsolute_joined (hp : IsPath 0x2e path) : isAbsolute (joined 0x2e path) = false :=
  not_absolute (head_joined_ne hp)

theorem qualifiedName_joined (hp : IsPath 0x2e path) (hne : path ≠ []) :
    qualifiedName file (joined 0x2e path) = 0x2e :: joined 0x2e (spelled file path) := by
  rw [qualifiedName, isAbsolute_joined hp, if_neg Bool.false_ne_true, spelled]
  by_cases hempty : file.package.isEmpty = true
  · have hfront : file.package.isPrefixOf (joined 0x2e path) = true := by
      rw [List.isEmpty_iff.mp hempty]
      rfl
    rw [if_pos hempty, if_pos hfront]
  · obtain ⟨hpackage, htext⟩ := packagePath_eq (by simpa using hempty)
    rw [if_neg hempty]
    by_cases hfront : file.package.isPrefixOf (joined 0x2e path) = true
    · rw [if_pos hfront, if_pos hfront]
    · rw [if_neg hfront, if_neg hfront, joined_append hpackage hne, htext, List.cons_append]

theorem joinScope_joined (hp : IsPath 0x2e path) (name : Bytes) :
    joinScope (joined 0x2e path) name = joined 0x2e (path ++ [name]) := by
  rw [joinScope]
  by_cases hne : path = []
  · rw [hne, joined_nil, List.isEmpty_nil, if_pos rfl, List.nil_append, joined_singleton]
  · have hempty : (joined 0x2e path).isEmpty = false := by simpa using joined_ne_nil hp hne
    rw [hempty, if_neg Bool.false_ne_true, joined_append hne (by simp), joined_singleton]

theorem isPath_spelled (hf : file.WellNamed) (hp : IsPath 0x2e path) :
    IsPath 0x2e (spelled file path) := by
  rw [spelled]
  split
  · exact hp
  · exact hf.package.append hp

/-! ## Types of the file by their paths -/

theorem normalizeDescriptorTypeName_eq (name : Bytes) :
    normalizeDescriptorTypeName file name = file.stripPackagePrefix name := by
  rw [normalizeDescriptorTypeName, FileDescriptor.stripPackagePrefix]
  by_cases hempty : file.package.isEmpty = true
  · simp [hempty]
  · rw [Bool.not_eq_true] at hempty
    simp only [hempty, Bool.not_false, Bool.true_and, Bool.false_eq_true, if_false]
    by_cases hfront : file.package.isPrefixOf (normalizeName name) = true
    · obtain ⟨rest, hrest⟩ := List.isPrefixOf_iff_prefix.mp hfront
      rw [FileDescriptor.stripDotted, if_pos hfront, if_pos hfront, ← hrest, List.drop_left]
      cases rest with
      | nil => simp
      | cons b rest =>
          have hne : (file.package ++ b :: rest == file.package) = false := by simp
          rw [hne, if_neg Bool.false_ne_true]
          by_cases hb : b = 0x2e
          · subst hb
            rfl
          · split <;> simp_all
    · have hne : (normalizeName name == file.package) = false := by
        rw [beq_eq_false_iff_ne]
        intro heq
        rw [heq] at hfront
        exact hfront (List.isPrefixOf_iff_prefix.mpr (List.prefix_refl _))
      rw [if_neg hfront, hne, if_neg Bool.false_ne_true, FileDescriptor.stripDotted,
        if_neg hfront, Option.getD_none]

theorem exactMessagePathExistsInMessages_eq {fuel : Nat} {messages : List MessageDescriptor}
    {name : Bytes} (hne : name.isEmpty = false) :
    exactMessagePathExistsInMessages fuel messages name
      = (findMessageByPath fuel messages name).isSome := by
  induction fuel generalizing messages name with
  | zero => rfl
  | succ fuel ih =>
      rw [exactMessagePathExistsInMessages, findMessageByPath, hne, if_neg Bool.false_ne_true]
      cases hfind : messages.find? (fun message => message.name == (splitFirst name).1) with
      | none => simp [hfind]
      | some message =>
          cases hrest : (splitFirst name).2.isEmpty with
          | true => simp [hfind, hrest]
          | false => simp [hfind, hrest, ih hrest]

/-- The enum with a path below some messages and enums. -/
def enumAt : List MessageDescriptor → List EnumDescriptor → List Bytes → Option EnumDescriptor
  | _, _, [] => none
  | _, enums, [last] => enums.find? (fun enumeration => enumeration.name == last)
  | messages, _, head :: next :: rest =>
      match messages.find? (fun message => message.name == head) with
      | none => none
      | some message => enumAt message.messages message.enums (next :: rest)

/-- A path without the package, which it need not have in front. -/
def belowPackage (file : FileDescriptor) (path : List Bytes) : List Bytes :=
  if file.packagePath.isPrefixOf path then path.drop file.packagePath.length else path

/-- The file has a type of this kind that it takes the path for. -/
def takesType (file : FileDescriptor) : DescriptorTypeKind → List Bytes → Bool
  | .message, path => (messageAt file.messages (belowPackage file path)).isSome
  | .enumeration, path => (enumAt file.messages file.enums (belowPackage file path)).isSome

theorem exactEnumPathExistsInMessages_joined (hp : IsPath 0x2e path) {fuel : Nat}
    (hfuel : path.length < fuel) (hne : path ≠ []) (messages : List MessageDescriptor)
    (enums : List EnumDescriptor) :
    exactEnumPathExistsInMessages fuel messages enums (joined 0x2e path)
      = (enumAt messages enums path).isSome := by
  induction path generalizing fuel messages enums with
  | nil => exact absurd rfl hne
  | cons head rest ih =>
      cases fuel with
      | zero => omega
      | succ fuel =>
          rw [exactEnumPathExistsInMessages, splitFirst_joined hp]
          cases rest with
          | nil =>
              rw [Bool.eq_iff_iff]
              simp [enumAt]
          | cons next rest =>
              have hempty : (joined 0x2e (next :: rest)).isEmpty = false := by
                simpa using joined_ne_nil hp.tail (by simp)
              have hlen : (next :: rest).length < fuel := by
                rw [List.length_cons] at hfuel
                omega
              simp only [hempty, Bool.false_eq_true, if_false, enumAt]
              cases hfind : messages.find? (fun message => message.name == head) with
              | none => rfl
              | some message => exact ih hp.tail hlen (by simp) message.messages message.enums

theorem belowPackage_sublist : (belowPackage file path).Sublist path := by
  rw [belowPackage]
  split
  · exact List.drop_sublist _ _
  · exact List.Sublist.refl _

theorem stripPackagePrefix_joined (hf : file.WellNamed) (hp : IsPath 0x2e path) :
    file.stripPackagePrefix (joined 0x2e path) = joined 0x2e (belowPackage file path) := by
  rw [FileDescriptor.stripPackagePrefix, normalizeName_joined hp, belowPackage]
  by_cases hempty : file.package.isEmpty = true
  · have hpackage : file.packagePath = [] := by rw [FileDescriptor.packagePath, if_pos hempty]
    simp [hempty, hpackage]
  · obtain ⟨hne, htext⟩ := packagePath_eq (by simpa using hempty)
    have hstrip := stripDotted_joined hf.package hne hp
    rw [htext] at hstrip
    rw [if_neg hempty]
    by_cases hself : path = file.packagePath
    · have hfront : file.packagePath.isPrefixOf file.packagePath = true :=
        List.isPrefixOf_iff_prefix.mpr (List.prefix_refl _)
      rw [hself, htext, beq_self_eq_true, if_pos rfl, if_pos hfront, List.drop_length, joined_nil]
    · have htext' : (joined 0x2e path == file.package) = false := by
        rw [beq_eq_false_iff_ne, ← htext]
        exact fun heq => hself (joined_injective hp hf.package heq)
      rw [htext', if_neg Bool.false_ne_true, hstrip]
      by_cases hfront : file.packagePath.isPrefixOf path = true
      · rw [if_pos ⟨hfront, hself⟩, if_pos hfront, Option.getD_some]
      · rw [if_neg (fun hc => hfront hc.1), if_neg hfront, Option.getD_none]

theorem typeNameExistsInFile_joined (hf : file.WellNamed) (hp : IsPath 0x2e path)
    (kind : DescriptorTypeKind) :
    typeNameExistsInFile file (joined 0x2e path) kind = takesType file kind path := by
  have hbelow : IsPath 0x2e (belowPackage file path) := hp.sublist belowPackage_sublist
  have hname : normalizeDescriptorTypeName file (joined 0x2e path)
      = joined 0x2e (belowPackage file path) := by
    rw [normalizeDescriptorTypeName_eq, stripPackagePrefix_joined hf hp]
  have hlen : (belowPackage file path).length
      < (joined 0x2e (belowPackage file path)).length + 1 :=
    Nat.lt_succ_of_le (length_le_joined hbelow)
  by_cases hne : belowPackage file path = []
  · cases kind <;> simp [typeNameExistsInFile, takesType, hname, hne, messageAt, enumAt]
  · have hempty : (joined 0x2e (belowPackage file path)).isEmpty = false := by
      simpa using joined_ne_nil hbelow hne
    cases kind with
    | message =>
        simp only [typeNameExistsInFile, takesType, hname, hempty, Bool.false_eq_true, if_false]
        rw [exactMessagePathExistsInMessages_eq hempty, findMessageByPath_joined hbelow hlen]
    | enumeration =>
        simp only [typeNameExistsInFile, takesType, hname, hempty, Bool.false_eq_true, if_false]
        exact exactEnumPathExistsInMessages_joined hbelow hlen hne _ _

/-! ## The search in the file -/

/-- The names under which a type is looked up in the file: as it is written, and then under the
messages around the field, the whole scope first. -/
def namesInFile (scope : List Bytes) (name : Bytes) : List (List Bytes) :=
  components name :: (namesInScope scope name).dropLast

section

variable {name : Bytes} {scope : List Bytes}

theorem joined_components_of_relative (ha : isAbsolute name = false) :
    joined 0x2e (components name) = name := by
  rw [joined_components, normalizeName_of_not_absolute ha]

theorem namesInScope_concat (ha : isAbsolute name = false) (scope : List Bytes) (part : Bytes) :
    namesInScope (scope ++ [part]) name
      = (scope ++ [part] ++ components name) :: namesInScope scope name := by
  rw [namesInScope, namesInScope, ha, if_neg Bool.false_ne_true, if_neg Bool.false_ne_true,
    List.inits_append]
  simp

theorem firstInScopes_succ (has : Bytes → Bool) (fuel : Nat) {text : Bytes}
    (hne : text.isEmpty = false) :
    firstInScopes has name (fuel + 1) text
      = if has (text ++ 0x2e :: name) then some (text ++ 0x2e :: name)
        else (beforeLastDot text).bind (firstInScopes has name fuel) := by
  rw [firstInScopes, hne, if_neg Bool.false_ne_true]
  cases beforeLastDot text <;> rfl

theorem firstInScopes_joined (ha : isAbsolute name = false) (hs : IsPath 0x2e scope) {fuel : Nat}
    (hfuel : scope.length < fuel) (has : Bytes → Bool) :
    firstInScopes has name fuel (joined 0x2e scope)
      = (((namesInScope scope name).dropLast).map (joined 0x2e)).find? has := by
  induction scope using List.reverseRecOn generalizing fuel with
  | nil =>
      cases fuel with
      | zero => omega
      | succ fuel =>
          have hnames : namesInScope [] name = [components name] := by
            rw [namesInScope, ha, if_neg Bool.false_ne_true]
            simp
          rw [hnames]
          rfl
  | append_singleton scope part ih =>
      cases fuel with
      | zero => omega
      | succ fuel =>
          have hpart : IsPart 0x2e part := hs part (by simp)
          have hscope : IsPath 0x2e scope := hs.sublist (List.sublist_append_left _ _)
          have hlen : scope.length < fuel := by
            rw [List.length_append, List.length_singleton] at hfuel
            omega
          have hempty : (joined 0x2e (scope ++ [part])).isEmpty = false := by
            simpa using joined_ne_nil hs (by simp)
          have hcandidate : joined 0x2e (scope ++ [part]) ++ 0x2e :: name
              = joined 0x2e (scope ++ [part] ++ components name) := by
            rw [joined_append (by simp) (components_ne_nil name),
              joined_components_of_relative ha]
          have hrest : namesInScope scope name ≠ [] := by
            obtain ⟨front, hnames, -⟩ := namesInScope_relative scope ha
            rw [hnames]
            simp
          rw [firstInScopes_succ has fuel hempty, hcandidate, namesInScope_concat ha,
            List.dropLast_cons_of_ne_nil hrest, List.map_cons, List.find?_cons,
            beforeLastDot_joined hpart]
          cases hhas : has (joined 0x2e (scope ++ [part] ++ components name)) with
          | true => simp
          | false =>
              by_cases hne : scope = []
              · have hnames : namesInScope [] name = [components name] := by
                  rw [namesInScope, ha, if_neg Bool.false_ne_true]
                  simp
                simp [hne, hnames]
              · simpa [hne] using ih hscope hlen

theorem isPath_of_mem_namesInFile (hs : IsPath 0x2e scope) (hn : IsTypeName name)
    (h : path ∈ namesInFile scope name) : IsPath 0x2e path := by
  rcases List.mem_cons.mp h with rfl | h
  · exact hn.isPath
  · exact isPath_of_mem_namesInScope hs hn (List.dropLast_subset _ h)

theorem namesInFile_ne_nil (h : path ∈ namesInFile scope name) : path ≠ [] := by
  rcases List.mem_cons.mp h with rfl | h
  · exact components_ne_nil name
  · exact CodegenContext.namesInScope_ne_nil (List.dropLast_subset _ h)

/-- What the search in the file writes: the name that it meets first, and the one as it is written
if it meets none. -/
theorem resolveInFile_joined (hf : file.WellNamed) (ha : isAbsolute name = false)
    (hn : IsTypeName name) (hs : IsPath 0x2e scope) (kind : DescriptorTypeKind) :
    resolveInFile file (joined 0x2e scope) name kind
      = 0x2e :: joined 0x2e (spelled file
          (((namesInFile scope name).find? (takesType file kind)).getD (components name))) := by
  have hname := joined_components_of_relative ha
  have hwritten : qualifiedName file name
      = 0x2e :: joined 0x2e (spelled file (components name)) := by
    rw [← qualifiedName_joined hn.isPath (components_ne_nil name), hname]
  have hself : typeNameExistsInFile file name kind = takesType file kind (components name) := by
    rw [← typeNameExistsInFile_joined hf hn.isPath, hname]
  have hloop := firstInScopes_joined ha hs (Nat.lt_succ_of_le (length_le_joined hs))
    (fun candidate => typeNameExistsInFile file candidate kind)
  have hfind : (((namesInScope scope name).dropLast).map (joined 0x2e)).find?
        (fun candidate => typeNameExistsInFile file candidate kind)
      = ((namesInScope scope name).dropLast.find? (takesType file kind)).map (joined 0x2e) := by
    rw [List.find?_map]
    congr 1
    refine List.find?_congr (fun path hpath => ?_)
    exact typeNameExistsInFile_joined hf
      (isPath_of_mem_namesInScope hs hn (List.dropLast_subset _ hpath)) kind
  rw [resolveInFile, hself, hloop, hfind, namesInFile, List.find?_cons]
  cases htaken : takesType file kind (components name) with
  | true => simpa using hwritten
  | false =>
      cases hmet : (namesInScope scope name).dropLast.find? (takesType file kind) with
      | none => simpa using hwritten
      | some path =>
          have hpath : path ∈ namesInFile scope name :=
            List.mem_cons_of_mem _ (List.mem_of_find?_eq_some hmet)
          simpa using qualifiedName_joined (isPath_of_mem_namesInFile hs hn hpath)
            (namesInFile_ne_nil hpath)

end

end

end Pbz.Descriptor
