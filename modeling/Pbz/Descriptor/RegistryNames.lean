import Pbz.Descriptor.TypeNames

set_option autoImplicit false

/-! # Type names from the registry

The full name that `descriptor.zig` writes for a type of the registry. The registry finds a pointer
to the type; the file that holds the pointer is searched for its path, and the path gets the
package of this file in front. `visibleFullName_eq` says what comes out for a name in a scope.
-/

namespace Pbz

open Dotted

namespace Descriptor

/-! ## Pointers to types -/

mutual

theorem mem_declaredTypes_message {scope path : List Bytes} {message : MessageDescriptor} :
    ∀ {messages : List MessageDescriptor}, (path, TypeRef.message message)
        ∈ declaredTypes scope messages ↔ (path, message) ∈ declaredMessages scope messages
  | [] => by simp [declaredTypes, declaredMessages]
  | first :: rest => by
      rw [declaredTypes, declaredMessages, List.mem_cons, List.mem_cons, List.mem_append,
        List.mem_append, mem_nestedTypes_message, mem_declaredTypes_message]
      simp

theorem mem_nestedTypes_message {scope path : List Bytes} {message : MessageDescriptor} :
    ∀ {outer : MessageDescriptor}, (path, TypeRef.message message) ∈ outer.nestedTypes scope ↔
      (path, message) ∈ outer.nestedMessages scope
  | { messages := messages, enums := enums, .. } => by
      rw [MessageDescriptor.nestedTypes, MessageDescriptor.nestedMessages, List.mem_append,
        mem_declaredTypes_message, mem_enumTypes]
      simp

end

mutual

/-- An enum nested in a message has its name below the path of one of them. -/
theorem exists_message_of_declaredTypes {scope path : List Bytes} {enumeration : EnumDescriptor} :
    ∀ {messages : List MessageDescriptor}, (path, TypeRef.enumeration enumeration)
        ∈ declaredTypes scope messages →
      ∃ place message, (place, message) ∈ declaredMessages scope messages ∧
        enumeration ∈ message.enums ∧ path = place ++ [enumeration.name]
  | [], h => absurd h (by simp [declaredTypes])
  | first :: rest, h => by
      rw [declaredTypes, List.mem_cons, List.mem_append] at h
      rw [declaredMessages]
      rcases h with h | h | h
      · cases h
      · rcases exists_message_of_nestedTypes h with ⟨he, hpath⟩ | ⟨place, message, hm, hrest⟩
        · exact ⟨_, first, List.mem_cons_self, he, hpath⟩
        · exact ⟨place, message, List.mem_cons_of_mem _ (List.mem_append_left _ hm), hrest⟩
      · obtain ⟨place, message, hm, hrest⟩ := exists_message_of_declaredTypes h
        exact ⟨place, message, List.mem_cons_of_mem _ (List.mem_append_right _ hm), hrest⟩

theorem exists_message_of_nestedTypes {scope path : List Bytes} {enumeration : EnumDescriptor} :
    ∀ {outer : MessageDescriptor}, (path, TypeRef.enumeration enumeration)
        ∈ outer.nestedTypes scope →
      (enumeration ∈ outer.enums ∧ path = scope ++ [enumeration.name]) ∨
        ∃ place message, (place, message) ∈ outer.nestedMessages scope ∧
          enumeration ∈ message.enums ∧ path = place ++ [enumeration.name]
  | { messages := messages, enums := enums, .. }, h => by
      rw [MessageDescriptor.nestedTypes, List.mem_append] at h
      rw [MessageDescriptor.nestedMessages]
      rcases h with h | h
      · exact .inr (exists_message_of_declaredTypes h)
      · obtain ⟨other, hother, hpair⟩ := mem_enumTypes.mp h
        obtain ⟨hpath, htype⟩ := Prod.mk.inj hpair
        cases htype
        exact .inl ⟨hother, hpath⟩

end

mutual

theorem messageListContainsEnum_of_mem {scope path : List Bytes} {enumeration : EnumDescriptor} :
    ∀ {messages : List MessageDescriptor}, (path, TypeRef.enumeration enumeration)
        ∈ declaredTypes scope messages →
      messageListContainsEnum enumeration.address messages = true
  | [], h => absurd h (by simp [declaredTypes])
  | first :: rest, h => by
      rw [declaredTypes, List.mem_cons, List.mem_append] at h
      rw [messageListContainsEnum, Bool.or_eq_true]
      rcases h with h | h | h
      · cases h
      · exact .inl (messageContainsEnum_of_mem h)
      · exact .inr (messageListContainsEnum_of_mem h)

theorem messageContainsEnum_of_mem {scope path : List Bytes} {enumeration : EnumDescriptor} :
    ∀ {outer : MessageDescriptor}, (path, TypeRef.enumeration enumeration)
        ∈ outer.nestedTypes scope → messageContainsEnum enumeration.address outer = true
  | { messages := messages, enums := enums, .. }, h => by
      rw [MessageDescriptor.nestedTypes, List.mem_append] at h
      rw [messageContainsEnum, Bool.or_eq_true]
      rcases h with h | h
      · exact .inr (messageListContainsEnum_of_mem h)
      · obtain ⟨other, hother, hpair⟩ := mem_enumTypes.mp h
        obtain ⟨-, htype⟩ := Prod.mk.inj hpair
        cases htype
        exact .inl (List.any_eq_true.mpr ⟨enumeration, hother, beq_self_eq_true _⟩)

end

/-! ## The path of a pointer -/

section

variable {file : FileDescriptor} {target : Nat} {text : Bytes}

mutual

/-- The search for the path of a message finds one where the search for the message does. -/
theorem descriptorNestedMessagesPath_isSome (scope : Bytes) : ∀ messages : List MessageDescriptor,
    (descriptorNestedMessagesPath file scope target messages).isSome
      = messageListContainsMessage target messages
  | [] => rfl
  | nested :: rest => by
      have hin := descriptorNestedMessagePath_isSome (joinScope scope nested.name) nested
      have hrest := descriptorNestedMessagesPath_isSome scope rest
      rw [descriptorNestedMessagesPath, messageListContainsMessage, ← hin, ← hrest]
      cases nested.address == target with
      | true => simp
      | false =>
          cases descriptorNestedMessagePath file (joinScope scope nested.name) target nested <;>
            simp

theorem descriptorNestedMessagePath_isSome (path : Bytes) : ∀ message : MessageDescriptor,
    (descriptorNestedMessagePath file path target message).isSome
      = messageContainsMessage target message
  | { messages := messages, .. } => by
      rw [descriptorNestedMessagePath, messageContainsMessage]
      exact descriptorNestedMessagesPath_isSome path messages

end

mutual

theorem descriptorNestedEnumsPath_isSome (scope : Bytes) : ∀ messages : List MessageDescriptor,
    (descriptorNestedEnumsPath file scope target messages).isSome
      = messageListContainsEnum target messages
  | [] => rfl
  | nested :: rest => by
      have hin := descriptorNestedEnumPath_isSome (joinScope scope nested.name) nested
      have hrest := descriptorNestedEnumsPath_isSome scope rest
      rw [descriptorNestedEnumsPath, messageListContainsEnum, ← hin, ← hrest]
      cases descriptorNestedEnumPath file (joinScope scope nested.name) target nested <;> simp

theorem descriptorNestedEnumPath_isSome (path : Bytes) : ∀ message : MessageDescriptor,
    (descriptorNestedEnumPath file path target message).isSome
      = messageContainsEnum target message
  | { messages := messages, enums := enums, .. } => by
      have hin := descriptorNestedEnumsPath_isSome path messages
      rw [descriptorNestedEnumPath, messageContainsEnum, ← hin, ← List.isSome_find?]
      cases enums.find? (fun enumeration => enumeration.address == target) <;> simp

end

mutual

/-- The search for the path of a message writes the path of one with this address. -/
theorem descriptorNestedMessagesPath_some {pre : List Bytes} (hpre : IsPath 0x2e pre) :
    ∀ {messages : List MessageDescriptor},
      (∀ pair ∈ declaredMessages (file.packagePath ++ pre) messages, IsPath 0x2e pair.1) →
      descriptorNestedMessagesPath file (joined 0x2e pre) target messages = some text →
      ∃ below message, (file.packagePath ++ below, message)
          ∈ declaredMessages (file.packagePath ++ pre) messages ∧
        message.address = target ∧ text = qualifiedName file (joined 0x2e below)
  | [], _, h => by cases h
  | nested :: rest, hpaths, h => by
      have hhead : IsPath 0x2e (pre ++ [nested.name]) := by
        have hfull := hpaths (file.packagePath ++ pre ++ [nested.name], nested)
          (by rw [declaredMessages]; exact List.mem_cons_self)
        rw [List.append_assoc] at hfull
        exact hfull.sublist (List.sublist_append_right _ _)
      rw [descriptorNestedMessagesPath, joinScope_joined hpre] at h
      rw [declaredMessages, List.append_assoc]
      cases haddress : nested.address == target with
      | true =>
          simp only [haddress, if_true, Option.some.injEq] at h
          exact ⟨_, nested, List.mem_cons_self, by simpa using haddress, h.symm⟩
      | false =>
          simp only [haddress, Bool.false_eq_true, if_false] at h
          cases hin : descriptorNestedMessagePath file (joined 0x2e (pre ++ [nested.name])) target
              nested with
          | some found =>
              have hfound : found = text := by simpa [hin] using h
              rw [hfound] at hin
              obtain ⟨below, message, hmem, hrest⟩ :=
                descriptorNestedMessagePath_some hhead (fun pair hp => hpaths pair (by
                  rw [declaredMessages, List.append_assoc]
                  exact List.mem_cons_of_mem _ (List.mem_append_left _ hp))) hin
              exact ⟨below, message, List.mem_cons_of_mem _ (List.mem_append_left _ hmem), hrest⟩
          | none =>
              obtain ⟨below, message, hmem, hrest⟩ :=
                descriptorNestedMessagesPath_some hpre (fun pair hp => hpaths pair (by
                  rw [declaredMessages]
                  exact List.mem_cons_of_mem _ (List.mem_append_right _ hp)))
                  (by simpa [hin] using h)
              exact ⟨below, message, List.mem_cons_of_mem _ (List.mem_append_right _ hmem), hrest⟩

theorem descriptorNestedMessagePath_some {pre : List Bytes} (hpre : IsPath 0x2e pre) :
    ∀ {outer : MessageDescriptor},
      (∀ pair ∈ outer.nestedMessages (file.packagePath ++ pre), IsPath 0x2e pair.1) →
      descriptorNestedMessagePath file (joined 0x2e pre) target outer = some text →
      ∃ below message, (file.packagePath ++ below, message)
          ∈ outer.nestedMessages (file.packagePath ++ pre) ∧
        message.address = target ∧ text = qualifiedName file (joined 0x2e below)
  | { messages := messages, .. }, hpaths, h => by
      rw [MessageDescriptor.nestedMessages] at hpaths ⊢
      rw [descriptorNestedMessagePath] at h
      exact descriptorNestedMessagesPath_some hpre hpaths h

end

mutual

theorem descriptorNestedEnumsPath_some {pre : List Bytes} (hpre : IsPath 0x2e pre) :
    ∀ {messages : List MessageDescriptor},
      (∀ pair ∈ declaredMessages (file.packagePath ++ pre) messages, IsPath 0x2e pair.1) →
      descriptorNestedEnumsPath file (joined 0x2e pre) target messages = some text →
      ∃ below enumeration, (file.packagePath ++ below, TypeRef.enumeration enumeration)
          ∈ declaredTypes (file.packagePath ++ pre) messages ∧
        enumeration.address = target ∧ text = qualifiedName file (joined 0x2e below)
  | [], _, h => by cases h
  | nested :: rest, hpaths, h => by
      have hhead : IsPath 0x2e (pre ++ [nested.name]) := by
        have hfull := hpaths (file.packagePath ++ pre ++ [nested.name], nested)
          (by rw [declaredMessages]; exact List.mem_cons_self)
        rw [List.append_assoc] at hfull
        exact hfull.sublist (List.sublist_append_right _ _)
      rw [descriptorNestedEnumsPath, joinScope_joined hpre] at h
      rw [declaredTypes, List.append_assoc]
      cases hin : descriptorNestedEnumPath file (joined 0x2e (pre ++ [nested.name])) target
          nested with
      | some found =>
          have hfound : found = text := by simpa [hin] using h
          rw [hfound] at hin
          obtain ⟨below, enumeration, hmem, hrest⟩ :=
            descriptorNestedEnumPath_some hhead (fun pair hp => hpaths pair (by
              rw [declaredMessages, List.append_assoc]
              exact List.mem_cons_of_mem _ (List.mem_append_left _ hp))) hin
          exact ⟨below, enumeration, List.mem_cons_of_mem _ (List.mem_append_left _ hmem), hrest⟩
      | none =>
          obtain ⟨below, enumeration, hmem, hrest⟩ :=
            descriptorNestedEnumsPath_some hpre (fun pair hp => hpaths pair (by
              rw [declaredMessages]
              exact List.mem_cons_of_mem _ (List.mem_append_right _ hp)))
              (by simpa [hin] using h)
          exact ⟨below, enumeration, List.mem_cons_of_mem _ (List.mem_append_right _ hmem), hrest⟩

theorem descriptorNestedEnumPath_some {pre : List Bytes} (hpre : IsPath 0x2e pre) :
    ∀ {outer : MessageDescriptor},
      (∀ pair ∈ outer.nestedMessages (file.packagePath ++ pre), IsPath 0x2e pair.1) →
      descriptorNestedEnumPath file (joined 0x2e pre) target outer = some text →
      ∃ below enumeration, (file.packagePath ++ below, TypeRef.enumeration enumeration)
          ∈ outer.nestedTypes (file.packagePath ++ pre) ∧
        enumeration.address = target ∧ text = qualifiedName file (joined 0x2e below)
  | { messages := messages, enums := enums, .. }, hpaths, h => by
      rw [MessageDescriptor.nestedMessages] at hpaths
      rw [MessageDescriptor.nestedTypes]
      rw [descriptorNestedEnumPath] at h
      cases hfind : enums.find? (fun enumeration => enumeration.address == target) with
      | some enumeration =>
          have hmem := enum_mem_enumTypes (file.packagePath ++ pre)
            (List.mem_of_find?_eq_some hfind)
          rw [List.append_assoc] at hmem
          refine ⟨pre ++ [enumeration.name], enumeration, List.mem_append_right _ hmem,
            by simpa using List.find?_some hfind, ?_⟩
          rw [← joinScope_joined hpre]
          simpa [hfind, eq_comm] using h
      | none =>
          obtain ⟨below, enumeration, hmem, hrest⟩ :=
            descriptorNestedEnumsPath_some hpre hpaths (by simpa [hfind] using h)
          exact ⟨below, enumeration, List.mem_append_left _ hmem, hrest⟩

end

end

/-! ## What the registry finds -/

/-- Names are identifiers, no two types have one full name, and each type is in one place. -/
structure Described (files : Registry) : Prop where
  wellNamed : ∀ file ∈ files.files, file.WellNamed
  distinct : DistinctNames (typesOf files.files)
  pointers : PointersToOne (typesOf files.files)

def DescriptorTypeKind.fits : DescriptorTypeKind → TypeRef → Bool
  | .message, .message _ => true
  | .enumeration, .enumeration _ => true
  | _, _ => false

/-- The name that is written for the type with a full name. -/
def spelledIn (files : Registry) (path : List Bytes) : List Bytes :=
  match files.files.find? (fun file => (file.typeNamed path).isSome) with
  | some file => spelled file (path.drop file.packagePath.length)
  | none => path

/-- The first of the names in a scope that the registry tries and has a type for. -/
def metName (files : Registry) (file : FileDescriptor) (scope : List Bytes) (name : Bytes) :
    Option (List Bytes) :=
  ((namesInScope scope name).filter (isTried name)).find?
    (fun path => (typeNamed (files.visibleFrom file) path).isSome)

/-- The same name, if its type is of this kind. -/
def metNameOf (files : Registry) (file : FileDescriptor) (scope : List Bytes) (name : Bytes)
    (kind : DescriptorTypeKind) : Option (List Bytes) :=
  (metName files file scope name).filter
    (fun path => (typeNamed (files.visibleFrom file) path).any kind.fits)

section

variable {files : Registry} {file owner : FileDescriptor} {path below : List Bytes}
  {type other : TypeRef}

/-- A full name is declared in one file. -/
theorem Described.file_eq (h : Described files) (hf : file ∈ files.files)
    (ho : owner ∈ files.files) (ht : (path, type) ∈ file.declaredTypes)
    (hother : (path, other) ∈ owner.declaredTypes) : file = owner := by
  by_contra hne
  have hnodup := h.distinct
  rw [DistinctNames, typesOf, List.map_flatMap, List.nodup_flatMap] at hnodup
  have hsymm : Std.Symm (Function.onFun List.Disjoint
      fun file : FileDescriptor => file.declaredTypes.map Prod.fst) := ⟨fun _ _ hd => hd.symm⟩
  have hdisjoint := hnodup.2.forall hf ho hne
  have hleft : path ∈ file.declaredTypes.map Prod.fst := List.mem_map_of_mem ht
  have hright : path ∈ owner.declaredTypes.map Prod.fst := List.mem_map_of_mem hother
  exact hdisjoint hleft hright

theorem Described.typeNamed_iff (h : Described files) (hf : file ∈ files.files) :
    file.typeNamed path = some type ↔ (path, type) ∈ file.declaredTypes :=
  FileDescriptor.typeNamed_eq_some_iff (h.distinct.sublist (typesOf_sublist hf))

/-- The path of a pointer in its file says how the type is written. -/
theorem Described.spelledIn_eq (h : Described files) (ht : (path, type) ∈ typesOf files.files)
    (ho : owner ∈ files.files) (hother : (owner.packagePath ++ below, other) ∈ owner.declaredTypes)
    (haddress : other.address = type.address) : spelledIn files path = spelled owner below := by
  have hmem := (typesOf_sublist ho).subset hother
  have hpath : owner.packagePath ++ below = path := h.pointers _ hmem _ ht haddress
  subst hpath
  have hnamed := (h.typeNamed_iff ho).mpr hother
  rw [spelledIn]
  cases hfind : files.files.find?
      (fun file => (file.typeNamed (owner.packagePath ++ below)).isSome) with
  | none =>
      have hnone := List.find?_eq_none.mp hfind owner ho
      simp [hnamed] at hnone
  | some file =>
      have hsome : (file.typeNamed (owner.packagePath ++ below)).isSome = true := by
        simpa using List.find?_some hfind
      obtain ⟨first, hfirst⟩ := Option.isSome_iff_exists.mp hsome
      have hf := List.mem_of_find?_eq_some hfind
      have hsame := h.file_eq hf ho ((h.typeNamed_iff hf).mp hfirst) hother
      subst hsame
      simp

/-- A full name consists of identifiers. -/
theorem isPath_of_mem_declaredTypes (hf : file.WellNamed) (ht : (path, type) ∈ file.declaredTypes) :
    IsPath 0x2e path := by
  cases type with
  | message message =>
      rcases List.mem_append.mp ht with hm | he
      · exact (isPath_scope hf (mem_declaredTypes_message.mp hm)).1
      · obtain ⟨_, _, hpair⟩ := mem_enumTypes.mp he
        cases hpair
  | enumeration enumeration =>
      have hconcat : ∀ {place}, IsPath 0x2e place → IsPart 0x2e enumeration.name →
          IsPath 0x2e (place ++ [enumeration.name]) := by
        intro place hplace hpart
        refine hplace.append (fun part hp => ?_)
        rw [List.mem_singleton.mp hp]
        exact hpart
      rcases List.mem_append.mp ht with hm | he
      · obtain ⟨place, message, hmessage, henum, rfl⟩ := exists_message_of_declaredTypes hm
        exact hconcat (isPath_scope hf hmessage).1 (hf.nestedEnums _ _ hmessage _ henum)
      · obtain ⟨other, henum, hpair⟩ := mem_enumTypes.mp he
        cases hpair
        exact hconcat hf.package (hf.enums _ henum)

/-- The name of a pointer in its file is the one that is written. -/
theorem Described.qualifiedName_eq (h : Described files) (ht : (path, type) ∈ typesOf files.files)
    (ho : owner ∈ files.files) (hother : (owner.packagePath ++ below, other) ∈ owner.declaredTypes)
    (haddress : other.address = type.address) :
    qualifiedName owner (joined 0x2e below) = 0x2e :: joined 0x2e (spelledIn files path) := by
  have hne : below ≠ [] := by
    obtain ⟨rest, hrest, he⟩ := mem_below hother
    rw [List.append_cancel_left he]
    exact hrest
  have hbelow : IsPath 0x2e below :=
    (isPath_of_mem_declaredTypes (h.wellNamed owner ho) hother).sublist
      (List.sublist_append_right _ _)
  rw [h.spelledIn_eq ht ho hother haddress, qualifiedName_joined hbelow hne]

/-- The registry gives a message of one of its files the name of its full name. -/
theorem Described.messageFullName_eq (h : Described files) {message : MessageDescriptor}
    (ht : (path, .message message) ∈ typesOf files.files) :
    ∃ owner, files.fileContainingMessage message = some owner ∧
      descriptorMessageFullName owner message
        = some (0x2e :: joined 0x2e (spelledIn files path)) := by
  obtain ⟨file, hf, hdeclared⟩ := List.mem_flatMap.mp ht
  have hmessage : (path, message) ∈ file.declaredMessages := by
    rcases List.mem_append.mp hdeclared with hm | he
    · exact mem_declaredTypes_message.mp hm
    · obtain ⟨_, _, hpair⟩ := mem_enumTypes.mp he
      cases hpair
  have hholds : messageListContainsMessage message.address file.messages = true :=
    (messageListContainsMessage_iff file.packagePath _).mpr ⟨path, message, hmessage, rfl⟩
  have hsome : (files.fileContainingMessage message).isSome = true :=
    List.find?_isSome.mpr ⟨file, hf, hholds⟩
  obtain ⟨owner, howner⟩ := Option.isSome_iff_exists.mp hsome
  have ho : owner ∈ files.files := List.mem_of_find?_eq_some howner
  have hcontains : messageListContainsMessage message.address owner.messages = true := by
    simpa using List.find?_some howner
  rw [← @descriptorNestedMessagesPath_isSome owner _ []] at hcontains
  obtain ⟨text, htext⟩ := Option.isSome_iff_exists.mp hcontains
  have hpaths : ∀ pair ∈ declaredMessages (owner.packagePath ++ []) owner.messages,
      IsPath 0x2e pair.1 := by
    rw [List.append_nil]
    exact fun pair hp => (isPath_scope (h.wellNamed owner ho) hp).1
  have hnil : IsPath 0x2e ([] : List Bytes) := by simp [IsPath]
  obtain ⟨below, other, hother, haddress, rfl⟩ :=
    descriptorNestedMessagesPath_some hnil hpaths htext
  rw [List.append_nil] at hother
  refine ⟨owner, howner, ?_⟩
  rw [← h.qualifiedName_eq ht ho
    (List.mem_append_left _ (mem_declaredTypes_message.mpr hother)) haddress]
  exact htext

/-- And to an enum. -/
theorem Described.enumFullName_eq (h : Described files) {enumeration : EnumDescriptor}
    (ht : (path, .enumeration enumeration) ∈ typesOf files.files) :
    ∃ owner, files.fileContainingEnum enumeration = some owner ∧
      descriptorEnumFullName owner enumeration
        = some (0x2e :: joined 0x2e (spelledIn files path)) := by
  obtain ⟨file, hf, hdeclared⟩ := List.mem_flatMap.mp ht
  have hholds : (file.enums.any (fun other => other.address == enumeration.address)
      || messageListContainsEnum enumeration.address file.messages) = true := by
    rw [Bool.or_eq_true]
    rcases List.mem_append.mp hdeclared with hm | he
    · exact .inr (messageListContainsEnum_of_mem hm)
    · obtain ⟨other, hother, hpair⟩ := mem_enumTypes.mp he
      cases hpair
      exact .inl (List.any_eq_true.mpr ⟨_, hother, beq_self_eq_true _⟩)
  have hsome : (files.fileContainingEnum enumeration).isSome = true :=
    List.find?_isSome.mpr ⟨file, hf, hholds⟩
  obtain ⟨owner, howner⟩ := Option.isSome_iff_exists.mp hsome
  have ho : owner ∈ files.files := List.mem_of_find?_eq_some howner
  have hcontains : (owner.enums.any (fun other => other.address == enumeration.address)
      || messageListContainsEnum enumeration.address owner.messages) = true := by
    simpa using List.find?_some howner
  have hnil : IsPath 0x2e ([] : List Bytes) := by simp [IsPath]
  refine ⟨owner, howner, ?_⟩
  rw [descriptorEnumFullName]
  cases hfind : owner.enums.find? (fun other => other.address == enumeration.address) with
  | some other =>
      have hmem := List.mem_of_find?_eq_some hfind
      have haddress : other.address = enumeration.address := by
        simpa using List.find?_some hfind
      have hname := h.qualifiedName_eq ht ho
        (List.mem_append_right _ (enum_mem_enumTypes owner.packagePath hmem)) haddress
      rw [joined_singleton] at hname
      simpa using hname
  | none =>
      have hnested : messageListContainsEnum enumeration.address owner.messages = true := by
        rw [← List.isSome_find?, hfind] at hcontains
        simpa using hcontains
      rw [← @descriptorNestedEnumsPath_isSome owner _ []] at hnested
      obtain ⟨text, htext⟩ := Option.isSome_iff_exists.mp hnested
      have hpaths : ∀ pair ∈ declaredMessages (owner.packagePath ++ []) owner.messages,
          IsPath 0x2e pair.1 := by
        rw [List.append_nil]
        exact fun pair hp => (isPath_scope (h.wellNamed owner ho) hp).1
      obtain ⟨below, other, hother, haddress, rfl⟩ :=
        descriptorNestedEnumsPath_some hnil hpaths htext
      rw [List.append_nil] at hother
      have hdeclared := List.mem_append_left (enumTypes owner.packagePath owner.enums) hother
      rw [← h.qualifiedName_eq ht ho hdeclared haddress]
      exact htext

variable {scope : List Bytes} {name : Bytes}

theorem mem_typesOf_of_visible (h : Described files)
    (hnamed : typeNamed (files.visibleFrom file) path = some type) :
    (path, type) ∈ typesOf files.files :=
  typesOf_visibleFrom_sublist.subset
    ((typeNamed_eq_some_iff (h.distinct.sublist typesOf_visibleFrom_sublist)).mp hnamed)

theorem findTypeVisible_met (h : Described files) (hf : file ∈ files.files)
    (hs : IsPath 0x2e scope) (hn : IsTypeName name) :
    files.findTypeVisible file name (scopeText scope)
      = (metName files file (effectiveScope file scope) name).bind
          (typeNamed (files.visibleFrom file)) := by
  rw [findTypeVisible_tried h.wellNamed h.distinct hf hs hn, FirstMatch.findSome?_eq_bind]
  rfl

theorem exists_type_of_metName (hmet : metName files file scope name = some path) :
    ∃ type, typeNamed (files.visibleFrom file) path = some type := by
  have hsome : (typeNamed (files.visibleFrom file) path).isSome = true := by
    simpa using List.find?_some hmet
  exact Option.isSome_iff_exists.mp hsome

/-- What is written for a name that the registry has a type of this kind for. -/
theorem visibleFullName_eq (h : Described files) (hf : file ∈ files.files)
    (hs : IsPath 0x2e scope) (hn : IsTypeName name) (kind : DescriptorTypeKind) :
    visibleFullName files file name (scopeText scope) kind
      = (metNameOf files file (effectiveScope file scope) name kind).map
          (fun path => 0x2e :: joined 0x2e (spelledIn files path)) := by
  have hlookup := findTypeVisible_met h hf hs hn
  rw [metNameOf]
  cases hmet : metName files file (effectiveScope file scope) name with
  | none =>
      cases kind <;>
        simp [visibleFullName, Registry.findMessageVisible, Registry.findEnumVisible, hlookup,
          hmet]
  | some path =>
      obtain ⟨type, htype⟩ := exists_type_of_metName hmet
      have hmem := mem_typesOf_of_visible h htype
      cases kind with
      | message =>
          cases type with
          | message message =>
              obtain ⟨owner, howner, hname⟩ := h.messageFullName_eq hmem
              simp [visibleFullName, Registry.findMessageVisible, hlookup, hmet, htype,
                Registry.asMessage, howner, hname, DescriptorTypeKind.fits]
          | enumeration enumeration =>
              simp [visibleFullName, Registry.findMessageVisible, hlookup, hmet, htype,
                Registry.asMessage, DescriptorTypeKind.fits]
      | enumeration =>
          cases type with
          | message message =>
              simp [visibleFullName, Registry.findEnumVisible, hlookup, hmet, htype,
                Registry.asEnum, DescriptorTypeKind.fits]
          | enumeration enumeration =>
              obtain ⟨owner, howner, hname⟩ := h.enumFullName_eq hmem
              simp [visibleFullName, Registry.findEnumVisible, hlookup, hmet, htype,
                Registry.asEnum, howner, hname, DescriptorTypeKind.fits]

theorem findEnumVisible_isSome (h : Described files) (hf : file ∈ files.files)
    (hs : IsPath 0x2e scope) (hn : IsTypeName name) :
    (files.findEnumVisible file name (scopeText scope)).isSome
      = (metNameOf files file (effectiveScope file scope) name .enumeration).isSome := by
  rw [Registry.findEnumVisible, findTypeVisible_met h hf hs hn, metNameOf]
  cases hmet : metName files file (effectiveScope file scope) name with
  | none => rfl
  | some path =>
      obtain ⟨type, htype⟩ := exists_type_of_metName hmet
      cases type <;> simp [htype, Registry.asEnum, DescriptorTypeKind.fits]

end

end Descriptor

end Pbz
