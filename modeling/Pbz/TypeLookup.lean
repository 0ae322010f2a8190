import Pbz.Scoping

set_option autoImplicit false

/-! # The type lookups of the registry

What `findType` and `findTypeVisible` return for a name of any length. The types of some files are
a list of full names, each with its descriptor; a name written in a scope stands for the type under
the longest prefix of the scope for which there is one. The lookups compose each such full name in
a buffer and leave out those that do not fit, so they return that type exactly when its full name
fits or is the name as it is written.
-/

namespace Pbz

open Dotted

/-! ## Declared types -/

def enumTypes (scope : List Bytes) (enums : List EnumDescriptor) :
    List (List Bytes × TypeRef) :=
  enums.map (fun enumeration => (scope ++ [enumeration.name], .enumeration enumeration))

mutual

/-- The types declared by some messages, with their full names. -/
def declaredTypes (scope : List Bytes) : List MessageDescriptor → List (List Bytes × TypeRef)
  | [] => []
  | message :: rest =>
      (scope ++ [message.name], .message message) ::
        (message.nestedTypes (scope ++ [message.name]) ++ declaredTypes scope rest)

def MessageDescriptor.nestedTypes (scope : List Bytes) :
    MessageDescriptor → List (List Bytes × TypeRef)
  | { messages, enums, .. } => declaredTypes scope messages ++ enumTypes scope enums

end

def FileDescriptor.declaredTypes (file : FileDescriptor) : List (List Bytes × TypeRef) :=
  Pbz.declaredTypes file.packagePath file.messages ++ enumTypes file.packagePath file.enums

def typesOf (files : List FileDescriptor) : List (List Bytes × TypeRef) :=
  files.flatMap FileDescriptor.declaredTypes

/-- No two types have the same full name. -/
def DistinctNames (types : List (List Bytes × TypeRef)) : Prop := (types.map Prod.fst).Nodup

def TypeRef.address : TypeRef → Nat
  | .message descriptor => descriptor.address
  | .enumeration descriptor => descriptor.address

/-- A pointer to a type stands for one declaration of it. -/
def PointersToOne (types : List (List Bytes × TypeRef)) : Prop :=
  ∀ pair ∈ types, ∀ other ∈ types, pair.2.address = other.2.address → pair.1 = other.1

/-! ## What a name stands for -/

def IsNamed (types : List (List Bytes × TypeRef)) (path : List Bytes) : Prop :=
  ∃ type, (path, type) ∈ types

/-- `result` is the type that a name written in a scope stands for: the one under the first of the
full names that the name may have, longest prefix of the scope first, and nothing if there is
none. -/
def StandsFor (types : List (List Bytes × TypeRef)) (scope : List Bytes) (name : Bytes) :
    Option TypeRef → Prop
  | none => ∀ path ∈ namesInScope scope name, ¬ IsNamed types path
  | some type => ∃ shorter path longer, namesInScope scope name = longer ++ path :: shorter
      ∧ (path, type) ∈ types ∧ ∀ other ∈ longer, ¬ IsNamed types other

/-- The scope of a lookup as the source has it. -/
def scopeText (scope : List Bytes) : Option Bytes :=
  if scope = [] then none else some (joined 0x2e scope)

/-- The full name under which the name stands for a type fits the buffer, unless it is the name as
it is written, which needs none. -/
def DesignatedFits (types : List (List Bytes × TypeRef)) (scope : List Bytes) (name : Bytes) :
    Prop :=
  ∀ longer path shorter, namesInScope scope name = longer ++ path :: shorter →
    IsNamed types path → (∀ other ∈ longer, ¬ IsNamed types other) →
      path = components name ∨ (joined 0x2e path).length ≤ scopeBufferSize

/-! ## Declared types by their names -/

theorem nestedTypes_eq (scope : List Bytes) (message : MessageDescriptor) :
    message.nestedTypes scope
      = declaredTypes scope message.messages ++ enumTypes scope message.enums := by
  cases message
  rw [MessageDescriptor.nestedTypes]

theorem mem_declaredTypes {scope : List Bytes} {messages : List MessageDescriptor}
    {pair : List Bytes × TypeRef} :
    pair ∈ declaredTypes scope messages
      ↔ ∃ message ∈ messages, pair = (scope ++ [message.name], .message message)
          ∨ pair ∈ message.nestedTypes (scope ++ [message.name]) := by
  induction messages with
  | nil => simp [declaredTypes]
  | cons first rest ih =>
      rw [declaredTypes, List.mem_cons, List.mem_append, ih, List.exists_mem_cons_iff, or_assoc]

theorem mem_enumTypes {scope : List Bytes} {enums : List EnumDescriptor}
    {pair : List Bytes × TypeRef} :
    pair ∈ enumTypes scope enums
      ↔ ∃ enumeration ∈ enums, pair = (scope ++ [enumeration.name], .enumeration enumeration) := by
  rw [enumTypes, List.mem_map]
  constructor
  · rintro ⟨enumeration, he, rfl⟩
    exact ⟨enumeration, he, rfl⟩
  · rintro ⟨enumeration, he, rfl⟩
    exact ⟨enumeration, he, rfl⟩

theorem message_mem_declaredTypes (scope : List Bytes) {messages : List MessageDescriptor}
    {message : MessageDescriptor} (h : message ∈ messages) :
    (scope ++ [message.name], .message message) ∈ declaredTypes scope messages :=
  mem_declaredTypes.mpr ⟨message, h, Or.inl rfl⟩

theorem enum_mem_enumTypes (scope : List Bytes) {enums : List EnumDescriptor}
    {enumeration : EnumDescriptor} (h : enumeration ∈ enums) :
    (scope ++ [enumeration.name], .enumeration enumeration) ∈ enumTypes scope enums :=
  mem_enumTypes.mpr ⟨enumeration, h, rfl⟩

mutual

/-- The full names of the types of a scope are below it. -/
theorem declaredTypes_below (scope : List Bytes) (messages : List MessageDescriptor) :
    ∀ pair ∈ declaredTypes scope messages, ∃ head rest, pair.1 = scope ++ head :: rest := by
  match messages with
  | [] => simp [declaredTypes]
  | message :: more =>
      intro pair hp
      rw [declaredTypes, List.mem_cons, List.mem_append] at hp
      rcases hp with rfl | hp | hp
      · exact ⟨message.name, [], rfl⟩
      · obtain ⟨head, rest, he⟩ := nestedTypes_below (scope ++ [message.name]) message pair hp
        exact ⟨message.name, head :: rest, by rw [he, List.append_assoc]; rfl⟩
      · exact declaredTypes_below scope more pair hp

theorem nestedTypes_below (scope : List Bytes) (message : MessageDescriptor) :
    ∀ pair ∈ message.nestedTypes scope, ∃ head rest, pair.1 = scope ++ head :: rest := by
  match message with
  | { messages, enums, .. } =>
      intro pair hp
      rw [MessageDescriptor.nestedTypes, List.mem_append] at hp
      rcases hp with hp | hp
      · exact declaredTypes_below scope messages pair hp
      · obtain ⟨enumeration, _, rfl⟩ := mem_enumTypes.mp hp
        exact ⟨enumeration.name, [], rfl⟩

end

/-- The types with a name of several parts are nested in a message with the first part as its
name. -/
theorem mem_declaredTypes_cons {scope : List Bytes} {messages : List MessageDescriptor}
    {head : Bytes} {rest : List Bytes} {type : TypeRef} :
    (scope ++ head :: rest, type) ∈ declaredTypes scope messages
      ↔ ∃ message ∈ messages, message.name = head
          ∧ (rest = [] ∧ type = .message message
            ∨ rest ≠ [] ∧ (scope ++ [message.name] ++ rest, type)
                ∈ message.nestedTypes (scope ++ [message.name])) := by
  rw [mem_declaredTypes]
  constructor
  · rintro ⟨message, hm, he | hn⟩
    · obtain ⟨hpath, rfl⟩ := Prod.mk.inj he
      have hcons := List.append_cancel_left hpath
      obtain ⟨rfl, rfl⟩ := List.cons.inj hcons
      exact ⟨message, hm, rfl, Or.inl ⟨rfl, rfl⟩⟩
    · obtain ⟨next, more, hpath⟩ := nestedTypes_below _ _ _ hn
      rw [List.append_assoc] at hpath
      obtain ⟨rfl, rfl⟩ := List.cons.inj (List.append_cancel_left hpath)
      refine ⟨message, hm, rfl, Or.inr ⟨List.cons_ne_nil next more, ?_⟩⟩
      rw [List.append_assoc]
      exact hn
  · rintro ⟨message, hm, rfl, ⟨rfl, rfl⟩ | ⟨_, hn⟩⟩
    · exact ⟨message, hm, Or.inl rfl⟩
    · rw [List.append_assoc] at hn
      exact ⟨message, hm, Or.inr hn⟩

theorem nestedTypes_sublist {scope : List Bytes} {messages : List MessageDescriptor}
    {message : MessageDescriptor} (h : message ∈ messages) :
    (message.nestedTypes (scope ++ [message.name])).Sublist (declaredTypes scope messages) := by
  induction messages with
  | nil => exact absurd h (by simp)
  | cons first more ih =>
      rw [declaredTypes]
      rcases List.mem_cons.mp h with rfl | hm
      · exact (List.sublist_append_left _ _).trans (List.sublist_cons_self _ _)
      · exact (ih hm).trans ((List.sublist_append_right _ _).trans (List.sublist_cons_self _ _))

section

variable {types : List (List Bytes × TypeRef)}

theorem DistinctNames.sublist {more : List (List Bytes × TypeRef)} (h : DistinctNames more)
    (hs : types.Sublist more) : DistinctNames types :=
  List.Nodup.sublist (hs.map Prod.fst) h

/-- A full name has one type. -/
theorem DistinctNames.type_eq (h : DistinctNames types) {path : List Bytes} {type other : TypeRef}
    (ht : (path, type) ∈ types) (ho : (path, other) ∈ types) : type = other :=
  (Prod.mk.inj (List.inj_on_of_nodup_map h ht ho rfl)).2

end

section

variable {scope : List Bytes} {messages : List MessageDescriptor} {enums : List EnumDescriptor}

/-- The first message with a name is the only one. -/
theorem find?_message (h : DistinctNames (declaredTypes scope messages ++ enumTypes scope enums))
    {message : MessageDescriptor} (hm : message ∈ messages) :
    messages.find? (fun other => other.name == message.name) = some message := by
  have hsome : (messages.find? (fun other => other.name == message.name)).isSome := by
    rw [List.find?_isSome]
    exact ⟨message, hm, beq_self_eq_true _⟩
  obtain ⟨first, hfirst⟩ := Option.isSome_iff_exists.mp hsome
  have hname : first.name = message.name := by simpa using List.find?_some hfirst
  have hmem := message_mem_declaredTypes scope hm
  have hmemFirst := message_mem_declaredTypes scope (List.mem_of_find?_eq_some hfirst)
  rw [hname] at hmemFirst
  have he := h.type_eq (List.mem_append_left _ hmemFirst) (List.mem_append_left _ hmem)
  rw [hfirst, TypeRef.message.inj he]

/-- The first enum with a name is the only type with it. -/
theorem find?_enum (h : DistinctNames (declaredTypes scope messages ++ enumTypes scope enums))
    {enumeration : EnumDescriptor} (he : enumeration ∈ enums) :
    messages.find? (fun other => other.name == enumeration.name) = none
      ∧ enums.find? (fun other => other.name == enumeration.name) = some enumeration := by
  have hmem := enum_mem_enumTypes scope he
  constructor
  · rw [List.find?_eq_none]
    intro message hm hname
    have hmessage := message_mem_declaredTypes scope hm
    rw [beq_iff_eq.mp hname] at hmessage
    have hc := h.type_eq (List.mem_append_left _ hmessage) (List.mem_append_right _ hmem)
    exact TypeRef.noConfusion hc
  · have hsome : (enums.find? (fun other => other.name == enumeration.name)).isSome := by
      rw [List.find?_isSome]
      exact ⟨enumeration, he, beq_self_eq_true _⟩
    obtain ⟨first, hfirst⟩ := Option.isSome_iff_exists.mp hsome
    have hname : first.name = enumeration.name := by simpa using List.find?_some hfirst
    have hmemFirst := enum_mem_enumTypes scope (List.mem_of_find?_eq_some hfirst)
    rw [hname] at hmemFirst
    have hc := h.type_eq (List.mem_append_right _ hmemFirst) (List.mem_append_right _ hmem)
    rw [hfirst, TypeRef.enumeration.inj hc]

end

/-- The walk along a path ends at the type with this full name. -/
theorem typeAt_eq_some_iff {scope : List Bytes} {messages : List MessageDescriptor}
    {enums : List EnumDescriptor}
    (h : DistinctNames (declaredTypes scope messages ++ enumTypes scope enums))
    {path : List Bytes} (hne : path ≠ []) {type : TypeRef} :
    typeAt messages enums path = some type
      ↔ (scope ++ path, type) ∈ declaredTypes scope messages ++ enumTypes scope enums := by
  induction path generalizing scope messages enums with
  | nil => exact absurd rfl hne
  | cons head rest ih =>
      rw [List.mem_append, mem_declaredTypes_cons, mem_enumTypes]
      constructor
      · intro ht
        cases rest with
        | nil =>
            rw [typeAt] at ht
            cases hf : messages.find? (fun message => message.name == head) with
            | some message =>
                have hname : message.name = head := by simpa using List.find?_some hf
                simp only [hf, Option.some.injEq] at ht
                exact Or.inl ⟨message, List.mem_of_find?_eq_some hf, hname, Or.inl ⟨rfl, ht.symm⟩⟩
            | none =>
                simp only [hf, Option.map_eq_some_iff] at ht
                obtain ⟨enumeration, he, rfl⟩ := ht
                have hname : enumeration.name = head := by simpa using List.find?_some he
                exact Or.inr ⟨enumeration, List.mem_of_find?_eq_some he, by rw [hname]⟩
        | cons next more =>
            rw [typeAt] at ht
            cases hf : messages.find? (fun message => message.name == head) with
            | none => simp [hf] at ht
            | some message =>
                have hm := List.mem_of_find?_eq_some hf
                have hname : message.name = head := by simpa using List.find?_some hf
                simp only [hf] at ht
                have hsub : DistinctNames (message.nestedTypes (scope ++ [message.name])) :=
                  h.sublist ((nestedTypes_sublist hm).trans (List.sublist_append_left _ _))
                rw [nestedTypes_eq] at hsub
                have hmem := (ih hsub (List.cons_ne_nil next more)).mp ht
                rw [← nestedTypes_eq] at hmem
                exact Or.inl ⟨message, hm, hname, Or.inr ⟨List.cons_ne_nil next more, hmem⟩⟩
      · rintro (⟨message, hm, rfl, ⟨rfl, rfl⟩ | ⟨hrest, hn⟩⟩ | ⟨enumeration, he, hpair⟩)
        · simp [typeAt, find?_message h hm]
        · have hsub : DistinctNames (message.nestedTypes (scope ++ [message.name])) :=
            h.sublist ((nestedTypes_sublist hm).trans (List.sublist_append_left _ _))
          rw [nestedTypes_eq] at hsub hn
          have hat := (ih hsub hrest).mpr hn
          cases rest with
          | nil => exact absurd rfl hrest
          | cons next more => simpa [typeAt, find?_message h hm] using hat
        · obtain ⟨hpath, rfl⟩ := Prod.mk.inj hpair
          obtain ⟨rfl, rfl⟩ := List.cons.inj (List.append_cancel_left hpath)
          obtain ⟨hmessages, henums⟩ := find?_enum h he
          simp [typeAt, hmessages, henums]

theorem mem_below {scope : List Bytes} {messages : List MessageDescriptor}
    {enums : List EnumDescriptor} {pair : List Bytes × TypeRef}
    (h : pair ∈ declaredTypes scope messages ++ enumTypes scope enums) :
    ∃ path, path ≠ [] ∧ pair.1 = scope ++ path := by
  rcases List.mem_append.mp h with h | h
  · obtain ⟨head, rest, he⟩ := declaredTypes_below scope messages pair h
    exact ⟨head :: rest, List.cons_ne_nil head rest, he⟩
  · obtain ⟨enumeration, _, rfl⟩ := mem_enumTypes.mp h
    exact ⟨[enumeration.name], List.cons_ne_nil _ _, rfl⟩

theorem FileDescriptor.typeNamed_eq_some_iff {file : FileDescriptor}
    (h : DistinctNames file.declaredTypes) {path : List Bytes} {type : TypeRef} :
    file.typeNamed path = some type ↔ (path, type) ∈ file.declaredTypes := by
  constructor
  · intro ht
    obtain ⟨rest, rfl, hat⟩ := typeNamed_file ht
    have hne : rest ≠ [] := by
      rintro rfl
      simp [typeAt] at hat
    exact (typeAt_eq_some_iff h hne).mp hat
  · intro hmem
    obtain ⟨rest, hne, he⟩ := mem_below hmem
    obtain rfl : path = file.packagePath ++ rest := he
    have hprefix : file.packagePath.isPrefixOf (file.packagePath ++ rest) = true :=
      List.isPrefixOf_iff_prefix.mpr (List.prefix_append _ _)
    rw [FileDescriptor.typeNamed, if_pos hprefix, List.drop_left]
    exact (typeAt_eq_some_iff h hne).mpr hmem

section

variable {files : List FileDescriptor}

theorem typesOf_sublist {file : FileDescriptor} (h : file ∈ files) :
    file.declaredTypes.Sublist (typesOf files) := by
  rw [typesOf, List.flatMap]
  exact List.sublist_flatten_of_mem (List.mem_map_of_mem h)

/-- The search by a full name finds the type declared with it. -/
theorem typeNamed_eq_some_iff (h : DistinctNames (typesOf files)) {path : List Bytes}
    {type : TypeRef} : typeNamed files path = some type ↔ (path, type) ∈ typesOf files := by
  have hfound : ∀ {type}, typeNamed files path = some type → (path, type) ∈ typesOf files := by
    intro type ht
    obtain ⟨file, hf, hnamed⟩ := List.exists_of_findSome?_eq_some ht
    have hsub := typesOf_sublist hf
    exact hsub.subset ((FileDescriptor.typeNamed_eq_some_iff (h.sublist hsub)).mp hnamed)
  constructor
  · exact hfound
  · intro hmem
    obtain ⟨file, hf, hdeclared⟩ := List.mem_flatMap.mp hmem
    have hnamed := (FileDescriptor.typeNamed_eq_some_iff
      (h.sublist (typesOf_sublist hf))).mpr hdeclared
    have hsome : (typeNamed files path).isSome := by
      rw [typeNamed, List.findSome?_isSome_iff]
      exact ⟨file, hf, by rw [hnamed]; rfl⟩
    obtain ⟨other, ho⟩ := Option.isSome_iff_exists.mp hsome
    rw [ho, h.type_eq (hfound ho) hmem]

theorem isNamed_iff (h : DistinctNames (typesOf files)) {path : List Bytes} :
    IsNamed (typesOf files) path ↔ typeNamed files path ≠ none := by
  rw [Option.ne_none_iff_exists']
  exact exists_congr (fun type => (typeNamed_eq_some_iff h).symm)

theorem not_isNamed_iff (h : DistinctNames (typesOf files)) {path : List Bytes} :
    ¬ IsNamed (typesOf files) path ↔ typeNamed files path = none := by
  rw [isNamed_iff h, not_not]

/-- A name stands for the type that it designates. -/
theorem standsFor_iff (h : DistinctNames (typesOf files)) {scope : List Bytes} {name : Bytes}
    {result : Option TypeRef} :
    StandsFor (typesOf files) scope name result ↔ result = designated files scope name := by
  rw [designated, eq_comm]
  cases result with
  | none => simp only [StandsFor, not_isNamed_iff h, List.findSome?_eq_none_iff]
  | some type =>
      simp only [StandsFor, not_isNamed_iff h, ← typeNamed_eq_some_iff h,
        List.findSome?_eq_some_iff]
      constructor
      · rintro ⟨shorter, path, longer, he, ht, hlonger⟩
        exact ⟨longer, path, shorter, he, ht, hlonger⟩
      · rintro ⟨longer, path, shorter, he, ht, hlonger⟩
        exact ⟨shorter, path, longer, he, ht, hlonger⟩

/-- The names that a lookup tries lead to the type the name stands for exactly when the one that
is designated is tried. -/
theorem standsFor_tried_iff (h : DistinctNames (typesOf files))
    (hp : PointersToOne (typesOf files)) {scope : List Bytes} {name : Bytes} :
    StandsFor (typesOf files) scope name
        (((namesInScope scope name).filter (isTried name)).findSome? (typeNamed files))
      ↔ DesignatedFits (typesOf files) scope name := by
  have hapart : ∀ x ∈ namesInScope scope name, ∀ y ∈ namesInScope scope name, ∀ type,
      typeNamed files x = some type → typeNamed files y = some type → x = y := by
    intro x _ y _ type hx hy
    exact hp _ ((typeNamed_eq_some_iff h).mp hx) _ ((typeNamed_eq_some_iff h).mp hy) rfl
  rw [standsFor_iff h, designated, FirstMatch.findSome?_filter_eq_iff hapart, DesignatedFits]
  simp only [isNamed_iff h, not_not, isTried, Bool.or_eq_true, beq_iff_eq, decide_eq_true_eq]

end

/-! ## The lookups -/

/-- What a lookup tries with or without a scope. -/
theorem findSome?_scopeText {scope : List Bytes} (hs : IsPath 0x2e scope) {name : Bytes}
    (hn : IsTypeName name) {find : Bytes → Option TypeRef} {files : List FileDescriptor}
    (hfind : ∀ path, IsPath 0x2e path → find (joined 0x2e path) = typeNamed files path) :
    (match name with
      | 0x2e :: rest => find rest
      | _ => (candidates (scopeText scope) name).findSome? find)
      = ((namesInScope scope name).filter (isTried name)).findSome? (typeNamed files) := by
  by_cases hne : scope = []
  · subst hne
    have htext : find (normalizeName name) = typeNamed files (components name) := by
      rw [← hfind _ hn.isPath, joined_components]
    have honly : namesInScope [] name = [components name] := by
      rw [namesInScope]
      split <;> simp
    rw [honly, List.filter_cons_of_pos (by simp [isTried]), List.filter_nil,
      List.findSome?_singleton, ← htext]
    split
    · rfl
    · next hdot =>
      rw [normalizeName_of_not_absolute (not_absolute hdot), scopeText, if_pos rfl, candidates,
        List.findSome?_singleton]
  · rw [scopeText, if_neg hne]
    exact findSome?_tried hs hne hn hfind

/-- The files whose types a file can see. -/
def Registry.visibleFrom (registry : Registry) (file : FileDescriptor) : List FileDescriptor :=
  registry.files.filter (registry.fileCanSee file)

/-- Without a scope a name is looked up in the package of the file. -/
def effectiveScope (file : FileDescriptor) (scope : List Bytes) : List Bytes :=
  if scope = [] then file.packagePath else scope

section

variable {registry : Registry} {file : FileDescriptor}

theorem mem_visibleFrom (hf : file ∈ registry.files) : file ∈ registry.visibleFrom file := by
  refine List.mem_filter.mpr ⟨hf, ?_⟩
  simp [Registry.fileCanSee, sameFile]

theorem typesOf_visibleFrom_sublist :
    (typesOf (registry.visibleFrom file)).Sublist (typesOf registry.files) := by
  have hsub : (registry.visibleFrom file).Sublist registry.files := List.filter_sublist
  rw [typesOf, typesOf, List.flatMap, List.flatMap]
  exact (hsub.map FileDescriptor.declaredTypes).flatten

/-- The file itself is searched first, but is one of those it can see. -/
theorem typeNamed_self (hd : DistinctNames (typesOf (registry.visibleFrom file)))
    (hf : file ∈ registry.files) (path : List Bytes) :
    typeNamed (file :: registry.visibleFrom file) path
      = typeNamed (registry.visibleFrom file) path := by
  have hsub := typesOf_sublist (mem_visibleFrom hf)
  rw [typeNamed, FirstMatch.findSome?_cons_or, ← typeNamed]
  cases hself : file.typeNamed path with
  | none => rw [Option.none_or]
  | some type =>
      have hmem := (FileDescriptor.typeNamed_eq_some_iff (hd.sublist hsub)).mp hself
      rw [Option.some_or, (typeNamed_eq_some_iff hd).mpr (hsub.subset hmem)]

theorem scopeText_or (file : FileDescriptor) (scope : List Bytes) :
    (scopeText scope).or (packageScope file) = scopeText (effectiveScope file scope) := by
  by_cases hne : scope = []
  · rw [effectiveScope, if_pos hne, scopeText, if_pos hne, Option.none_or, packageScope, scopeText,
      FileDescriptor.packagePath]
    by_cases hempty : file.package.isEmpty = true
    · simp [hempty]
    · rw [if_neg hempty, if_neg hempty, if_neg (List.splitOn_ne_nil _ _), joined_splitOn]
  · rw [effectiveScope, if_neg hne, scopeText, if_neg hne, Option.some_or]

theorem isPath_effectiveScope (hf : file.WellNamed) {scope : List Bytes} (hs : IsPath 0x2e scope) :
    IsPath 0x2e (effectiveScope file scope) := by
  rw [effectiveScope]
  split
  · exact hf.package
  · exact hs

/-- What the lookup in the files that a file can see finds. -/
theorem findTypeVisible_tried (hr : ∀ file ∈ registry.files, file.WellNamed)
    (hd : DistinctNames (typesOf registry.files)) (hf : file ∈ registry.files)
    {scope : List Bytes} (hs : IsPath 0x2e scope) {name : Bytes} (hn : IsTypeName name) :
    registry.findTypeVisible file name (scopeText scope)
      = ((namesInScope (effectiveScope file scope) name).filter (isTried name)).findSome?
          (typeNamed (registry.visibleFrom file)) := by
  let find (fullName : Bytes) :=
    (findAbsoluteInFile file fullName).or (registry.findAbsoluteVisible file fullName)
  have hfind : ∀ path, IsPath 0x2e path →
      find (joined 0x2e path) = typeNamed (registry.visibleFrom file) path := by
    intro path hpath
    show (findAbsoluteInFile file (joined 0x2e path)).or _ = _
    rw [findVisible_joined (hr file hf) hr hpath]
    exact typeNamed_self (hd.sublist typesOf_visibleFrom_sublist) hf path
  rw [← @findSome?_scopeText _ (isPath_effectiveScope (hr file hf) hs) _ hn find _ hfind,
    ← scopeText_or]
  rfl

/-- When a lookup returns the type that the name stands for among the types it can see: exactly
when the full name of this type fits the buffer in which the lookup composes it, or is the name as
it is written. -/
theorem typeLookup_iff (hr : ∀ file ∈ registry.files, file.WellNamed)
    (hd : DistinctNames (typesOf registry.files)) (hp : PointersToOne (typesOf registry.files))
    {scope : List Bytes} (hs : IsPath 0x2e scope) {name : Bytes} (hn : IsTypeName name) :
    (StandsFor (typesOf registry.files) scope name (registry.findType name (scopeText scope))
        ↔ DesignatedFits (typesOf registry.files) scope name)
      ∧ ∀ file ∈ registry.files,
        (StandsFor (typesOf (registry.visibleFrom file)) (effectiveScope file scope) name
            (registry.findTypeVisible file name (scopeText scope))
          ↔ DesignatedFits (typesOf (registry.visibleFrom file)) (effectiveScope file scope)
              name) := by
  constructor
  · rw [← standsFor_tried_iff hd hp,
      ← findSome?_scopeText hs hn (fun _ hpath => findAbsolute_joined hr hpath)]
    rfl
  · intro file hf
    have hsub := @typesOf_visibleFrom_sublist registry file
    rw [findTypeVisible_tried hr hd hf hs hn]
    exact standsFor_tried_iff (hd.sublist hsub)
      (fun pair hpair other ho => hp pair (hsub.subset hpair) other (hsub.subset ho))

end

/-! ## A name that fits and one that does not -/

/-- A file with a message `name` that holds the message `Item`. -/
def itemFile (name : Bytes) : FileDescriptor :=
  { name := ascii "item.proto",
    messages := [{ name, address := 1, messages := [{ name := ascii "Item", address := 2 }] }] }

theorem itemFile_wellNamed {name : Bytes} (h : IsPart 0x2e name) : (itemFile name).WellNamed where
  package := by simp [itemFile, FileDescriptor.packagePath, IsPath]
  messages := by
    intro scope message hm
    simp only [itemFile, FileDescriptor.declaredMessages, declaredMessages,
      MessageDescriptor.nestedMessages, List.mem_cons, List.mem_append, List.not_mem_nil, or_false,
      Prod.mk.injEq] at hm
    rcases hm with ⟨_, rfl⟩ | ⟨_, rfl⟩
    · exact h
    · exact (by decide : IsPart 0x2e (ascii "Item"))
  nestedEnums := by
    intro scope message hm
    simp only [itemFile, FileDescriptor.declaredMessages, declaredMessages,
      MessageDescriptor.nestedMessages, List.mem_cons, List.mem_append, List.not_mem_nil, or_false,
      Prod.mk.injEq] at hm
    rcases hm with ⟨_, rfl⟩ | ⟨_, rfl⟩ <;> simp
  enums := by simp [itemFile]

theorem typesOf_itemFile (name : Bytes) :
    typesOf [itemFile name]
      = [([name], .message { name, address := 1, messages := [{ name := ascii "Item", address := 2 }] }),
          ([name, ascii "Item"], .message { name := ascii "Item", address := 2 })] := rfl

/-- In the message `Box` the name `Item` leads to `Box.Item`. -/
theorem typeLookup_box :
    StandsFor (typesOf [itemFile (ascii "Box")]) [ascii "Box"] (ascii "Item")
      (Registry.findType { files := [itemFile (ascii "Box")] } (ascii "Item")
        (scopeText [ascii "Box"])) := by
  have hr : ∀ file ∈ [itemFile (ascii "Box")], file.WellNamed := by
    intro file hf
    rw [List.mem_singleton.mp hf]
    exact itemFile_wellNamed (by decide)
  have hd : DistinctNames (typesOf [itemFile (ascii "Box")]) := by
    rw [DistinctNames, typesOf_itemFile]
    decide
  have hp : PointersToOne (typesOf [itemFile (ascii "Box")]) := by
    rw [PointersToOne, typesOf_itemFile]
    simp [TypeRef.address]
  refine ((@typeLookup_iff { files := [itemFile (ascii "Box")] } hr hd hp _ (by decide) _
    (by decide)).1).mpr ?_
  intro longer path shorter he _ _
  have hm : path ∈ namesInScope [ascii "Box"] (ascii "Item") := by
    rw [he]
    simp
  exact Or.inr ((by decide : ∀ path ∈ namesInScope [ascii "Box"] (ascii "Item"),
    (joined 0x2e path).length ≤ scopeBufferSize) path hm)

/-- The name of a message that leaves no room in the buffer. -/
def longName : Bytes := List.replicate 512 0x61

theorem not_standsFor_none {types : List (List Bytes × TypeRef)} {scope path : List Bytes}
    {name : Bytes} (hpath : path ∈ namesInScope scope name) (hnamed : IsNamed types path)
    {result : Option TypeRef} (h : result.isNone = true) : ¬ StandsFor types scope name result := by
  rw [Option.isNone_iff_eq_none.mp h]
  exact fun hs => hs path hpath hnamed

/-- In a message with a long name the name `Item` stands for the message nested in it, but the
lookups return nothing. -/
theorem exists_typeLookup_ne :
    (∀ file ∈ [itemFile longName], file.WellNamed)
      ∧ DistinctNames (typesOf [itemFile longName])
      ∧ PointersToOne (typesOf [itemFile longName])
      ∧ ¬ StandsFor (typesOf [itemFile longName]) [longName] (ascii "Item")
          (Registry.findType { files := [itemFile longName] } (ascii "Item")
            (scopeText [longName]))
      ∧ ¬ StandsFor (typesOf [itemFile longName]) [longName] (ascii "Item")
          (Registry.findTypeVisible { files := [itemFile longName] } (itemFile longName)
            (ascii "Item") (scopeText [longName])) := by
  have hpart : IsPart 0x2e longName := by
    constructor
    · rw [longName, ne_eq, List.replicate_eq_nil_iff]
      omega
    · exact fun h => absurd (List.eq_of_mem_replicate h) (by decide)
  have hitem : [longName, ascii "Item"] ∈ namesInScope [longName] (ascii "Item") :=
    List.mem_cons_self
  have hnamed : IsNamed (typesOf [itemFile longName]) [longName, ascii "Item"] := by
    rw [typesOf_itemFile]
    exact ⟨_, List.mem_cons_of_mem _ List.mem_cons_self⟩
  refine ⟨?_, ?_, ?_, not_standsFor_none hitem hnamed (by decide +kernel),
    not_standsFor_none hitem hnamed (by decide +kernel)⟩
  · intro file hf
    rw [List.mem_singleton.mp hf]
    exact itemFile_wellNamed hpart
  · rw [DistinctNames, typesOf_itemFile]
    exact List.nodup_cons.mpr ⟨by simp, List.nodup_singleton _⟩
  · rw [PointersToOne, typesOf_itemFile]
    intro pair hp other ho
    simp only [List.mem_cons, List.not_mem_nil, or_false] at hp ho
    rcases hp with rfl | rfl <;> rcases ho with rfl | rfl <;> intro ha
    · rfl
    · exact absurd ha (by decide)
    · exact absurd ha (by decide)
    · rfl

end Pbz
