import Pbz.Parser.Everywhere
import Pbz.Parser.Layout

set_option autoImplicit false

/-! # The kinds of fields

The parser reads every type name as that of a message and asks behind the last token which ones
are names of enums. It goes by what stands behind the last dot of the name: an enum of that name
anywhere in the file makes the field one of an enum, whatever the name designates.
-/

namespace Pbz

open Program

/-! ## The kinds that are read -/

namespace FieldKind

/-- A kind as the parser reads it: no name is known to be that of an enum yet. -/
def AsRead : FieldKind → Prop
  | scalar _ | group _ => True
  | message name => IsReference name
  | enumeration _ => False
  | map _ value => value.AsRead ∧ value.isMap = false

/-- The name by which a field refers to a type, in a map field that of the values. A group declares
its type. -/
def typeName : FieldKind → Option Bytes
  | message name | enumeration name => some name
  | map _ value => value.typeName
  | scalar _ | group _ => none

/-- The type name is that of an enum. -/
def isEnumeration : FieldKind → Bool
  | enumeration _ => true
  | map _ value => value.isEnumeration
  | scalar _ | message _ | group _ => false

end FieldKind

namespace Parser

/-- The fields, enums and messages below a message are as the parser reads them. -/
inductive Spelled : MessageDescriptor → Prop where
  | mk {message : MessageDescriptor}
      (fields : ∀ field ∈ message.fields ++ message.extensions, field.kind.AsRead)
      (enums : ∀ enumeration ∈ message.enums, IsWord enumeration.name)
      (messages : ∀ nested ∈ message.messages, Spelled nested) : Spelled message

variable {file : FileDescriptor} {message : MessageDescriptor} {rounds : Nat}

theorem Spelled.fields (h : Spelled message) :
    ∀ field ∈ message.fields ++ message.extensions, field.kind.AsRead := by
  cases h
  assumption

theorem Spelled.enums (h : Spelled message) :
    ∀ enumeration ∈ message.enums, IsWord enumeration.name := by
  cases h
  assumption

theorem Spelled.messages (h : Spelled message) : ∀ nested ∈ message.messages, Spelled nested := by
  cases h
  assumption

/-! ## The productions -/

variable [FloatConversions]

omit [FloatConversions] in
theorem parseFieldKind_asRead : Gives file (parseFieldKind rounds) FieldKind.AsRead := by
  induction rounds with
  | zero => exact .fuel
  | succ rounds ih =>
      refine .skip fun isMap => .ite ?_ ?_
      · refine .skip fun _ => .skip fun keyName => ?_
        cases ScalarType.fromName keyName with
        | none => exact .fail
        | some key =>
            refine .ite .fail (.skip fun _ => ih.bind fun value hvalue => .skip fun _ => ?_)
            by_cases hmap : value.isMap = true
            · simp only [hmap, Bool.true_or, if_true]
              exact .fail
            · exact .ite .fail (.pure ⟨hvalue, by simpa using hmap⟩)
      · refine parseTypeNameSlice_isReference.bind fun typeName hname => ?_
        cases ScalarType.fromName typeName with
        | none => exact .pure hname
        | some scalar => exact .pure trivial

theorem enumBody_name {enumeration : EnumDescriptor} :
    Gives file (enumBody rounds enumeration) (fun result => result.name = enumeration.name) := by
  induction rounds generalizing enumeration with
  | zero => exact .fuel
  | succ rounds ih =>
      refine .skip fun isEnd => .ite (.pure rfl) (.skip fun _ => .skip fun isOption => .ite ?_ ?_)
      · exact .skip fun option => .skip fun features => ih
      refine .skip fun isReserved => .ite ?_ (.skip fun isEmpty => .ite ih ?_)
      · exact .skip fun reserved => ih
      · exact .skip fun value => ih

theorem parseEnumAfterKeyword_isWord :
    Gives file (parseEnumAfterKeyword rounds) (fun enumeration => IsWord enumeration.name) := by
  refine .get fun _ _ => expectIdentifier_isWord.bind fun name hname => .skip fun _ => ?_
  refine enumBody_name.bind fun enumeration henum => .get fun _ _ => .skip fun _ => .pure ?_
  rw [henum]
  exact hname

/-- Options and oneofs do not matter. -/
theorem spelled_establishes :
    Establishes FieldKind.AsRead (fun field => field.kind.AsRead)
      (fun enumeration => IsWord enumeration.name) (fun _ => True) where
  kind _ _ := parseFieldKind_asRead
  groupKind _ := trivial
  field _ _ _ _ _ _ _ _ _ hkind := bracketedFieldOptions_kind.imp fun field hfield => by
    rw [hfield]
    exact hkind
  extension _ _ _ h := h
  enumeration _ _ := parseEnumAfterKeyword_isWord
  name _ _ := trivial
  option _ _ _ _ := .of_frames
  oneof _ _ _ := trivial
  oneofOption _ _ _ _ := .of_frames
  body _ _ _ _ _ _ _ _ _ := trivial

omit [FloatConversions] in
theorem Everywhere.spelled (h : Everywhere (fun field => field.kind.AsRead)
    (fun enumeration => IsWord enumeration.name) (fun _ => True) message) : Spelled message := by
  induction h with
  | mk own fields enums messages ih => exact .mk fields enums ih

/-! ## Files -/

/-- The fields and enums of a file are as the parser reads them. -/
structure FileSpelled (file : FileDescriptor) : Prop where
  extensions : ∀ field ∈ file.extensions, field.kind.AsRead
  enums : ∀ enumeration ∈ file.enums, IsWord enumeration.name
  messages : ∀ message ∈ file.messages, Spelled message

variable {s : Parser} {input : Bytes}

theorem Reached.fileSpelled (h : Reached input rounds s) : FileSpelled s.file := by
  obtain ⟨hextensions, henums, hmessages⟩ := spelled_establishes.reached h
  exact ⟨hextensions, henums, fun message hmem => (hmessages message hmem).spelled⟩

omit [FloatConversions] in
theorem FileSpelled.declaredIn (h : FileSpelled file) (hm : DeclaredIn file message) :
    Spelled message := by
  induction hm with
  | top hmem => exact h.messages _ hmem
  | nested houter hmem ih => exact ih.messages _ hmem

omit [FloatConversions] in
theorem FileSpelled.enumIn (h : FileSpelled file) {enumeration : EnumDescriptor}
    (he : EnumIn file enumeration) : IsWord enumeration.name := by
  rcases he with hmem | ⟨message, hm, hmem⟩
  · exact h.enums _ hmem
  · exact (h.declaredIn hm).enums _ hmem

end Parser

/-! ## The declarations of a file -/

mutual

theorem declaredIn_of_mem {file : FileDescriptor} {scope : List Bytes}
    {pair : List Bytes × MessageDescriptor} :
    ∀ {messages : List MessageDescriptor}, (∀ message ∈ messages, DeclaredIn file message) →
      pair ∈ declaredMessages scope messages → DeclaredIn file pair.2
  | [], _, hp => absurd hp (by simp [declaredMessages])
  | message :: rest, h, hp => by
      rw [declaredMessages] at hp
      rcases List.mem_cons.mp hp with rfl | hp
      · exact h _ List.mem_cons_self
      rcases List.mem_append.mp hp with hp | hp
      · exact declaredIn_of_nested (h _ List.mem_cons_self) hp
      · exact declaredIn_of_mem (fun other ho => h other (List.mem_cons_of_mem _ ho)) hp

theorem declaredIn_of_nested {file : FileDescriptor} {scope : List Bytes}
    {pair : List Bytes × MessageDescriptor} :
    ∀ {message : MessageDescriptor}, DeclaredIn file message →
      pair ∈ message.nestedMessages scope → DeclaredIn file pair.2
  | { messages := messages, .. }, h, hp => by
      rw [MessageDescriptor.nestedMessages] at hp
      exact declaredIn_of_mem (fun nested hn => h.nested hn) hp

end

theorem enumIn_iff {file : FileDescriptor} {enumeration : EnumDescriptor} :
    EnumIn file enumeration ↔ enumeration ∈ file.enums ++ nestedEnums file.messages := by
  rw [List.mem_append]
  constructor
  · rintro (hmem | ⟨message, hm, hmem⟩)
    · exact .inl hmem
    · right
      have hall : enumeration ∈ message.declaredEnums := by
        rw [declaredEnums_eq]
        exact List.mem_append_left _ hmem
      clear hmem
      induction hm with
      | top htop => exact mem_nestedEnums htop hall
      | @nested outer message houter hnested ih =>
          refine ih ?_
          rw [declaredEnums_eq]
          exact List.mem_append_right _ (mem_nestedEnums hnested hall)
  · rintro (hmem | hmem)
    · exact .inl hmem
    · obtain ⟨place, message, hp, he⟩ := @exists_message_of_nestedEnums [] _ _ hmem
      exact .inr ⟨message, declaredIn_of_mem (fun top htop => .top htop) hp, he⟩

namespace Parser

variable {file : FileDescriptor} {context : Option MessageDescriptor}

mutual

theorem findEnumInMessages_eq (leaf : Bytes) : ∀ messages : List MessageDescriptor,
    findEnumInMessages leaf messages
      = (nestedEnums messages).find? (fun enumeration => enumeration.name == leaf)
  | [] => rfl
  | message :: rest => by
      rw [findEnumInMessages, nestedEnums, List.find?_append, ← findEnumInMessage_eq leaf message,
        ← findEnumInMessages_eq leaf rest]
      cases findEnumInMessage leaf message <;> rfl

theorem findEnumInMessage_eq (leaf : Bytes) : ∀ message : MessageDescriptor,
    findEnumInMessage leaf message
      = message.declaredEnums.find? (fun enumeration => enumeration.name == leaf)
  | { messages := messages, enums := enums, .. } => by
      rw [findEnumInMessage, MessageDescriptor.declaredEnums, List.find?_append,
        findEnumInMessages_eq leaf messages]
      cases enums.find? (fun enumeration => enumeration.name == leaf) <;> rfl

end

/-- An enum of the file bears what stands behind the last dot of the name. -/
def LeafNamesEnum (file : FileDescriptor) (name : Bytes) : Prop :=
  ∃ enumeration, EnumIn file enumeration ∧ enumeration.name = leafName name

theorem leafName_of_no_dot {name : Bytes} (h : (0x2e : UInt8) ∉ normalizeName name) :
    leafName name = normalizeName name := by
  have hall := @afterLastDot_append [] _ h
  rwa [List.nil_append] at hall

theorem findEnumDescriptor_eq (name : Bytes) :
    findEnumDescriptor file name context
      = (context.bind (·.findEnum (leafName name))).or
          ((file.enums.find? (fun enumeration =>
              enumeration.name == leafName name || enumeration.name == normalizeName name)).or
            ((nestedEnums file.messages).find? (fun enumeration =>
              enumeration.name == leafName name))) := by
  rw [← findEnumInMessages_eq, leafName]
  cases hcurrent : context.bind (·.findEnum (afterLastDot (normalizeName name))) with
  | some found => simp [findEnumDescriptor, hcurrent]
  | none =>
      cases htop : file.enums.find? (fun enumeration =>
          enumeration.name == afterLastDot (normalizeName name)
            || enumeration.name == normalizeName name) with
      | some found => simp [findEnumDescriptor, hcurrent, htop]
      | none => simp [findEnumDescriptor, hcurrent, htop]

/-- The search for an enum goes by what stands behind the last dot. -/
theorem isEnumName_iff (hspelled : FileSpelled file)
    (hcontext : ∀ message ∈ context, DeclaredIn file message) {name : Bytes} :
    isEnumName file name context = true ↔ LeafNamesEnum file name := by
  have htop (enumeration : EnumDescriptor) (hmem : enumeration ∈ file.enums) :
      (enumeration.name == leafName name || enumeration.name == normalizeName name) = true ↔
        enumeration.name = leafName name := by
    rw [Bool.or_eq_true, beq_iff_eq, beq_iff_eq]
    refine or_iff_left_of_imp fun htrimmed => ?_
    have hdot := (hspelled.enums _ hmem).no_dot
    rw [htrimmed] at hdot ⊢
    exact (leafName_of_no_dot hdot).symm
  rw [isEnumName, findEnumDescriptor_eq, Option.isSome_or, Option.isSome_or, Bool.or_eq_true,
    Bool.or_eq_true, List.find?_isSome, List.find?_isSome]
  constructor
  · rintro (hcurrent | ⟨enumeration, hmem, hname⟩ | ⟨enumeration, hmem, hname⟩)
    · obtain ⟨found, hfound⟩ := Option.isSome_iff_exists.mp hcurrent
      obtain ⟨message, hmessage, hfind⟩ := Option.bind_eq_some_iff.mp hfound
      have hmem := List.mem_of_find?_eq_some hfind
      exact ⟨found, .inr ⟨message, hcontext message hmessage, hmem⟩,
        by simpa using List.find?_some hfind⟩
    · exact ⟨enumeration, .inl hmem, (htop enumeration hmem).mp hname⟩
    · exact ⟨enumeration, enumIn_iff.mpr (List.mem_append_right _ hmem), by simpa using hname⟩
  · rintro ⟨enumeration, henum, hname⟩
    rcases List.mem_append.mp (enumIn_iff.mp henum) with hmem | hmem
    · exact .inr (.inl ⟨enumeration, hmem, (htop enumeration hmem).mpr hname⟩)
    · exact .inr (.inr ⟨enumeration, hmem, by simpa using hname⟩)

/-! ## Resolved kinds -/

/-- A kind that names a type is that of an enum if the search finds one. -/
theorem resolveKind_asRead {kind : FieldKind} (h : kind.AsRead) :
    (resolveKind file context kind).typeName = kind.typeName ∧
      ∀ name, kind.typeName = some name →
        (resolveKind file context kind).isEnumeration = isEnumName file name context := by
  unfold resolveKind
  cases kind with
  | scalar type => exact ⟨rfl, fun _ h => nomatch h⟩
  | group name => exact ⟨rfl, fun _ h => nomatch h⟩
  | enumeration name => exact h.elim
  | message name =>
      by_cases henum : isEnumName file name context = true
      · simp [henum, FieldKind.typeName, FieldKind.isEnumeration]
      · simp [henum, FieldKind.typeName, FieldKind.isEnumeration]
  | map key value =>
      obtain ⟨hvalue, hmap⟩ := h
      cases value with
      | scalar type => exact ⟨rfl, fun _ h => nomatch h⟩
      | group name => exact ⟨rfl, fun _ h => nomatch h⟩
      | enumeration name => exact hvalue.elim
      | map key value => cases hmap
      | message name =>
          by_cases henum : isEnumName file name context = true
          · simp [henum, FieldKind.typeName, FieldKind.isEnumeration]
          · simp [henum, FieldKind.typeName, FieldKind.isEnumeration]

theorem resolveFieldKind_kind {field : FieldDescriptor} :
    (resolveFieldKind file context field).kind = resolveKind file context field.kind := by
  unfold resolveFieldKind resolveEnumDefault
  split
  · split <;> rfl
  · split <;> rfl
  · rfl

theorem enumIn_resolve {enumeration : EnumDescriptor} :
    EnumIn (resolveFieldKinds file) enumeration ↔ EnumIn file enumeration := by
  refine or_congr Iff.rfl ?_
  constructor
  · rintro ⟨resolved, hm, henum⟩
    obtain ⟨message, hmessage, rfl⟩ := declaredIn_resolve.mp hm
    rw [resolveMessageFieldKinds_eq] at henum
    exact ⟨message, hmessage, henum⟩
  · rintro ⟨message, hm, henum⟩
    refine ⟨_, declaredIn_resolve.mpr ⟨message, hm, rfl⟩, ?_⟩
    rw [resolveMessageFieldKinds_eq]
    exact henum

end Parser

/-! ## Fields and what they refer to -/

def TypeRef.isEnumeration : TypeRef → Bool
  | .message _ => false
  | .enumeration _ => true

/-- The file with the name of its package as its tokens spell it. -/
def FileDescriptor.packageSpelled (file : FileDescriptor) : FileDescriptor :=
  { file with package := withoutLayout file.package }

/-- The type of the file that a type name written in a scope designates. -/
def FileDescriptor.designates (file : FileDescriptor) (scope : List Bytes) (name : Bytes)
    (type : TypeRef) : Prop :=
  designated [file.packageSpelled] scope (withoutLayout name) = some type

/-- A field or an extension of the file, with the path of the scope that it stands in. -/
inductive FieldIn (file : FileDescriptor) : List Bytes → FieldDescriptor → Prop where
  | message {scope : List Bytes} {message : MessageDescriptor} {field : FieldDescriptor}
      (hmessage : (scope, message) ∈ file.packageSpelled.declaredMessages)
      (hfield : field ∈ message.fields ++ message.extensions) : FieldIn file scope field
  | extension {field : FieldDescriptor} (hfield : field ∈ file.extensions) :
      FieldIn file file.packageSpelled.packagePath field

namespace Parser

/-- What stands behind the last dot of a name tells what it designates: it is the name of the
enum, or that of no enum in the file. -/
def LeafTells (file : FileDescriptor) (name : Bytes) : TypeRef → Prop
  | .enumeration enumeration => leafName name = enumeration.name
  | .message _ => ¬ LeafNamesEnum file name

section

variable {file : FileDescriptor} {scope : List Bytes} {field : FieldDescriptor} {name : Bytes}
  {type : TypeRef}

/-- A field of the resolved file has been read and resolved. -/
theorem exists_read_of_fieldIn (hspelled : FileSpelled file)
    (h : FieldIn (resolveFieldKinds file) scope field) :
    ∃ context read, (∀ message ∈ context, DeclaredIn file message) ∧ read.kind.AsRead ∧
      field = resolveFieldKind file context read := by
  cases h with
  | @message _ resolved _ hmessage hfield =>
      have hdeclared : DeclaredIn (resolveFieldKinds file) resolved :=
        @declaredIn_of_mem (resolveFieldKinds file) _ _ _ (fun top htop => .top htop) hmessage
      obtain ⟨message, hm, rfl⟩ := declaredIn_resolve.mp hdeclared
      rw [resolveMessageFieldKinds_eq] at hfield
      have hfield : field ∈ (message.fields ++ message.extensions).map
          (resolveFieldKind file (some message)) := by
        rw [List.map_append]
        exact hfield
      obtain ⟨read, hread, rfl⟩ := List.mem_map.mp hfield
      exact ⟨some message, read, by simpa using hm, (hspelled.declaredIn hm).fields read hread, rfl⟩
  | extension hfield =>
      obtain ⟨read, hread, rfl⟩ := List.mem_map.mp hfield
      exact ⟨none, read, by simp, hspelled.extensions read hread, rfl⟩

theorem isReference_of_typeName {kind : FieldKind} (h : kind.AsRead)
    (hname : kind.typeName = some name) : IsReference name := by
  cases kind with
  | scalar type => cases hname
  | group name => cases hname
  | enumeration name => exact h.elim
  | message name =>
      cases hname
      exact h
  | map key value =>
      obtain ⟨hvalue, hmap⟩ := h
      cases value with
      | scalar type => cases hname
      | group name => cases hname
      | enumeration name => exact hvalue.elim
      | map key value => cases hmap
      | message name =>
          cases hname
          exact hvalue

/-- The search agrees with what the name designates if and only if its last part tells. -/
theorem leafNamesEnum_iff (hspelled : FileSpelled file) (hname : IsReference name)
    (htype : (resolveFieldKinds file).designates scope name type) :
    (LeafNamesEnum file name ↔ type.isEnumeration = true) ↔
      LeafTells (resolveFieldKinds file) name type := by
  have hresolved : LeafNamesEnum (resolveFieldKinds file) name ↔ LeafNamesEnum file name := by
    simp only [LeafNamesEnum, enumIn_resolve]
  cases type with
  | message message => simp [LeafTells, hresolved, TypeRef.isEnumeration]
  | enumeration enumeration =>
      have hleaf := (leafName_of_designated htype).2 enumeration rfl
      obtain ⟨other, hother, path, hat, -⟩ := designated_some htype
      obtain rfl := List.mem_singleton.mp hother
      have henum : EnumIn file enumeration :=
        enumIn_resolve.mp (enumIn_iff.mpr (typeAt_enum hat).1)
      simp only [LeafTells, TypeRef.isEnumeration, iff_true]
      constructor
      · rintro ⟨found, hfound, hbears⟩
        have hword : IsWord (leafName name) := hbears ▸ hspelled.enumIn hfound
        rw [hname.leafName_eq hword, hleaf]
      · exact fun htells => ⟨enumeration, henum, htells.symm⟩

/-- A field of an accepted file is one of an enum exactly when its type name designates an enum, if
and only if what stands behind the last dot of the name tells. -/
theorem resolvedKind_iff [FloatConversions] {input : Bytes} (h : parse input = .ok file)
    (hfield : FieldIn file scope field) (hname : field.kind.typeName = some name)
    (htype : file.designates scope name type) :
    (field.kind.isEnumeration = true ↔ type.isEnumeration = true) ↔ LeafTells file name type := by
  obtain ⟨rounds, last, hlast, rfl, -⟩ := exists_last_of_parse h
  have hspelled := hlast.fileSpelled
  obtain ⟨context, read, hcontext, hread, rfl⟩ := exists_read_of_fieldIn hspelled hfield
  rw [resolveFieldKind_kind] at hname ⊢
  obtain ⟨hsame, hkind⟩ := @resolveKind_asRead last.file context _ hread
  rw [hsame] at hname
  rw [hkind name hname, isEnumName_iff hspelled hcontext]
  exact leafNamesEnum_iff hspelled (isReference_of_typeName hread hname) htype

end

/-- A reference of a source text: what the parser makes of a field of a message in it, and the type
that its type name designates. -/
theorem exists_reference [FloatConversions] {input : Bytes} {test : FieldKind → TypeRef → Bool}
    (h : (parse input).toOption.any (fun file =>
      file.packageSpelled.declaredMessages.any (fun pair => pair.2.fields.any (fun field =>
        field.kind.typeName.any (fun name =>
          (designated [file.packageSpelled] pair.1 (withoutLayout name)).any (test field.kind)))))
        = true) :
    ∃ file scope field name type, parse input = .ok file ∧ FieldIn file scope field ∧
      field.kind.typeName = some name ∧ file.designates scope name type ∧
      test field.kind type = true := by
  cases hparse : parse input with
  | error stop =>
      rw [hparse] at h
      cases h
  | ok file =>
      rw [hparse] at h
      obtain ⟨pair, hpair, h⟩ := List.any_eq_true.mp h
      obtain ⟨field, hfield, h⟩ := List.any_eq_true.mp h
      obtain ⟨name, hname, h⟩ := (Option.any_eq_true _ _).mp h
      obtain ⟨type, htype, h⟩ := (Option.any_eq_true _ _).mp h
      exact ⟨file, pair.1, field, name, type, rfl, .message hpair (List.mem_append_left _ hfield),
        hname, htype, h⟩

/-- An enum next to its field. -/
theorem resolvedKind_iff_nested :
    ∃ file scope field name type, @parse ⟨fun _ => none, fun _ => 0⟩
        (ascii "message A { enum E { X = 0; } optional E e = 1; }") = .ok file ∧
      FieldIn file scope field ∧ field.kind.typeName = some name ∧
      file.designates scope name type ∧
      ((field.kind.isEnumeration = true ↔ type.isEnumeration = true) ↔
        LeafTells file name type) := by
  obtain ⟨file, scope, field, name, type, hparse, hfield, hname, htype, -⟩ :=
    @exists_reference ⟨fun _ => none, fun _ => 0⟩
      (ascii "message A { enum E { X = 0; } optional E e = 1; }") (fun _ _ => true)
      (by decide +kernel)
  exact ⟨file, scope, field, name, type, hparse, hfield, hname, htype,
    @resolvedKind_iff file scope field name type ⟨fun _ => none, fun _ => 0⟩ _ hparse hfield hname
      htype⟩

/-- The field of `A` has the message of `A` that bears the name of the enum of `B`. -/
theorem exists_resolvedKind_ne :
    ∃ file scope field name type, @parse ⟨fun _ => none, fun _ => 0⟩
        (ascii "message A { message Item {} optional Item item = 1; } message B { enum Item { X = 0; } }")
          = .ok file ∧
      FieldIn file scope field ∧ field.kind.typeName = some name ∧
      file.designates scope name type ∧
      ¬ (field.kind.isEnumeration = true ↔ type.isEnumeration = true) := by
  obtain ⟨file, scope, field, name, type, hparse, hfield, hname, htype, htest⟩ :=
    @exists_reference ⟨fun _ => none, fun _ => 0⟩
      (ascii "message A { message Item {} optional Item item = 1; } message B { enum Item { X = 0; } }")
      (fun kind type => kind.isEnumeration && !type.isEnumeration) (by decide +kernel)
  refine ⟨file, scope, field, name, type, hparse, hfield, hname, htype, fun hiff => ?_⟩
  rw [Bool.and_eq_true, Bool.not_eq_true'] at htest
  rw [hiff.mp htest.1] at htest
  exact absurd htest.2 (by decide)

end Parser

end Pbz
