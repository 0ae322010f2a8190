import Pbz.Json.TypeNames
import Pbz.Dynamic.Encode

set_option autoImplicit false

/-! # Defaults that JSON leaves out

The JSON writer and the binary encoder both pass over a singular field without presence that holds
its default, but each decides with functions of its own. They agree up to four differences: JSON
takes negative zero for the default, goes by the syntax of the file before the features, takes the
label `optional` for presence, and finds enums under some names that the encoder does not.
-/

namespace Pbz

namespace FieldKind

def isScalar : FieldKind → Bool
  | .scalar _ => true
  | _ => false

def isEnumKind : FieldKind → Bool
  | .enumeration _ => true
  | _ => false

end FieldKind

def Value.isZeroEnumeration : Value → Bool
  | .enumeration v => v == 0
  | _ => false

namespace Json

section

variable (file : FileDescriptor) (registry : Option Registry) (current : MessageDescriptor)
  (field : FieldDescriptor)

def jsonFieldHasPresence : Bool :=
  let isEnum := jsonFieldKindIsRegistryEnum file registry current field.kind
  if file.fileSyntax == .proto3 && !field.proto3Optional && field.oneofName.isNone
      && field.cardinality != .required
      && (field.kind.isScalar || field.kind.isEnumKind || isEnum) then false
  else if field.cardinality == .required || field.cardinality == .optional || field.proto3Optional
      || field.oneofName.isSome || field.kind.isGroup then true
  else if field.kind.isMessage && !isEnum then true
  else if field.cardinality == .repeated || field.kind.isMap then false
  else match field.features with
    | some features => features.fieldPresence != .implicit
    | none => file.features.fieldPresence != .implicit

def jsonValueIsDefault (value : Value) : Bool :=
  if field.defaultValue.isSome then false
  else if jsonFieldKindIsRegistryEnum file registry current field.kind then
    value.isZeroEnumeration
  else match field.kind, value with
    | .scalar .double, .double v => doubleEqual v 0
    | .scalar .float, .float v => floatEqual v 0
    | .scalar .int32, .int32 v => v == 0
    | .scalar .int64, .int64 v => v == 0
    | .scalar .uint32, .uint32 v => v == 0
    | .scalar .uint64, .uint64 v => v == 0
    | .scalar .sint32, .sint32 v => v == 0
    | .scalar .sint64, .sint64 v => v == 0
    | .scalar .fixed32, .fixed32 v => v == 0
    | .scalar .fixed64, .fixed64 v => v == 0
    | .scalar .sfixed32, .sfixed32 v => v == 0
    | .scalar .sfixed64, .sfixed64 v => v == 0
    | .scalar .bool, .boolean v => !v
    | .scalar .string, .string v => v.isEmpty
    | .scalar .bytes, .bytes v => v.isEmpty
    | .enumeration _, .enumeration v => v == 0
    | _, _ => false

/-- The test that `shouldSkipDefaultJsonField` makes of the one value of a singular field; the file
is the one that defines the field. -/
def jsonLeavesOut (value : Value) : Prop :=
  jsonFieldHasPresence (fieldDefiningFile file registry field) registry current field = false ∧
    jsonValueIsDefault (fieldDefiningFile file registry field) registry current field value = true

/-- The test that `encodeWithRegistry` makes of it. -/
def encoderLeavesOut (value : Value) : Prop :=
  fieldHasPresenceForEncoding file registry current field = false ∧
    isDefaultSingularValueForEncoding file registry current field value = true

end

/-! ## The two tests -/

/-- Nothing in the declaration of the field itself gives it presence or a default. -/
structure Unmarked (field : FieldDescriptor) : Prop where
  noDefault : field.defaultValue = none
  noOptional : field.proto3Optional = false
  noOneof : field.oneofName = none
  notRequired : field.cardinality ≠ .required

/-- The features that the field is under leave it without presence. -/
def ImplicitPresence (file : FileDescriptor) (field : FieldDescriptor) : Prop :=
  (field.effectiveFeatures file).fieldPresence = .implicit

/-- What the JSON writer goes by. -/
def JsonImplicit (file : FileDescriptor) (field : FieldDescriptor) : Prop :=
  file.fileSyntax = .proto3 ∨ field.cardinality ≠ .optional ∧ ImplicitPresence file field

/-- The zero of a kind; `isEnum` says whether a message kind stands for an enum. -/
inductive ZeroOf (isEnum : Prop) : FieldKind → Value → Prop where
  | double : ZeroOf isEnum (.scalar .double) (.double 0)
  | float : ZeroOf isEnum (.scalar .float) (.float 0)
  | int32 : ZeroOf isEnum (.scalar .int32) (.int32 0)
  | int64 : ZeroOf isEnum (.scalar .int64) (.int64 0)
  | uint32 : ZeroOf isEnum (.scalar .uint32) (.uint32 0)
  | uint64 : ZeroOf isEnum (.scalar .uint64) (.uint64 0)
  | sint32 : ZeroOf isEnum (.scalar .sint32) (.sint32 0)
  | sint64 : ZeroOf isEnum (.scalar .sint64) (.sint64 0)
  | fixed32 : ZeroOf isEnum (.scalar .fixed32) (.fixed32 0)
  | fixed64 : ZeroOf isEnum (.scalar .fixed64) (.fixed64 0)
  | sfixed32 : ZeroOf isEnum (.scalar .sfixed32) (.sfixed32 0)
  | sfixed64 : ZeroOf isEnum (.scalar .sfixed64) (.sfixed64 0)
  | bool : ZeroOf isEnum (.scalar .bool) (.boolean false)
  | string : ZeroOf isEnum (.scalar .string) (.string [])
  | bytes : ZeroOf isEnum (.scalar .bytes) (.bytes [])
  | enumeration {name : Bytes} : ZeroOf isEnum (.enumeration name) (.enumeration 0)
  | message {name : Bytes} (h : isEnum) : ZeroOf isEnum (.message name) (.enumeration 0)

/-- A negative zero in a float field. -/
inductive NegativeZero : FieldKind → Value → Prop where
  | double : NegativeZero (.scalar .double) (.double 0x8000000000000000)
  | float : NegativeZero (.scalar .float) (.float 0x80000000)

theorem doubleEqual_zero_iff {v : BitVec 64} :
    doubleEqual v 0 = true ↔ v = 0 ∨ v = 0x8000000000000000 := by
  have hv := v.isLt
  have hzero : (0 : BitVec 64).toNat = 0 := rfl
  have hnegative : (0x8000000000000000 : BitVec 64).toNat = 2 ^ 63 := rfl
  simp only [doubleEqual, Bool.and_eq_true, Bool.or_eq_true, beq_iff_eq, decide_eq_true_eq,
    ← BitVec.toNat_inj]
  omega

theorem floatEqual_zero_iff {v : BitVec 32} :
    floatEqual v 0 = true ↔ v = 0 ∨ v = 0x80000000 := by
  have hv := v.isLt
  have hzero : (0 : BitVec 32).toNat = 0 := rfl
  have hnegative : (0x80000000 : BitVec 32).toNat = 2 ^ 31 := rfl
  simp only [floatEqual, Bool.and_eq_true, Bool.or_eq_true, beq_iff_eq, decide_eq_true_eq,
    ← BitVec.toNat_inj]
  omega

section

variable {file : FileDescriptor} {registry : Option Registry} {current : MessageDescriptor}
  {field : FieldDescriptor} {value : Value}

theorem isDefaultSingularValue_iff :
    isDefaultSingularValue field value = true ↔
      field.defaultValue = none ∧ ZeroOf False field.kind value := by
  unfold isDefaultSingularValue
  by_cases hdefault : field.defaultValue.isSome
  · rw [if_pos hdefault]
    simp [Option.isSome_iff_ne_none.mp hdefault]
  · rw [if_neg hdefault]
    have hnone : field.defaultValue = none := by simpa using hdefault
    constructor
    · intro h
      refine ⟨hnone, ?_⟩
      revert h
      generalize field.kind = kind
      split <;> intro h <;> simp at h <;> subst h <;> constructor
    · rintro ⟨-, h⟩
      revert h
      generalize field.kind = kind
      intro h
      cases h <;> first | rfl | contradiction

/-- The name of an enum is the name of a message or an enum kind. -/
theorem kind_of_enumName {kind : FieldKind} {name : Bytes} (h : kind.enumName = some name) :
    kind = .message name ∨ kind = .enumeration name := by
  cases kind <;> cases h <;> simp

/-- The zero of a kind that names an enum. -/
theorem zeroOf_enum_iff {isEnum : Prop} {kind : FieldKind} {name : Bytes}
    (h : kind.enumName = some name) (henum : isEnum) :
    ZeroOf isEnum kind value ↔ value = .enumeration 0 := by
  rcases kind_of_enumName h with rfl | rfl
  · exact ⟨fun hzero => by cases hzero; rfl, fun hvalue => hvalue ▸ .message henum⟩
  · exact ⟨fun hzero => by cases hzero; rfl, fun hvalue => hvalue ▸ .enumeration⟩

theorem isZeroEnumeration_iff : value.isZeroEnumeration = true ↔ value = .enumeration 0 := by
  cases value <;> simp [Value.isZeroEnumeration]

/-- Whether the encoder takes the kind of the field for an enum. -/
def EncoderEnum (file : FileDescriptor) (registry : Option Registry) (current : MessageDescriptor)
    (kind : FieldKind) : Prop :=
  (Pbz.registryEnumDescriptor file registry current kind).isSome = true

/-- Whether the JSON writer does. -/
def JsonEnum (file : FileDescriptor) (registry : Option Registry) (current : MessageDescriptor)
    (kind : FieldKind) : Prop :=
  jsonFieldKindIsRegistryEnum file registry current kind = true

theorem EncoderEnum.enumName {kind : FieldKind} (h : EncoderEnum file registry current kind) :
    ∃ name, kind.enumName = some name := by
  cases hname : kind.enumName with
  | some name => exact ⟨name, rfl⟩
  | none => simp [EncoderEnum, Pbz.registryEnumDescriptor, hname] at h

theorem JsonEnum.enumName {kind : FieldKind} (h : JsonEnum file registry current kind) :
    ∃ name, kind.enumName = some name := by
  cases hname : kind.enumName with
  | some name => exact ⟨name, rfl⟩
  | none => simp [JsonEnum, jsonFieldKindIsRegistryEnum, hname] at h

theorem zeroOf_congr {isEnum other : Prop} {kind : FieldKind} (h : isEnum ↔ other) :
    ZeroOf isEnum kind value ↔ ZeroOf other kind value := by
  rw [propext h]

theorem fieldKindIsRegistryEnum_isNone_iff {kind : FieldKind} :
    fieldKindIsRegistryEnum file registry current kind = none ↔
      ¬ EncoderEnum file registry current kind := by
  unfold fieldKindIsRegistryEnum EncoderEnum
  by_cases h : (Pbz.registryEnumDescriptor file registry current kind).isSome
  · obtain ⟨name, hname⟩ := EncoderEnum.enumName h
    simp [h, hname]
  · simp [h]

theorem isDefaultSingularValueForEncoding_iff :
    isDefaultSingularValueForEncoding file registry current field value = true ↔
      field.defaultValue = none ∧
        ZeroOf (EncoderEnum (fieldDefiningFile file registry field) registry current field.kind)
          field.kind value := by
  unfold isDefaultSingularValueForEncoding
  by_cases hdefault : field.defaultValue.isSome
  · rw [if_pos hdefault]
    simp [Option.isSome_iff_ne_none.mp hdefault]
  · rw [if_neg hdefault]
    have hnone : field.defaultValue = none := by simpa using hdefault
    by_cases henum : EncoderEnum (fieldDefiningFile file registry field) registry current field.kind
    · obtain ⟨name, hname⟩ := henum.enumName
      have hfound : fieldKindIsRegistryEnum (fieldDefiningFile file registry field) registry
          current field.kind = some name := by
        unfold fieldKindIsRegistryEnum
        rw [if_pos (show _ = true from henum), hname]
      rw [hfound]
      show value.isZeroEnumeration = true ↔ _
      simp only [isZeroEnumeration_iff, zeroOf_enum_iff hname henum, hnone, true_and]
    · rw [fieldKindIsRegistryEnum_isNone_iff.mpr henum]
      show isDefaultSingularValue field value = true ↔ _
      rw [isDefaultSingularValue_iff, zeroOf_congr (iff_false_intro henum)]

theorem jsonValueIsDefault_iff :
    jsonValueIsDefault file registry current field value = true ↔
      field.defaultValue = none ∧
        (ZeroOf (JsonEnum file registry current field.kind) field.kind value
          ∨ NegativeZero field.kind value) := by
  unfold jsonValueIsDefault
  by_cases hdefault : field.defaultValue.isSome
  · rw [if_pos hdefault]
    simp [Option.isSome_iff_ne_none.mp hdefault]
  · rw [if_neg hdefault]
    have hnone : field.defaultValue = none := by simpa using hdefault
    by_cases henum : JsonEnum file registry current field.kind
    · obtain ⟨name, hname⟩ := henum.enumName
      have hnegative : ¬ NegativeZero field.kind value := by
        intro h
        rcases kind_of_enumName hname with hkind | hkind
        · rw [hkind] at h
          cases h
        · rw [hkind] at h
          cases h
      rw [if_pos (show _ = true from henum), isZeroEnumeration_iff, zeroOf_enum_iff hname henum]
      simp [hnone, hnegative]
    · rw [if_neg (show ¬ _ = true from henum), zeroOf_congr (iff_false_intro henum)]
      constructor
      · intro h
        refine ⟨hnone, ?_⟩
        revert h
        generalize field.kind = kind
        split
        · intro h
          rcases doubleEqual_zero_iff.mp h with rfl | rfl
          · exact .inl .double
          · exact .inr .double
        · intro h
          rcases floatEqual_zero_iff.mp h with rfl | rfl
          · exact .inl .float
          · exact .inr .float
        all_goals
          intro h
          first
          | exact absurd h Bool.false_ne_true
          | simp at h
            subst h
            exact .inl (by constructor)
      · rintro ⟨-, h⟩
        revert h
        generalize field.kind = kind
        rintro (h | h)
        · cases h <;> first | rfl | contradiction
        · cases h <;> rfl

/-! ## Presence -/

/-- A kind whose values are scalars: what has a zero is of such a kind. -/
def IsLeaf (isEnum : Prop) : FieldKind → Prop
  | .scalar _ | .enumeration _ => True
  | .message _ => isEnum
  | .group _ | .map _ _ => False

theorem ZeroOf.isLeaf {isEnum : Prop} {kind : FieldKind} (h : ZeroOf isEnum kind value) :
    IsLeaf isEnum kind := by
  cases h with
  | message h => exact h
  | _ => trivial

theorem NegativeZero.isLeaf {isEnum : Prop} {kind : FieldKind} (h : NegativeZero kind value) :
    IsLeaf isEnum kind := by
  cases h <;> trivial

theorem jsonFieldHasPresence_iff (hsingular : field.isRepeatedLike = false)
    (hleaf : IsLeaf (JsonEnum file registry current field.kind) field.kind) :
    jsonFieldHasPresence file registry current field = false ↔
      (field.proto3Optional = false ∧ field.oneofName = none ∧ field.cardinality ≠ .required) ∧
        JsonImplicit file field := by
  obtain ⟨hrepeated, hmap⟩ : field.cardinality ≠ .repeated ∧ field.kind.isMap = false := by
    simpa [FieldDescriptor.isRepeatedLike] using hsingular
  have hgroup : field.kind.isGroup = false := by
    cases hkind : field.kind <;> simp_all [IsLeaf, FieldKind.isGroup]
  have hmessage : (field.kind.isMessage &&
      !jsonFieldKindIsRegistryEnum file registry current field.kind) = false := by
    cases hkind : field.kind <;> simp_all [IsLeaf, FieldKind.isMessage, JsonEnum]
  -- the first test asks for a scalar or an enum, which a leaf is
  have hshape : (field.kind.isScalar || field.kind.isEnumKind
      || jsonFieldKindIsRegistryEnum file registry current field.kind) = true := by
    cases hkind : field.kind <;>
      simp_all [IsLeaf, JsonEnum, FieldKind.isScalar, FieldKind.isEnumKind]
  unfold jsonFieldHasPresence JsonImplicit ImplicitPresence FieldDescriptor.effectiveFeatures
  dsimp only
  rw [hshape, hmessage, hgroup, hmap]
  by_cases hmarked : field.proto3Optional = true ∨ field.oneofName ≠ none
      ∨ field.cardinality = .required
  · -- the field has presence by its own declaration
    rcases hmarked with h | h | h
    · simp [h]
    · simp [h, Option.isSome_iff_ne_none.mpr h]
    · simp [h]
  · obtain ⟨hoptional, honeof, hrequired⟩ : field.proto3Optional = false ∧ field.oneofName = none
        ∧ field.cardinality ≠ .required := by simpa [not_or] using hmarked
    by_cases hversion : file.fileSyntax = .proto3
    · simp [hversion, hoptional, honeof, hrequired]
    · by_cases hlabel : field.cardinality = .optional
      · simp [hversion, hoptional, honeof, hlabel]
      · -- what is left are the features
        cases hfeatures : field.features <;>
          simp [hversion, hoptional, honeof, hrequired, hlabel, hrepeated]

/-- `legacy_required` is one of the ways the features give a field presence. -/
theorem fieldHasPresenceForEncoding_iff (hsingular : field.isRepeatedLike = false)
    (hleaf : IsLeaf (EncoderEnum (fieldDefiningFile file registry field) registry current field.kind)
      field.kind) :
    fieldHasPresenceForEncoding file registry current field = false ↔
      (field.proto3Optional = false ∧ field.oneofName = none ∧ field.cardinality ≠ .required) ∧
        ImplicitPresence (fieldDefiningFile file registry field) field := by
  obtain ⟨hrepeated, hmap⟩ : field.cardinality ≠ .repeated ∧ field.kind.isMap = false := by
    simpa [FieldDescriptor.isRepeatedLike] using hsingular
  have hgroup : field.kind.isGroup = false := by
    cases hkind : field.kind <;> simp_all [IsLeaf, FieldKind.isGroup]
  have hmessage : (field.kind.isMessage && (fieldKindIsRegistryEnum
      (fieldDefiningFile file registry field) registry current field.kind).isNone) = false := by
    cases hkind : field.kind with
    | message name =>
        have henum : EncoderEnum (fieldDefiningFile file registry field) registry current
            (.message name) := by simpa [hkind, IsLeaf] using hleaf
        have hfound := mt fieldKindIsRegistryEnum_isNone_iff.mp (not_not.mpr henum)
        simpa [FieldKind.isMessage, Option.isSome_iff_ne_none] using hfound
    | _ => rfl
  unfold fieldHasPresenceForEncoding ImplicitPresence FieldDescriptor.effectiveFeatures
    FieldDescriptor.isRequired
  dsimp only
  rw [hmessage, hgroup, hmap]
  by_cases hmarked : field.proto3Optional = true ∨ field.oneofName ≠ none
      ∨ field.cardinality = .required
  · rcases hmarked with h | h | h
    · simp [h]
    · simp [h, Option.isSome_iff_ne_none.mpr h]
    · simp [h]
  · obtain ⟨hoptional, honeof, hrequired⟩ : field.proto3Optional = false ∧ field.oneofName = none
        ∧ field.cardinality ≠ .required := by simpa [not_or] using hmarked
    cases hfeatures : field.features with
    | none => simp [hoptional, honeof, hrequired, hrepeated]
    | some features =>
        cases hpresence : features.fieldPresence <;>
          simp [hoptional, honeof, hrequired, hrepeated, hpresence]

/-! ## Where they agree -/

theorem unmarked_iff : Unmarked field ↔ field.defaultValue = none ∧
    (field.proto3Optional = false ∧ field.oneofName = none ∧ field.cardinality ≠ .required) :=
  ⟨fun h => ⟨h.noDefault, h.noOptional, h.noOneof, h.notRequired⟩,
    fun ⟨hdefault, hoptional, honeof, hrequired⟩ => ⟨hdefault, hoptional, honeof, hrequired⟩⟩

theorem jsonLeavesOut_iff (hsingular : field.isRepeatedLike = false) :
    jsonLeavesOut file registry current field value ↔
      Unmarked field ∧ JsonImplicit (fieldDefiningFile file registry field) field ∧
        (ZeroOf (JsonEnum (fieldDefiningFile file registry field) registry current field.kind)
            field.kind value
          ∨ NegativeZero field.kind value) := by
  unfold jsonLeavesOut
  rw [jsonValueIsDefault_iff, unmarked_iff]
  constructor
  · rintro ⟨hpresence, hdefault, hzero⟩
    have hleaf := hzero.elim ZeroOf.isLeaf NegativeZero.isLeaf
    obtain ⟨hmarks, himplicit⟩ := (jsonFieldHasPresence_iff hsingular hleaf).mp hpresence
    exact ⟨⟨hdefault, hmarks⟩, himplicit, hzero⟩
  · rintro ⟨⟨hdefault, hmarks⟩, himplicit, hzero⟩
    have hleaf := hzero.elim ZeroOf.isLeaf NegativeZero.isLeaf
    exact ⟨(jsonFieldHasPresence_iff hsingular hleaf).mpr ⟨hmarks, himplicit⟩, hdefault, hzero⟩

theorem encoderLeavesOut_iff (hsingular : field.isRepeatedLike = false) :
    encoderLeavesOut file registry current field value ↔
      Unmarked field ∧ ImplicitPresence (fieldDefiningFile file registry field) field ∧
        ZeroOf (EncoderEnum (fieldDefiningFile file registry field) registry current field.kind)
          field.kind value := by
  unfold encoderLeavesOut
  rw [isDefaultSingularValueForEncoding_iff, unmarked_iff]
  constructor
  · rintro ⟨hpresence, hdefault, hzero⟩
    obtain ⟨hmarks, himplicit⟩ :=
      (fieldHasPresenceForEncoding_iff hsingular hzero.isLeaf).mp hpresence
    exact ⟨⟨hdefault, hmarks⟩, himplicit, hzero⟩
  · rintro ⟨⟨hdefault, hmarks⟩, himplicit, hzero⟩
    exact ⟨(fieldHasPresenceForEncoding_iff hsingular hzero.isLeaf).mpr ⟨hmarks, himplicit⟩,
      hdefault, hzero⟩

/-- The ways in which the two come apart on a field that its declaration leaves unmarked: a
negative zero; a zero in a proto3 file under features that give it presence; a zero labelled
`optional` under implicit presence in another file; and the zero of an enum under a name that only
one of the two lookups resolves to it. -/
inductive LeavesOutDifferently (file : FileDescriptor) (registry : Option Registry)
    (current : MessageDescriptor) (field : FieldDescriptor) (value : Value) : Prop where
  | negativeZero (h : Unmarked field) (hzero : NegativeZero field.kind value)
      (himplicit : JsonImplicit file field)
  | proto3 (h : Unmarked field)
      (hzero : ZeroOf (JsonEnum file registry current field.kind) field.kind value)
      (hversion : file.fileSyntax = .proto3) (hfeatures : ¬ ImplicitPresence file field)
  | label (h : Unmarked field)
      (hzero : ZeroOf (EncoderEnum file registry current field.kind) field.kind value)
      (hversion : file.fileSyntax ≠ .proto3) (hlabel : field.cardinality = .optional)
      (hfeatures : ImplicitPresence file field)
  | jsonName {name : Bytes} (h : Unmarked field) (hkind : field.kind = .message name)
      (hzero : value = .enumeration 0) (hfound : JsonEnum file registry current field.kind)
      (hmissed : ¬ EncoderEnum file registry current field.kind)
      (himplicit : JsonImplicit file field)
  | encoderName {name : Bytes} (h : Unmarked field) (hkind : field.kind = .message name)
      (hzero : value = .enumeration 0) (hfound : EncoderEnum file registry current field.kind)
      (hmissed : ¬ JsonEnum file registry current field.kind)
      (hfeatures : ImplicitPresence file field)

theorem NegativeZero.not_zeroOf {isEnum : Prop} {kind : FieldKind}
    (h : NegativeZero kind value) : ¬ ZeroOf isEnum kind value := by
  intro hzero
  cases h with
  | double => nomatch hzero
  | float => nomatch hzero

/-- A zero under one reading of the names only is that of an enum named by a message kind. -/
theorem ZeroOf.differs {isEnum other : Prop} {kind : FieldKind} (h : ZeroOf isEnum kind value)
    (hother : ¬ ZeroOf other kind value) :
    (∃ name, kind = .message name) ∧ value = .enumeration 0 ∧ isEnum ∧ ¬ other := by
  cases h with
  | @message name h => exact ⟨⟨name, rfl⟩, rfl, h, fun hzero => hother (.message hzero)⟩
  | _ => exact absurd (by constructor) hother

/-- JSON and the binary form leave out the same values except in the cases listed. -/
theorem leavesOut_agree_iff (hsingular : field.isRepeatedLike = false) :
    (jsonLeavesOut file registry current field value
        ↔ encoderLeavesOut file registry current field value) ↔
      ¬ LeavesOutDifferently (fieldDefiningFile file registry field) registry current field
        value := by
  rw [jsonLeavesOut_iff hsingular, encoderLeavesOut_iff hsingular]
  generalize fieldDefiningFile file registry field = file
  constructor
  · rintro hagree (⟨h, hzero, himplicit⟩ | ⟨h, hzero, hversion, hfeatures⟩ |
      ⟨h, hzero, hversion, hlabel, hfeatures⟩ | ⟨h, hkind, hzero, hfound, hmissed, himplicit⟩ |
      ⟨h, hkind, hzero, hfound, hmissed, hfeatures⟩)
    · exact hzero.not_zeroOf (hagree.mp ⟨h, himplicit, .inr hzero⟩).2.2
    · exact hfeatures (hagree.mp ⟨h, .inl hversion, .inl hzero⟩).2.1
    · obtain hproto3 | ⟨hunlabelled, -⟩ := (hagree.mpr ⟨h, hfeatures, hzero⟩).2.1
      · exact hversion hproto3
      · exact hunlabelled hlabel
    · have hjson : ZeroOf (JsonEnum file registry current field.kind) field.kind value := by
        rw [hkind, hzero]
        exact .message (hkind ▸ hfound)
      have hencoder := (hagree.mp ⟨h, himplicit, .inl hjson⟩).2.2
      rw [hkind, hzero] at hencoder
      cases hencoder with
      | message hfound => exact hmissed (hkind ▸ hfound)
    · have hencoder : ZeroOf (EncoderEnum file registry current field.kind) field.kind value := by
        rw [hkind, hzero]
        exact .message (hkind ▸ hfound)
      have hjson := (hagree.mpr ⟨h, hfeatures, hencoder⟩).2.2
      rw [hkind, hzero] at hjson
      rcases hjson with hjson | hjson
      · cases hjson with
        | message hfound => exact hmissed (hkind ▸ hfound)
      · nomatch hjson
  · intro hnone
    constructor
    · rintro ⟨h, himplicit, hzero | hzero⟩
      · have hencoder : ZeroOf (EncoderEnum file registry current field.kind) field.kind value := by
          by_contra hother
          obtain ⟨⟨name, hkind⟩, hvalue, hfound, hmissed⟩ := hzero.differs hother
          exact hnone (.jsonName h hkind hvalue hfound hmissed himplicit)
        refine ⟨h, ?_, hencoder⟩
        by_contra hfeatures
        obtain hproto3 | ⟨-, himplicit⟩ := himplicit
        · exact hnone (.proto3 h hzero hproto3 hfeatures)
        · exact hfeatures himplicit
      · exact absurd (.negativeZero h hzero himplicit) hnone
    · rintro ⟨h, hfeatures, hzero⟩
      have hjson : ZeroOf (JsonEnum file registry current field.kind) field.kind value := by
        by_contra hother
        obtain ⟨⟨name, hkind⟩, hvalue, hfound, hmissed⟩ := hzero.differs hother
        exact hnone (.encoderName h hkind hvalue hfound hmissed hfeatures)
      refine ⟨h, ?_, .inl hjson⟩
      by_cases hversion : file.fileSyntax = .proto3
      · exact .inl hversion
      · refine .inr ⟨fun hlabel => ?_, hfeatures⟩
        exact hnone (.label h hzero hversion hlabel hfeatures)

end

/-! ## A negative zero -/

/-- `syntax = "proto3"; message M { double x = 1; }` -/
abbrev measureField : FieldDescriptor :=
  { name := ascii "x", number := 1, kind := .scalar .double }

abbrev measureMessage : MessageDescriptor := { name := ascii "M", fields := [measureField] }

abbrev measureFile : FileDescriptor :=
  { ({} : FileDescriptor).setSyntax .proto3 with messages := [measureMessage] }

/-- JSON leaves a negative zero out, the binary form keeps it. -/
theorem exists_left_out_by_json_only :
    jsonLeavesOut measureFile none measureMessage measureField (.double 0x8000000000000000) ∧
    ¬ encoderLeavesOut measureFile none measureMessage measureField (.double 0x8000000000000000) ∧
    ¬ (jsonLeavesOut measureFile none measureMessage measureField (.double 0x8000000000000000) ↔
      encoderLeavesOut measureFile none measureMessage measureField
        (.double 0x8000000000000000)) := by
  have hjson : jsonLeavesOut measureFile none measureMessage measureField
      (.double 0x8000000000000000) := ⟨by decide, by decide⟩
  have hencoder : ¬ encoderLeavesOut measureFile none measureMessage measureField
      (.double 0x8000000000000000) := fun h => absurd h.2 (by decide)
  exact ⟨hjson, hencoder, fun h => hencoder (h.mp hjson)⟩

/-- The two agree on a positive zero. -/
theorem leavesOut_agree_iff_zero :
    (jsonLeavesOut measureFile none measureMessage measureField (.double 0)
        ↔ encoderLeavesOut measureFile none measureMessage measureField (.double 0)) ↔
      ¬ LeavesOutDifferently (fieldDefiningFile measureFile none measureField) none measureMessage
        measureField (.double 0) :=
  leavesOut_agree_iff (by decide)

end Json

end Pbz
