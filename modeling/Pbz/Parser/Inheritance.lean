import Pbz.Parser.Features

set_option autoImplicit false

/-! # The features a field is under

The accessors of a field against the nearest element that sets a feature: the field, its oneof, the
messages around it from inside out and the file.
-/

namespace Pbz

open Settings

namespace FieldDescriptor

/-- `fieldPresence`. -/
def fieldPresence (field : FieldDescriptor) (file : FileDescriptor) : FieldPresence :=
  (field.effectiveFeatures file).fieldPresence

/-- `hasPresence` asks the features for singular fields of a scalar or enum type only that are
neither required nor in a oneof. -/
def PresenceByFeature (field : FieldDescriptor) : Prop :=
  field.cardinality ≠ .required ∧ field.cardinality ≠ .repeated ∧ field.proto3Optional = false ∧
    field.oneofName = none ∧ field.kind.isMessage = false ∧ field.kind.isGroup = false ∧
    field.kind.isMap = false

instance (field : FieldDescriptor) : Decidable field.PresenceByFeature :=
  inferInstanceAs (Decidable (_ ∧ _))

theorem hasPresence_eq {field : FieldDescriptor} {file : FileDescriptor}
    (h : field.PresenceByFeature) :
    field.hasPresence file = (field.fieldPresence file != .implicit) := by
  obtain ⟨hrequired, hrepeated, hproto3, honeof, hmessage, hgroup, hmap⟩ := h
  unfold hasPresence isRequired fieldPresence effectiveFeatures
  cases hfeatures : field.features with
  | none => simp [hrequired, hrepeated, hproto3, honeof, hmessage, hgroup, hmap]
  | some features =>
      cases hpresence : features.fieldPresence <;>
        simp [hrequired, hrepeated, hproto3, honeof, hmessage, hgroup, hmap, hpresence]

end FieldDescriptor

/-! ## Levels -/

/-- Messages of a file, each one declared in the next: the ones around a place from inside out. -/
inductive Enclosing (file : FileDescriptor) : List MessageDescriptor → Prop where
  | file : Enclosing file []
  | top {message : MessageDescriptor} (hmem : message ∈ file.messages) : Enclosing file [message]
  | nested {message outer : MessageDescriptor} {around : List MessageDescriptor}
      (houter : Enclosing file (outer :: around)) (hmem : message ∈ outer.messages) :
      Enclosing file (message :: outer :: around)

theorem Enclosing.declaredIn {file : FileDescriptor} {around : List MessageDescriptor}
    {message : MessageDescriptor} (h : Enclosing file (message :: around)) : DeclaredIn file message := by
  generalize hchain : message :: around = chain at h
  induction h generalizing message around with
  | file => cases hchain
  | top hmem =>
      cases hchain
      exact .top hmem
  | nested houter hmem ih =>
      cases hchain
      exact .nested (ih rfl) hmem

/-- A field or an extension of a file with the messages around it. -/
inductive FieldAt (file : FileDescriptor) : List MessageDescriptor → FieldDescriptor → Prop where
  | extension {field : FieldDescriptor} (hmem : field ∈ file.extensions) : FieldAt file [] field
  | message {field : FieldDescriptor} {message : MessageDescriptor}
      {around : List MessageDescriptor} (haround : Enclosing file (message :: around))
      (hmem : field ∈ message.fields ++ message.extensions) :
      FieldAt file (message :: around) field

/-- The options of the oneof that a field is in. -/
def oneofOptions (around : List MessageDescriptor) (field : FieldDescriptor) :
    Option (List FieldOption) := do
  let message ← around.head?
  let oneof ← message.findOneof (← field.oneofName)
  return oneof.options

/-- The options around a field, from inside out. -/
def outerOptions (file : FileDescriptor) (around : List MessageDescriptor)
    (field : FieldDescriptor) : List (List FieldOption) :=
  (oneofOptions around field).toList ++ around.map (·.options) ++ [file.options]

/-- What the nearest element sets a feature to, and the default of the edition if none does. -/
def Feature.inherited {α : Type} (feature : Feature α) (file : FileDescriptor)
    (around : List MessageDescriptor) (field : FieldDescriptor) : α :=
  feature.nearest (field.options :: outerOptions file around field)

/-- The accessors of a field use the values of the nearest elements. -/
structure UsesNearest (file : FileDescriptor) (around : List MessageDescriptor)
    (field : FieldDescriptor) : Prop where
  hasPresence : field.PresenceByFeature → field.hasPresence file
    = (Feature.fieldPresence.inherited file around field != .implicit)
  resolvedPacked : field.isPackable = true → field.resolvedPacked file
    = (Feature.repeatedFieldEncoding.inherited file around field == .packedEncoding)
  utf8Validation : field.utf8Validation file = Feature.utf8Validation.inherited file around field
  messageEncoding : field.messageEncoding file
    = Feature.messageEncoding.inherited file around field

/-- For a feature that the options of the field do not set, what is set around the field makes no
difference: from the default if the field sets some other feature, else from what the file says. -/
def Feature.Undisturbed {α β : Type} (feature : Feature α) (view : α → β) (file : FileDescriptor)
    (around : List MessageDescriptor) (field : FieldDescriptor) : Prop :=
  lastSetting feature.sets field.options = none →
    view (feature.nearest (outerOptions file around field))
      = view (if field.options.any (fun option => Parser.isFeatureOption option.name) then
          feature.editionDefault
        else feature.nearest [file.options])

/-- The condition on the options of a field, of what is around it and of the file. -/
structure Undisturbed (file : FileDescriptor) (around : List MessageDescriptor)
    (field : FieldDescriptor) : Prop where
  presence : field.PresenceByFeature →
    Feature.fieldPresence.Undisturbed (· != .implicit) file around field
  /-- An option of the field by the name of `packed` or `repeated_field_encoding` comes first. -/
  packing : field.isPackable = true → ∀ packed,
    Parser.packedSetting field.options = some packed →
      packed = (Feature.repeatedFieldEncoding.inherited file around field == .packedEncoding)
  encoding : field.isPackable = true → Parser.packedSetting field.options = none →
    Feature.repeatedFieldEncoding.Undisturbed (· == .packedEncoding) file around field
  utf8Validation : Feature.utf8Validation.Undisturbed id file around field
  messageEncoding : Feature.messageEncoding.Undisturbed id file around field

namespace Parser

variable {file : FileDescriptor} {around : List MessageDescriptor} {field : FieldDescriptor}

theorem Feature.nearest_cons {α : Type} {feature : Feature α} (options : List FieldOption)
    (outer : List (List FieldOption)) : feature.nearest (options :: outer)
      = (lastSetting feature.sets options).getD (feature.nearest outer) := by
  rw [Feature.nearest, Settings.nearest_cons]
  cases lastSetting feature.sets options <;> rfl

/-- What a field uses of a feature. -/
theorem Feature.used_eq {α : Type} {feature : Feature α} (hfollows : Feature.Follows feature)
    (hfield : SetBy field.options field.features)
    (hfile : file.options.foldlM applyFeature (FeatureSet.defaults .editions) = .ok file.features) :
    feature.get (field.effectiveFeatures file)
      = (lastSetting feature.sets field.options).getD
          (if field.options.any (fun option => isFeatureOption option.name) then
            feature.editionDefault
          else feature.nearest [file.options]) := by
  have hgoverns := governs_of_follows hfollows
  have hisSome := hfield.isSome
  unfold FieldDescriptor.effectiveFeatures
  cases hfeatures : field.features with
  | some features =>
      rw [hfeatures, Option.isSome_some] at hisSome
      rw [← hisSome, if_pos rfl]
      have hvalue := hgoverns.foldlM hfield.value
      rw [hfeatures] at hvalue
      exact hvalue
  | none =>
      rw [hfeatures, Option.isSome_none] at hisSome
      -- no option of the field is a feature option
      have hnone : lastSetting feature.sets field.options = none := by
        cases hlast : lastSetting feature.sets field.options with
        | none => rfl
        | some value =>
            obtain ⟨option, hmem, hsets⟩ := exists_of_lastSetting hlast
            have hplain := List.any_eq_false.mp hisSome.symm option hmem
            rw [Feature.sets, if_neg (by simp [hplain])] at hsets
            cases hsets
      rw [← hisSome, hnone, if_neg (by decide), Option.getD_none, Feature.nearest,
        nearest_singleton]
      exact hgoverns.foldlM hfile

/-- A feature that a field uses is the nearest one if and only if it is undisturbed. -/
theorem Feature.used_iff {α β : Type} {feature : Feature α} {view : α → β}
    (hfollows : Feature.Follows feature) (hfield : SetBy field.options field.features)
    (hfile : file.options.foldlM applyFeature (FeatureSet.defaults .editions) = .ok file.features) :
    view (feature.get (field.effectiveFeatures file)) = view (feature.inherited file around field) ↔
      feature.Undisturbed view file around field := by
  rw [Feature.used_eq hfollows hfield hfile, Feature.inherited,
    Feature.nearest_cons field.options, Feature.Undisturbed]
  cases hlast : lastSetting feature.sets field.options with
  | some value => simp
  | none =>
      rw [Option.getD_none, Option.getD_none]
      exact ⟨fun h _ => h.symm, fun h => (h rfl).symm⟩

theorem resolvedPacked_eq (hedition : file.fileSyntax = .editions)
    (hpackable : field.isPackable = true) :
    field.resolvedPacked file = field.packedOverride.getD
      ((field.effectiveFeatures file).repeatedFieldEncoding == .packedEncoding) := by
  unfold FieldDescriptor.resolvedPacked FieldDescriptor.effectiveFeatures
  rw [hpackable, hedition]
  cases field.packedOverride with
  | some packed => rfl
  | none => cases field.features <;> rfl

/-- The accessors use the nearest values if and only if no level is disturbed. -/
theorem usesNearest_iff_of_set (hedition : file.fileSyntax = .editions)
    (hfield : FieldFeatures field)
    (hfile : file.options.foldlM applyFeature (FeatureSet.defaults .editions) = .ok file.features) :
    UsesNearest file around field ↔ Undisturbed file around field := by
  have hpresence := @Feature.used_iff file around field _ _ _ (· != .implicit)
    fieldPresence_follows hfield.features hfile
  have hencoding := @Feature.used_iff file around field _ _ _ (· == .packedEncoding)
    repeatedFieldEncoding_follows hfield.features hfile
  have hutf8 := @Feature.used_iff file around field _ _ _ id
    utf8Validation_follows hfield.features hfile
  have hmessage := @Feature.used_iff file around field _ _ _ id
    messageEncoding_follows hfield.features hfile
  constructor
  · intro h
    refine ⟨fun hplain => hpresence.mp ?_, fun hpackable packed hset => ?_,
      fun hpackable hset => hencoding.mp ?_, hutf8.mp h.utf8Validation,
      hmessage.mp h.messageEncoding⟩
    · exact (FieldDescriptor.hasPresence_eq hplain).symm.trans (h.hasPresence hplain)
    · have hresolved := h.resolvedPacked hpackable
      rw [resolvedPacked_eq hedition hpackable, hfield.packed, hset] at hresolved
      exact hresolved
    · have hresolved := h.resolvedPacked hpackable
      rw [resolvedPacked_eq hedition hpackable, hfield.packed, hset] at hresolved
      exact hresolved
  · intro h
    refine ⟨fun hplain => ?_, fun hpackable => ?_, hutf8.mpr h.utf8Validation,
      hmessage.mpr h.messageEncoding⟩
    · rw [FieldDescriptor.hasPresence_eq hplain]
      exact hpresence.mpr (h.presence hplain)
    · rw [resolvedPacked_eq hedition hpackable, hfield.packed]
      cases hset : packedSetting field.options with
      | some packed => exact h.packing hpackable packed hset
      | none => exact hencoding.mpr (h.encoding hpackable hset)

/-! ## Accepted files -/

/-- What a field keeps of its options is kept when its kind is resolved. -/
theorem resolveFieldKind_features {context : Option MessageDescriptor} (h : FieldFeatures field) :
    FieldFeatures (resolveFieldKind file context field) := by
  have hsame : (resolveFieldKind file context field).options = field.options ∧
      (resolveFieldKind file context field).features = field.features ∧
      (resolveFieldKind file context field).packedOverride = field.packedOverride := by
    unfold resolveFieldKind resolveEnumDefault
    split
    · split <;> exact ⟨rfl, rfl, rfl⟩
    · split <;> exact ⟨rfl, rfl, rfl⟩
    · exact ⟨rfl, rfl, rfl⟩
  obtain ⟨hoptions, hfeatures, hpacked⟩ := hsame
  refine ⟨?_, ?_⟩
  · rw [hoptions, hfeatures]
    exact h.features
  · rw [hoptions, hpacked]
    exact h.packed

theorem Everywhere.declaredIn {F : FieldDescriptor → Prop} {E : EnumDescriptor → Prop}
    {M : MessageDescriptor → Prop} (h : FileEverywhere F E M file) {message : MessageDescriptor}
    (hm : DeclaredIn file message) : Everywhere F E M message := by
  induction hm with
  | top hmem => exact h.messages _ hmem
  | nested houter hmem ih => exact ih.messages _ hmem

/-- The fields of an accepted file keep what their options set. -/
theorem fieldFeatures_of_fieldAt {E : EnumDescriptor → Prop} {M : MessageDescriptor → Prop}
    (h : FileEverywhere FieldFeatures E M file)
    (hfield : FieldAt (resolveFieldKinds file) around field) : FieldFeatures field := by
  cases hfield with
  | extension hmem =>
      obtain ⟨read, hread, rfl⟩ := List.mem_map.mp hmem
      exact resolveFieldKind_features (h.extensions read hread)
  | @message _ resolved _ haround hmem =>
      obtain ⟨message, hm, rfl⟩ := declaredIn_resolve.mp haround.declaredIn
      rw [resolveMessageFieldKinds_eq] at hmem
      have hmem : field ∈ (message.fields ++ message.extensions).map
          (resolveFieldKind file (some message)) := by
        rw [List.map_append]
        exact hmem
      obtain ⟨read, hread, rfl⟩ := List.mem_map.mp hmem
      exact resolveFieldKind_features ((Everywhere.declaredIn h hm).fields read hread)

/-- A field of a message of an editions source. -/
theorem exists_field [FloatConversions] {input : Bytes}
    {test : FileDescriptor → MessageDescriptor → FieldDescriptor → Bool}
    (h : (parse input).toOption.any (fun file => file.fileSyntax == .editions &&
      file.messages.any (fun message => message.fields.any (test file message))) = true) :
    ∃ file message field, parse input = .ok file ∧ file.fileSyntax = .editions ∧
      FieldAt file [message] field ∧ test file message field = true := by
  cases hparse : parse input with
  | error stop =>
      rw [hparse] at h
      cases h
  | ok file =>
      rw [hparse] at h
      obtain ⟨hedition, h⟩ := Bool.and_eq_true_iff.mp h
      obtain ⟨message, hmessage, h⟩ := List.any_eq_true.mp h
      obtain ⟨field, hfield, h⟩ := List.any_eq_true.mp h
      exact ⟨file, message, field, rfl, by simpa using hedition,
        .message (.top hmessage) (List.mem_append_left _ hfield), h⟩

end Parser

end Pbz
