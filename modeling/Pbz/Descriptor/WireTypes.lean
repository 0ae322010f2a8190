import Pbz.Descriptor.Fields

set_option autoImplicit false

/-! # What decoding reads as what

The fields that the messages of `descriptor.proto` declare, as far as the decoders know them, and
what their types make of a byte string: whether it is well-formed wire data, and whether a known
field is `Mistyped` in it, that is, its tag has another wire type than the declared type has.

The decoders switch on the number of a tag alone. `Reads.decodeFields` says what follows: a loop
that accepts its bytes has read well-formed data, every known field as what it is, exactly if
nothing in the bytes is mistyped.
-/

namespace Pbz

namespace Descriptor

/-- The declared type of a field. Lists of integers come packed or one by one. -/
inductive DeclaredType where
  | scalar (type : ScalarType)
  | enumeration
  | message (type : DescriptorType)
  | int32List
  deriving DecidableEq, Repr

/-- The wire types of a declared type. -/
def DeclaredType.wireTypes : DeclaredType → List WireType
  | .scalar type => [type.wireType]
  | .enumeration => [.varint]
  | .message _ => [.lengthDelimited]
  | .int32List => [.lengthDelimited, .varint]

/-- The fields of `descriptor.proto` that the decoders know, with their declared types. The
encoding functions of `descriptor.zig` write them as these types. -/
def DescriptorType.fields : DescriptorType → List (Nat × DeclaredType)
  | .file =>
      [(1, .scalar .string), (2, .scalar .string), (3, .scalar .string), (10, .scalar .int32),
        (11, .scalar .int32), (15, .scalar .string), (4, .message .message),
        (5, .message .enumeration), (6, .message .service), (7, .message .field),
        (8, .message .fileOptions), (9, .message .sourceCodeInfo), (12, .scalar .string),
        (14, .enumeration)]
  | .fileOptions =>
      [(1, .scalar .string), (8, .scalar .string), (9, .enumeration), (10, .scalar .bool),
        (11, .scalar .string), (16, .scalar .bool), (17, .scalar .bool), (18, .scalar .bool),
        (20, .scalar .bool), (23, .scalar .bool), (27, .scalar .bool), (31, .scalar .bool),
        (36, .scalar .string), (37, .scalar .string), (39, .scalar .string), (40, .scalar .string),
        (41, .scalar .string), (44, .scalar .string), (45, .scalar .string),
        (50, .message .featureSet), (999, .message .uninterpretedOption)]
  | .message =>
      [(1, .scalar .string), (2, .message .field), (3, .message .message),
        (4, .message .enumeration), (5, .message .extensionRange), (6, .message .field),
        (7, .message .messageOptions), (8, .message .oneof), (9, .message .reservedRange),
        (10, .scalar .string)]
  | .messageOptions =>
      [(1, .scalar .bool), (2, .scalar .bool), (3, .scalar .bool), (7, .scalar .bool),
        (11, .scalar .bool), (12, .message .featureSet), (999, .message .uninterpretedOption)]
  | .field =>
      [(1, .scalar .string), (2, .scalar .string), (3, .scalar .int32), (4, .enumeration),
        (5, .enumeration), (6, .scalar .string), (7, .scalar .string),
        (8, .message .fieldOptions), (9, .scalar .int32), (10, .scalar .string),
        (17, .scalar .bool)]
  | .fieldOptions =>
      [(1, .enumeration), (2, .scalar .bool), (3, .scalar .bool), (5, .scalar .bool),
        (6, .enumeration), (10, .scalar .bool), (15, .scalar .bool), (16, .scalar .bool),
        (17, .enumeration), (19, .enumeration), (20, .message .fieldEditionDefault),
        (21, .message .featureSet), (22, .message .featureSupport),
        (999, .message .uninterpretedOption)]
  | .fieldEditionDefault => [(2, .scalar .string), (3, .enumeration)]
  | .featureSupport =>
      [(1, .enumeration), (2, .enumeration), (3, .scalar .string), (4, .enumeration),
        (5, .scalar .string)]
  | .oneof => [(1, .scalar .string), (2, .message .oneofOptions)]
  | .oneofOptions => [(1, .message .featureSet), (999, .message .uninterpretedOption)]
  | .enumeration =>
      [(1, .scalar .string), (2, .message .enumValue), (3, .message .enumOptions),
        (4, .message .reservedRange), (5, .scalar .string)]
  | .enumOptions =>
      [(2, .scalar .bool), (3, .scalar .bool), (6, .scalar .bool), (7, .message .featureSet),
        (999, .message .uninterpretedOption)]
  | .enumValue => [(1, .scalar .string), (2, .scalar .int32), (3, .message .enumValueOptions)]
  | .enumValueOptions =>
      [(1, .scalar .bool), (2, .message .featureSet), (3, .scalar .bool),
        (4, .message .featureSupport), (999, .message .uninterpretedOption)]
  | .extensionRange =>
      [(1, .scalar .int32), (2, .scalar .int32), (3, .message .extensionRangeOptions)]
  | .extensionRangeOptions =>
      [(2, .message .extensionDeclaration), (3, .enumeration), (50, .message .featureSet),
        (999, .message .uninterpretedOption)]
  | .extensionDeclaration =>
      [(1, .scalar .int32), (2, .scalar .string), (3, .scalar .string), (5, .scalar .bool),
        (6, .scalar .bool)]
  | .reservedRange => [(1, .scalar .int32), (2, .scalar .int32)]
  | .service => [(1, .scalar .string), (2, .message .method), (3, .message .serviceOptions)]
  | .serviceOptions =>
      [(33, .scalar .bool), (34, .message .featureSet), (999, .message .uninterpretedOption)]
  | .method =>
      [(1, .scalar .string), (2, .scalar .string), (3, .scalar .string),
        (4, .message .methodOptions), (5, .scalar .bool), (6, .scalar .bool)]
  | .methodOptions =>
      [(33, .scalar .bool), (34, .enumeration), (35, .message .featureSet),
        (999, .message .uninterpretedOption)]
  | .sourceCodeInfo => [(1, .message .sourceLocation)]
  | .sourceLocation =>
      [(1, .int32List), (2, .int32List), (3, .scalar .string), (4, .scalar .string),
        (6, .scalar .string)]
  | .uninterpretedOption =>
      [(2, .message .uninterpretedNamePart), (3, .scalar .string), (4, .scalar .uint64),
        (5, .scalar .int64), (6, .scalar .double), (7, .scalar .bytes), (8, .scalar .string)]
  | .uninterpretedNamePart => [(1, .scalar .string), (2, .scalar .bool)]
  | .featureSet =>
      [(1, .enumeration), (2, .enumeration), (3, .enumeration), (4, .enumeration),
        (5, .enumeration), (6, .enumeration), (7, .enumeration), (8, .enumeration),
        (9, .enumeration)]
  | .featureSetEditionDefault =>
      [(3, .enumeration), (4, .message .featureSet), (5, .message .featureSet)]
  | .featureSetDefaults =>
      [(1, .message .featureSetEditionDefault), (4, .enumeration), (5, .enumeration)]

/-- The declared type of the field with this number, `none` for a field that is not known. -/
def DescriptorType.declared (type : DescriptorType) (number : Nat) : Option DeclaredType :=
  type.fields.lookup number

/-! ## Well-formed data -/

/-- The bytes are a sequence of fields: a tag that `nextTag` reads and a value that `skipValue`
skips, up to the end. -/
inductive WireFields : Bytes → Prop where
  | nil : WireFields []
  | field {input value rest : Bytes} {tag : Tag} :
      nextTag input = .ok (some (tag, value)) → skipValue recursionLimit tag value = .ok rest →
      WireFields rest → WireFields input

/-- What has been read is what it was read as: a descriptor message is a sequence of fields, the
tag of a known field has a wire type of the field's declared type. -/
def Event.Sound : Event → Prop
  | .message bytes => WireFields bytes
  | .field type number wireType =>
      ∃ declared, type.declared number = some declared ∧ wireType ∈ declared.wireTypes

def Log.Sound (log : Log) : Prop := ∀ event ∈ log, event.Sound

/-- Somewhere in the fields of the message or of a message in it, before anything that cannot be
skipped, the tag of a known field has a wire type that its declared type does not have. -/
inductive Mistyped : DescriptorType → Bytes → Prop where
  | here {type : DescriptorType} {input value : Bytes} {tag : Tag} {declared : DeclaredType} :
      nextTag input = .ok (some (tag, value)) → type.declared tag.number = some declared →
      tag.wireType ∉ declared.wireTypes → Mistyped type input
  | inside {type inner : DescriptorType} {input value payload rest : Bytes} {tag : Tag} :
      nextTag input = .ok (some (tag, value)) →
      type.declared tag.number = some (.message inner) →
      readBytes value = .ok (payload, rest) → Mistyped inner payload → Mistyped type input
  | later {type : DescriptorType} {input value rest : Bytes} {tag : Tag} :
      nextTag input = .ok (some (tag, value)) → skipValue recursionLimit tag value = .ok rest →
      Mistyped type rest → Mistyped type input

/-- A decoder of messages of a type: of what it accepts it has read every part as what it is
exactly if nothing is mistyped. -/
def Reads {α : Type} (type : DescriptorType) (decode : Bytes → Reading α) : Prop :=
  ∀ bytes value log, decode bytes = .ok (value, log) → (Log.Sound log ↔ ¬ Mistyped type bytes)

variable {σ α β : Type}

/-- The function that reads a known field is one for its declared type. -/
def Known.Conforms (field : Known σ) (declared : DeclaredType) : Prop :=
  match field with
  | .varint _ => declared.wireTypes = [.varint]
  | .double _ => declared.wireTypes = [.fixed64]
  | .bytes _ => declared.wireTypes = [.lengthDelimited] ∧ ∀ inner, declared ≠ .message inner
  | .message decode => ∃ inner, declared = .message inner ∧ ∀ state, Reads inner (decode state)
  | .int32List _ => declared = .int32List

/-- The known fields of a loop are those declared for the type, each with a fitting read. -/
def Conforms (type : DescriptorType) (known : List (Nat × Known σ)) : Prop :=
  List.Forall₂ (fun field declared => field.1 = declared.1 ∧ field.2.Conforms declared.2) known
    type.fields

/-- The field number is looked up alike in both lists. -/
theorem Conforms.lookup {type : DescriptorType} {known : List (Nat × Known σ)}
    (h : Conforms type known) (number : Nat) :
    (known.lookup number = none ∧ type.declared number = none)
      ∨ ∃ field declared, known.lookup number = some field
        ∧ type.declared number = some declared ∧ field.Conforms declared := by
  rw [Conforms] at h
  rw [DescriptorType.declared]
  generalize type.fields = fields at h ⊢
  induction h with
  | nil => exact .inl ⟨rfl, rfl⟩
  | @cons field declared knownRest fieldsRest hfirst _ ih =>
      obtain ⟨n, field⟩ := field
      obtain ⟨m, declared⟩ := declared
      obtain ⟨hnumber, hconforms⟩ := hfirst
      have hnumber : n = m := hnumber
      rw [List.lookup_cons, List.lookup_cons, ← hnumber]
      by_cases hn : number == n
      · rw [hn]
        exact .inr ⟨field, declared, rfl, rfl, hconforms⟩
      · simp only [Bool.not_eq_true] at hn
        rw [hn]
        exact ih

/-! ## One field -/

/-- The payload of a field of a message type has something mistyped in it. -/
def MistypedInside (declared : DeclaredType) (input : Bytes) : Prop :=
  ∃ inner payload rest, declared = .message inner ∧ readBytes input = .ok (payload, rest)
    ∧ Mistyped inner payload

/-- A field of no message type has nothing inside. -/
theorem sound_nil_iff {declared : DeclaredType} {input : Bytes}
    (h : ∀ inner, declared ≠ .message inner) :
    Log.Sound [] ↔ ¬ MistypedInside declared input := by
  refine iff_of_true (by simp [Log.Sound]) ?_
  rintro ⟨inner, payload, rest, hinner, -, -⟩
  exact h inner hinner

theorem not_message_of_wireTypes {declared : DeclaredType} {wireType : WireType}
    (h : declared.wireTypes = [wireType]) (hw : wireType ≠ .lengthDelimited) (inner : DescriptorType) :
    declared ≠ .message inner := by
  rintro rfl
  simp only [DeclaredType.wireTypes, List.cons.injEq, and_true] at h
  exact hw h.symm

/-- A known field under a tag of its type: reading takes the bytes that skipping would take. -/
theorem Known.Conforms.read {field : Known σ} {declared : DeclaredType} {tag : Tag}
    {state value : σ} {input rest : Bytes} {log : Log} (h : field.Conforms declared)
    (hread : field.read tag.wireType state input = .ok ((value, log), rest))
    (htype : tag.wireType ∈ declared.wireTypes) :
    skipValue recursionLimit tag input = .ok rest
      ∧ (Log.Sound log ↔ ¬ MistypedInside declared input) := by
  cases field with
  | varint store =>
      obtain ⟨⟨raw, rest'⟩, hraw, hread⟩ := Check.of_bind_eq_ok hread
      obtain ⟨stored, -, hread⟩ := Check.of_bind_eq_ok hread
      simp only [pure, Except.pure, Except.ok.injEq, Prod.mk.injEq] at hread
      have hdeclared : declared.wireTypes = [.varint] := h
      rw [hdeclared, List.mem_singleton] at htype
      refine ⟨?_, ?_⟩
      · rw [skipValue, skipWith, htype]
        simp only [of_reading_eq_ok hraw, restOf, hread.2]
      · rw [← hread.1.2]
        exact sound_nil_iff (not_message_of_wireTypes hdeclared (by decide))
  | double store =>
      obtain ⟨⟨raw, rest'⟩, hraw, hread⟩ := Check.of_bind_eq_ok hread
      simp only [pure, Except.pure, Except.ok.injEq, Prod.mk.injEq] at hread
      have hdeclared : declared.wireTypes = [.fixed64] := h
      rw [hdeclared, List.mem_singleton] at htype
      refine ⟨?_, ?_⟩
      · have hraw := of_reading_eq_ok hraw
        rw [readRawLittle] at hraw
        rw [skipValue, skipWith, htype]
        simp only
        cases ht : takeBytes 8 input with
        | error e => simp [ht] at hraw
        | ok taken =>
            simp only [ht, Except.ok.injEq, Prod.mk.injEq] at hraw
            simp only [restOf, hraw.2, hread.2]
      · rw [← hread.1.2]
        exact sound_nil_iff (not_message_of_wireTypes hdeclared (by decide))
  | bytes store =>
      obtain ⟨⟨raw, rest'⟩, hraw, hread⟩ := Check.of_bind_eq_ok hread
      obtain ⟨stored, -, hread⟩ := Check.of_bind_eq_ok hread
      simp only [pure, Except.pure, Except.ok.injEq, Prod.mk.injEq] at hread
      obtain ⟨hdeclared, hnot⟩ := h
      rw [hdeclared, List.mem_singleton] at htype
      refine ⟨?_, ?_⟩
      · rw [skipValue, skipWith, htype]
        simp only [of_reading_eq_ok hraw, restOf, hread.2]
      · rw [← hread.1.2]
        exact sound_nil_iff hnot
  | message decode =>
      obtain ⟨⟨payload, rest'⟩, hpayload, hread⟩ := Check.of_bind_eq_ok hread
      obtain ⟨⟨decoded, inside⟩, hdecode, hread⟩ := Check.of_bind_eq_ok hread
      simp only [pure, Except.pure, Except.ok.injEq, Prod.mk.injEq] at hread
      have hpayload := of_reading_eq_ok hpayload
      obtain ⟨inner, hdeclared, hreads⟩ := h
      rw [hdeclared, DeclaredType.wireTypes, List.mem_singleton] at htype
      refine ⟨?_, ?_⟩
      · rw [skipValue, skipWith, htype]
        simp only [hpayload, restOf, hread.2]
      · rw [← hread.1.2, hreads state _ _ _ hdecode, not_iff_not]
        constructor
        · exact fun hm => ⟨inner, payload, rest', hdeclared, hpayload, hm⟩
        · rintro ⟨inner', payload', r, hinner, hpayload', hm⟩
          rw [hdeclared, DeclaredType.message.injEq] at hinner
          rw [hpayload, Except.ok.injEq, Prod.mk.injEq] at hpayload'
          rw [hinner, hpayload'.1]
          exact hm
  | int32List store =>
      obtain ⟨⟨values, rest'⟩, hvalues, hread⟩ := Check.of_bind_eq_ok hread
      simp only [pure, Except.pure, Except.ok.injEq, Prod.mk.injEq] at hread
      have hdeclared : declared = .int32List := h
      refine ⟨?_, ?_⟩
      · rw [← hread.2]
        exact decodeInt32ListField_skips _ hvalues
      · rw [← hread.1.2]
        exact sound_nil_iff (by simp [hdeclared])

/-! ## Mistyped data, field by field -/

section

variable {type : DescriptorType} {input value rest : Bytes} {tag : Tag}

theorem mistyped_of_unknown (hn : nextTag input = .ok (some (tag, value)))
    (hs : skipValue recursionLimit tag value = .ok rest) (hd : type.declared tag.number = none) :
    Mistyped type input ↔ Mistyped type rest := by
  constructor
  · intro h
    cases h with
    | here hn' hd' _ =>
        rw [hn, Except.ok.injEq, Option.some.injEq, Prod.mk.injEq] at hn'
        rw [← hn'.1, hd] at hd'
        cases hd'
    | inside hn' hd' _ _ =>
        rw [hn, Except.ok.injEq, Option.some.injEq, Prod.mk.injEq] at hn'
        rw [← hn'.1, hd] at hd'
        cases hd'
    | later hn' hs' h =>
        rw [hn, Except.ok.injEq, Option.some.injEq, Prod.mk.injEq] at hn'
        rw [← hn'.1, ← hn'.2, hs, Except.ok.injEq] at hs'
        rw [hs']
        exact h
  · exact Mistyped.later hn hs

theorem mistyped_of_known {declared : DeclaredType}
    (hn : nextTag input = .ok (some (tag, value)))
    (hs : skipValue recursionLimit tag value = .ok rest)
    (hd : type.declared tag.number = some declared) (ht : tag.wireType ∈ declared.wireTypes) :
    Mistyped type input ↔ MistypedInside declared value ∨ Mistyped type rest := by
  constructor
  · intro h
    cases h with
    | here hn' hd' ht' =>
        rw [hn, Except.ok.injEq, Option.some.injEq, Prod.mk.injEq] at hn'
        rw [← hn'.1, hd, Option.some.injEq] at hd'
        rw [← hn'.1, ← hd'] at ht'
        exact absurd ht ht'
    | inside hn' hd' hp h =>
        rw [hn, Except.ok.injEq, Option.some.injEq, Prod.mk.injEq] at hn'
        rw [← hn'.1, hd, Option.some.injEq] at hd'
        rw [← hn'.2] at hp
        exact .inl ⟨_, _, _, hd', hp, h⟩
    | later hn' hs' h =>
        rw [hn, Except.ok.injEq, Option.some.injEq, Prod.mk.injEq] at hn'
        rw [← hn'.1, ← hn'.2, hs, Except.ok.injEq] at hs'
        rw [hs']
        exact .inr h
  · rintro (⟨inner, payload, r, rfl, hp, h⟩ | h)
    · exact Mistyped.inside hn hd hp h
    · exact Mistyped.later hn hs h

end

theorem not_mistyped_nil (type : DescriptorType) : ¬ Mistyped type [] := by
  intro h
  cases h with
  | here hn _ _ => simp at hn
  | inside hn _ _ _ => simp at hn
  | later hn _ _ => simp at hn

/-! ## A whole loop -/

theorem sound_append {first second : Log} :
    Log.Sound (first ++ second) ↔ Log.Sound first ∧ Log.Sound second := List.forall_mem_append

theorem sound_cons {event : Event} {log : Log} :
    Log.Sound (event :: log) ↔ event.Sound ∧ Log.Sound log := List.forall_mem_cons

/-- What a loop with the declared fields has logged of an input that it has read to its end. -/
theorem fieldPass_run {type : DescriptorType} {known : List (Nat × Known σ)}
    (hk : Conforms type known) (state : σ × Log) (input : Bytes) {state' : σ × Log} {rest : Bytes}
    (h : Loop.run (fieldPass type known) state input = (state', .ok rest)) :
    ∃ log, state'.2 = state.2 ++ log ∧ (Log.Sound log ↔ ¬ Mistyped type input)
      ∧ (Log.Sound log → WireFields input) := by
  refine Loop.run_induction (fieldPass_consuming type known)
    (fun state input result => ∀ state' rest, result = (state', .ok rest) →
      ∃ log, state'.2 = state.2 ++ log ∧ (Log.Sound log ↔ ¬ Mistyped type input)
        ∧ (Log.Sound log → WireFields input)) ?_ ?_ ?_ state input state' rest h
  · rintro state input after r hb state' rest he
    obtain ⟨rfl, rfl⟩ := fieldPass_done hb
    simp only [Prod.mk.injEq] at he
    rw [← he.1]
    exact ⟨[], by simp, iff_of_true (by simp [Log.Sound]) (not_mistyped_nil type),
      fun _ => WireFields.nil⟩
  · rintro state input after e - state' rest he
    simp at he
  · rintro state input after r hb ih state' rest he
    obtain ⟨log, hlog, hsound, hfields⟩ := ih state' rest he
    obtain ⟨tag, value, hn, ⟨hnone, rfl, hs⟩ | ⟨field, stored, inside, hsome, hr, rfl⟩⟩ :=
      fieldPass_next hb
    · -- an unknown field: it is skipped, and nothing is logged
      obtain ⟨-, hd⟩ | ⟨field, declared, hf, -, -⟩ := hk.lookup tag.number
      · refine ⟨log, hlog, ?_, fun h => WireFields.field hn hs (hfields h)⟩
        rw [hsound, mistyped_of_unknown hn hs hd]
      · rw [hnone] at hf
        cases hf
    · obtain ⟨hf, -⟩ | ⟨field', declared, hf, hd, hc⟩ := hk.lookup tag.number
      · rw [hsome] at hf
        cases hf
      rw [hsome, Option.some.injEq] at hf
      subst hf
      refine ⟨.field type tag.number tag.wireType :: (inside ++ log), ?_, ?_⟩
      · rw [hlog, List.append_assoc, List.cons_append]
      have htag : Event.Sound (.field type tag.number tag.wireType) ↔
          tag.wireType ∈ declared.wireTypes := by
        simp only [Event.Sound, hd, Option.some.injEq, exists_eq_left']
      rw [sound_cons, sound_append, htag]
      by_cases ht : tag.wireType ∈ declared.wireTypes
      · obtain ⟨hs, hinside⟩ := hc.read hr ht
        rw [mistyped_of_known hn hs hd ht, hinside, hsound, not_or]
        exact ⟨and_iff_right ht, fun h => WireFields.field hn hs (hfields (hsound.mpr h.2.2))⟩
      · -- the tag has a wire type of another type: the log says so, and so does the input
        refine ⟨iff_of_false (fun h => ht h.1) (not_not.mpr (Mistyped.here hn hd ht)), ?_⟩
        exact fun h => absurd h.1 ht

/-! ## Decoders -/

theorem Reads.decodeFields {type : DescriptorType} {known : List (Nat × Known σ)}
    (hk : Conforms type known) (init : σ) : Reads type (decodeFields type known init) := by
  intro bytes value log h
  rw [Descriptor.decodeFields] at h
  split at h
  · simp at h
  · next state r hrun =>
    simp only [Except.ok.injEq] at h
    obtain ⟨tail, htail, hsound, hfields⟩ := fieldPass_run hk _ _ hrun
    have hlog : log = .message bytes :: tail := by
      rw [← List.singleton_append, ← htail, h]
    rw [hlog, sound_cons, ← hsound]
    exact and_iff_right_of_imp hfields

theorem Reads.andThen {type : DescriptorType} {decode : Bytes → Reading α}
    {finish : α → Except Error β} (h : Reads type decode) :
    Reads type (fun bytes => (decode bytes).andThen finish) := by
  intro bytes value log hd
  simp only [Reading.andThen] at hd
  split at hd
  · simp at hd
  · next first inside hfirst =>
    split at hd
    · simp at hd
    · simp only [Except.ok.injEq, Prod.mk.injEq] at hd
      rw [← hd.2]
      exact h _ _ _ hfirst

theorem Reads.nested {type : DescriptorType} {decode : Bytes → Reading α}
    {store : σ → α → Except Error σ} (h : Reads type decode) (state : σ) :
    Reads type (nested decode store state) := h.andThen

end Descriptor

end Pbz
