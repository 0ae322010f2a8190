import Pbz.Dynamic.Contents

set_option autoImplicit false

/-! # The meaning of a message

The meaning of a message is its type, its unknown fields and, for each field number, the field and
the meanings of its values: messages that differ in the order of their entries, or in entries
without values, mean the same, at every level of nesting.

Merging is associative up to meaning (`mergeFrom_assoc`), for messages that fit a schema whose oneofs
hold no messages. The core is `senses_mergeFrom_add`: adding a value and merging the result is
merging and adding the value.
-/

namespace Pbz

/-! ## Meanings -/

mutual

inductive Meaning where
  | plain (value : Value)
  | message (message : MessageMeaning)
  | group (message : MessageMeaning)
  | mapEntry (key : Value) (value : Meaning)

inductive MessageMeaning where
  | mk (descriptor : MessageDescriptor) (unknownFields : List UnknownField)
      (contents : Nat → List (FieldDescriptor × Meaning))

end

mutual

def DynamicMessage.meaning : DynamicMessage → MessageMeaning
  | { descriptor, fields, unknownFields } => .mk descriptor unknownFields (meaningEntries fields)
termination_by structural x => x

def meaningEntries : List FieldValue → Nat → List (FieldDescriptor × Meaning)
  | [] => fun _ => []
  | entry :: rest => fun number =>
      if entry.descriptor.number = number then meaningEntry entry else meaningEntries rest number
termination_by structural x => x

def meaningEntry : FieldValue → List (FieldDescriptor × Meaning)
  | { descriptor, values } => (meaningValues values).map (fun value => (descriptor, value))
termination_by structural x => x

def meaningValues : List Value → List Meaning
  | [] => []
  | value :: rest => value.meaning :: meaningValues rest
termination_by structural x => x

def Value.meaning : Value → Meaning
  | .message message => .message message.meaning
  | .group message => .group message.meaning
  | .mapEntry key value => .mapEntry key value.meaning
  | value => .plain value
termination_by structural x => x

end

theorem meaningValues_eq (values : List Value) : meaningValues values = values.map Value.meaning := by
  induction values with
  | nil => rfl
  | cons value rest ih => rw [meaningValues, ih, List.map_cons]

theorem meaningEntries_eq (fields : List FieldValue) (number : Nat) :
    meaningEntries fields number
      = match findEntry number fields with
        | some entry => entry.values.map (fun value => (entry.descriptor, value.meaning))
        | none => [] := by
  induction fields with
  | nil => rfl
  | cons entry rest ih =>
      rw [meaningEntries, findEntry_cons]
      simp only
      by_cases hn : entry.descriptor.number = number
      · rw [if_pos hn, if_pos (by simpa using hn)]
        obtain ⟨descriptor, values⟩ := entry
        rw [meaningEntry, meaningValues_eq, List.map_map]
        rfl
      · rw [if_neg hn, if_neg (by simpa using hn), ih]

/-- The meanings of the values of each field. -/
def DynamicMessage.senses (message : DynamicMessage) (number : Nat) : List Meaning :=
  (message.contents number).map Value.meaning

theorem senses_of_meaning {a b : DynamicMessage} (h : a.meaning = b.meaning) :
    a.senses = b.senses := by
  have hentries : meaningEntries a.fields = meaningEntries b.fields := by
    cases a; cases b
    simp only [DynamicMessage.meaning, MessageMeaning.mk.injEq] at h
    exact h.2.2
  have hsnd : ∀ message : DynamicMessage, ∀ number,
      (meaningEntries message.fields number).map Prod.snd = message.senses number := by
    intro message number
    rw [meaningEntries_eq, DynamicMessage.senses, DynamicMessage.contents, contentsOf]
    cases findEntry number message.fields with
    | none => rfl
    | some entry =>
        simp only [List.map_map]
        rfl
  funext number
  rw [← hsnd, ← hsnd, hentries]

theorem meaning_of_senses {descriptor : MessageDescriptor} {P Q : FieldValue → Prop}
    {a b : DynamicMessage} (ha : Stored (schemaFields descriptor) P a.fields)
    (hb : Stored (schemaFields descriptor) Q b.fields) (hd : a.descriptor = b.descriptor)
    (hu : a.unknownFields = b.unknownFields) (hs : a.senses = b.senses) :
    a.meaning = b.meaning := by
  have hentries : ∀ {R : FieldValue → Prop} {message : DynamicMessage},
      Stored (schemaFields descriptor) R message.fields → ∀ number,
        meaningEntries message.fields number
          = (descriptor.findFieldByNumber number).elim []
              (fun field => (message.senses number).map (fun sense => (field, sense))) := by
    intro R message h number
    rw [meaningEntries_eq, DynamicMessage.senses, DynamicMessage.contents, contentsOf]
    cases hf : findEntry number message.fields with
    | none => cases descriptor.findFieldByNumber number <;> rfl
    | some entry =>
        obtain ⟨he, hn⟩ := mem_of_findEntry hf
        have hfind : descriptor.findFieldByNumber number = some entry.descriptor :=
          hn ▸ h.declared entry he
        simp only [hfind, List.map_map]
        rfl
  cases a; cases b
  simp only [DynamicMessage.meaning, MessageMeaning.mk.injEq]
  refine ⟨hd, hu, funext (fun number => ?_)⟩
  rw [hentries ha, hentries hb, hs]

/-! ## Messages that fit the schema -/

/-- The values of the field are messages or groups. A field whose kind is a message may stand for
an enum. -/
def holdsMessage (file : FileDescriptor) (current : MessageDescriptor)
    (field : FieldDescriptor) : Bool :=
  field.kind.isGroup
    || (field.kind.isMessage && (registryEnumDescriptor file none current field.kind).isNone)

/-- Members of oneofs are singular and hold no messages. -/
def PlainOneofs (file : FileDescriptor) (current : MessageDescriptor) : Prop :=
  ∀ field ∈ schemaFields current, field.oneofName ≠ none →
    field.isRepeatedLike = false ∧ holdsMessage file current field = false

/-- A value that the field may hold; `nested` is the demand on its messages. -/
def ValueFits (nested : DynamicMessage → Prop) (file : FileDescriptor)
    (current : MessageDescriptor) (field : FieldDescriptor) : Value → Prop
  | .message message => ∃ name, field.kind = .message name
      ∧ registryEnumDescriptor file none current (.message name) = none
      ∧ resolveMessageDescriptor file current name = some message.descriptor ∧ nested message
  | .group message => ∃ name, field.kind = .group name
      ∧ resolveMessageDescriptor file current name = some message.descriptor ∧ nested message
  | _ => holdsMessage file current field = false

structure EntryFits (nested : DynamicMessage → Prop) (file : FileDescriptor)
    (current : MessageDescriptor) (entry : FieldValue) : Prop where
  invariant : EntryInvariant entry
  values : ∀ value ∈ entry.values, ValueFits nested file current entry.descriptor value

structure MessageFits (nested : DynamicMessage → Prop) (file : FileDescriptor)
    (message : DynamicMessage) : Prop where
  declared : DeclaredIn file message.descriptor
  stored : Stored (schemaFields message.descriptor)
    (EntryFits nested file message.descriptor) message.fields

/-- Fits, and is nested no deeper than the number of levels. -/
def Fits (file : FileDescriptor) : Nat → DynamicMessage → Prop
  | 0 => fun _ => False
  | levels + 1 => MessageFits (Fits file levels) file

theorem entryFits_nil (nested : DynamicMessage → Prop) (file : FileDescriptor)
    (current : MessageDescriptor) (field : FieldDescriptor) :
    EntryFits nested file current { descriptor := field, values := [] } :=
  ⟨⟨fun _ => Nat.zero_le _, fun _ => List.Pairwise.nil⟩, by simp⟩

theorem Stored.singular {known : Set FieldDescriptor} {nested : DynamicMessage → Prop}
    {file : FileDescriptor} {current : MessageDescriptor} {fields : List FieldValue}
    (h : Stored known (EntryFits nested file current) fields) :
    Stored known SingularEntry fields :=
  h.mono (fun _ _ he => he.invariant.singular)

/-- The contents of a field satisfy what its entry satisfies. -/
theorem Stored.contents {descriptor : MessageDescriptor} {P : FieldValue → Prop}
    {message : DynamicMessage} (h : Stored (schemaFields descriptor) P message.fields)
    (hnil : ∀ field, P { descriptor := field, values := [] }) {field : FieldDescriptor}
    (hf : field ∈ schemaFields descriptor) :
    P { descriptor := field, values := message.contents field.number } := by
  rw [DynamicMessage.contents, contentsOf]
  split
  · next entry he =>
    obtain ⟨hfound, hP⟩ := h.found (schemaFields_injOn descriptor) hf he
    rw [hfound] at hP
    exact hP
  · exact hnil field

/-- An `add` keeps what a stored value keeps. -/
theorem Stored.store {descriptor : MessageDescriptor} {P : FieldValue → Prop}
    {message : DynamicMessage} (h : Stored (schemaFields descriptor) P message.fields)
    (hs : Stored (schemaFields descriptor) SingularEntry message.fields)
    (hnil : ∀ field, P { descriptor := field, values := [] }) {field : FieldDescriptor}
    (hf : field ∈ schemaFields descriptor) {value : Value}
    (hp : P { descriptor := field,
              values := storeValue field (message.contents field.number) value }) :
    Stored (schemaFields descriptor) P (message.add field value).fields := by
  have hadd := hs.addSingular hf value
  refine hadd.mono (fun entry he _ => ?_)
  have hvalues := contents_add hs hf value entry.descriptor.number
  rw [DynamicMessage.contents, contentsOf_of_mem hadd.apart he] at hvalues
  obtain ⟨stored, values⟩ := entry
  simp only at hvalues
  rw [hvalues]
  split
  · next hn =>
    have hfield : stored = field :=
      schemaFields_injOn descriptor (hadd.declared _ he) hf hn
    rw [hfield]
    exact hp
  · split
    · exact hnil _
    · exact h.contents hnil (hadd.declared _ he)

/-! ## Storing, up to meaning -/

section

variable {nested : DynamicMessage → Prop} {file : FileDescriptor} {current : MessageDescriptor}
variable {field : FieldDescriptor}

/-- Two messages of one type have a merge that is nested no deeper. -/
def MergeFits (nested : DynamicMessage → Prop) : Prop :=
  ∀ a b, nested a → nested b → a.descriptor = b.descriptor → nested (a.mergeFrom b)

/-- Merging into messages with one meaning gives messages with one meaning. -/
def MergeCongr (nested : DynamicMessage → Prop) : Prop :=
  ∀ a a' b, nested a → nested a' → nested b → a.descriptor = b.descriptor →
    a.meaning = a'.meaning → (a.mergeFrom b).meaning = (a'.mergeFrom b).meaning

def MergeAssoc (nested : DynamicMessage → Prop) : Prop :=
  ∀ a b c, nested a → nested b → nested c → a.descriptor = b.descriptor →
    b.descriptor = c.descriptor →
      (a.mergeFrom (b.mergeFrom c)).meaning = ((a.mergeFrom b).mergeFrom c).meaning

/-- The messages of a field have one type. -/
theorem valueFits_message_descriptor {a b : DynamicMessage}
    (ha : ValueFits nested file current field (.message a))
    (hb : ValueFits nested file current field (.message b)) : a.descriptor = b.descriptor := by
  obtain ⟨name, hk, -, hr, -⟩ := ha
  obtain ⟨name', hk', -, hr', -⟩ := hb
  rw [hk, FieldKind.message.injEq] at hk'
  subst hk'
  rw [hr, Option.some.injEq] at hr'
  exact hr'

theorem valueFits_group_descriptor {a b : DynamicMessage}
    (ha : ValueFits nested file current field (.group a))
    (hb : ValueFits nested file current field (.group b)) : a.descriptor = b.descriptor := by
  obtain ⟨name, hk, hr, -⟩ := ha
  obtain ⟨name', hk', hr', -⟩ := hb
  rw [hk, FieldKind.group.injEq] at hk'
  subst hk'
  rw [hr, Option.some.injEq] at hr'
  exact hr'

/-- A field whose values are messages holds messages or groups, as its kind says. -/
theorem holdsMessage_of_message {message : DynamicMessage}
    (h : ValueFits nested file current field (.message message)) :
    holdsMessage file current field = true := by
  obtain ⟨name, hk, hn, -⟩ := h
  rw [holdsMessage, hk, hn]
  rfl

theorem holdsMessage_of_group {message : DynamicMessage}
    (h : ValueFits nested file current field (.group message)) :
    holdsMessage file current field = true := by
  obtain ⟨name, hk, -⟩ := h
  rw [holdsMessage, hk]
  rfl

theorem shouldMerge_of_holdsMessage (hs : field.isRepeatedLike = false)
    (h : holdsMessage file current field = true) :
    shouldMergeSingularMessageField field = true := by
  rw [FieldDescriptor.isRepeatedLike] at hs
  rw [shouldMergeSingularMessageField, hs, if_neg (by simp), Bool.or_comm]
  rw [holdsMessage, Bool.or_eq_true, Bool.and_eq_true] at h
  rw [Bool.or_eq_true]
  exact h.imp_right (fun h => h.1)

/-- The values of a field that another value joins are of the same sort. -/
theorem valueFits_cases {a b : Value} (ha : ValueFits nested file current field a)
    (hb : ValueFits nested file current field b) :
    (∃ x y, a = .message x ∧ b = .message y) ∨ (∃ x y, a = .group x ∧ b = .group y)
      ∨ holdsMessage file current field = false := by
  cases hh : holdsMessage file current field with
  | false => exact Or.inr (Or.inr rfl)
  | true =>
      have hplain : ∀ v : Value, ValueFits nested file current field v →
          (∃ x, v = .message x) ∨ ∃ x, v = .group x := by
        intro v hv
        cases v with
        | message x => exact Or.inl ⟨x, rfl⟩
        | group x => exact Or.inr ⟨x, rfl⟩
        | _ =>
            rw [show holdsMessage file current field = false from hv] at hh
            simp at hh
      rcases hplain a ha with ⟨x, rfl⟩ | ⟨x, rfl⟩ <;> rcases hplain b hb with ⟨y, rfl⟩ | ⟨y, rfl⟩
      · exact Or.inl ⟨x, y, rfl, rfl⟩
      · obtain ⟨name, hk, -⟩ := ha
        obtain ⟨name', hk', -⟩ := hb
        rw [hk] at hk'
        simp at hk'
      · obtain ⟨name, hk, -⟩ := ha
        obtain ⟨name', hk', -⟩ := hb
        rw [hk] at hk'
        simp at hk'
      · exact Or.inr (Or.inl ⟨x, y, rfl, rfl⟩)

theorem mergedValue_nil (value : Value) : mergedValue field [] value = value := by
  cases value <;> rfl

theorem mergedValue_message (hm : shouldMergeSingularMessageField field = true)
    (target source : DynamicMessage) (rest : List Value) :
    mergedValue field (.message target :: rest) (.message source)
      = .message (target.mergeFrom source) := by
  simp only [mergedValue, List.head?_cons, hm, if_true]

theorem mergedValue_group (hm : shouldMergeSingularMessageField field = true)
    (target source : DynamicMessage) (rest : List Value) :
    mergedValue field (.group target :: rest) (.group source)
      = .group (target.mergeFrom source) := by
  simp only [mergedValue, List.head?_cons, hm, if_true]

/-- In a field without messages the new value stays as it is. -/
theorem mergedValue_plain {value : Value} (hv : ValueFits nested file current field value)
    (hh : holdsMessage file current field = false) (values : List Value) :
    mergedValue field values value = value := by
  cases value with
  | message message =>
      rw [holdsMessage_of_message hv] at hh
      simp at hh
  | group message =>
      rw [holdsMessage_of_group hv] at hh
      simp at hh
  | _ => unfold mergedValue; cases values.head? with
    | none => rfl
    | some first => cases first <;> rfl

/-- A merged value fits. -/
theorem mergedValue_fits (hmerge : MergeFits nested) (hs : field.isRepeatedLike = false)
    {values : List Value} (hvalues : ∀ v ∈ values, ValueFits nested file current field v)
    {value : Value} (hv : ValueFits nested file current field value) :
    ValueFits nested file current field (mergedValue field values value) := by
  cases values with
  | nil => rw [mergedValue_nil]; exact hv
  | cons first rest =>
      have hf := hvalues first List.mem_cons_self
      rcases valueFits_cases hf hv with ⟨x, y, rfl, rfl⟩ | ⟨x, y, rfl, rfl⟩ | hh
      · rw [mergedValue_message (shouldMerge_of_holdsMessage hs (holdsMessage_of_message hf))]
        have hd := valueFits_message_descriptor hf hv
        obtain ⟨name, hk, hn, hr, hx⟩ := hf
        obtain ⟨-, -, -, -, hy⟩ := hv
        exact ⟨name, hk, hn, by rw [mergeFrom_descriptor]; exact hr, hmerge x y hx hy hd⟩
      · rw [mergedValue_group (shouldMerge_of_holdsMessage hs (holdsMessage_of_group hf))]
        have hd := valueFits_group_descriptor hf hv
        obtain ⟨name, hk, hr, hx⟩ := hf
        obtain ⟨-, -, -, hy⟩ := hv
        exact ⟨name, hk, by rw [mergeFrom_descriptor]; exact hr, hmerge x y hx hy hd⟩
      · rw [mergedValue_plain hv hh]
        exact hv

/-- A stored value leaves a fitting entry. -/
theorem storeValue_fits (hmerge : MergeFits nested) {values : List Value}
    (h : EntryFits nested file current { descriptor := field, values }) {value : Value}
    (hv : ValueFits nested file current field value) :
    EntryFits nested file current
      { descriptor := field, values := storeValue field values value } := by
  cases hm : field.kind.isMap with
  | true =>
      have hr := isRepeatedLike_of_isMap hm
      rw [storeValue_of_isMap hm]
      refine ⟨⟨fun hs => ?_, fun _ => putMapEntry_distinct (h.invariant.keys hm) value⟩, ?_⟩
      · rw [show field.isRepeatedLike = false from hs] at hr
        simp at hr
      · intro v hmem
        rw [putMapEntry_eq] at hmem
        rcases Upsert.mem_upsert hmem with hmem | rfl
        · exact h.values v hmem
        · exact hv
  | false =>
      have hkeys : ∀ vs : List Value,
          (field.kind.isMap = true → DistinctKeys vs) := fun vs hc => by rw [hm] at hc; simp at hc
      cases hr : field.isRepeatedLike with
      | true =>
          rw [storeValue_of_repeated hm hr]
          refine ⟨⟨fun hs => ?_, hkeys _⟩, ?_⟩
          · rw [show field.isRepeatedLike = false from hs] at hr
            simp at hr
          · intro v hmem
            rcases List.mem_append.mp hmem with hmem | hmem
            · exact h.values v hmem
            · rw [List.mem_singleton] at hmem
              rw [hmem]
              exact hv
      | false =>
          rw [storeValue_of_singular hr]
          refine ⟨⟨fun _ => Nat.le_refl _, hkeys _⟩, ?_⟩
          intro v hmem
          rw [List.mem_singleton] at hmem
          rw [hmem]
          exact mergedValue_fits hmerge hr h.values hv

/-- Keys are seen in the meanings of map entries. -/
theorem hasKey_congr {a a' : Value} (h : a.meaning = a'.meaning) (key : Value) :
    a.hasKey key = a'.hasKey key := by
  cases a <;> cases a' <;>
    simp only [Value.meaning, reduceCtorEq, Meaning.mapEntry.injEq] at h <;> try rfl
  rw [Value.hasKey, Value.hasKey, h.1]

theorem sameKey_congr {a a' b b' : Value} (ha : a.meaning = a'.meaning)
    (hb : b.meaning = b'.meaning) : sameKey a b = sameKey a' b' := by
  cases b <;> cases b' <;>
    simp only [Value.meaning, reduceCtorEq, Meaning.mapEntry.injEq] at hb <;> try rfl
  rw [sameKey, sameKey, ← hb.1]
  exact hasKey_congr ha _

/-- Values with the meanings of others are stored into with the same meanings. -/
theorem storeValue_congr (hcongr : MergeCongr nested) {values values' : List Value}
    (h : EntryFits nested file current { descriptor := field, values })
    (h' : EntryFits nested file current { descriptor := field, values := values' })
    (heq : values.map Value.meaning = values'.map Value.meaning) {value : Value}
    (hv : ValueFits nested file current field value) :
    (storeValue field values value).map Value.meaning
      = (storeValue field values' value).map Value.meaning := by
  cases hm : field.kind.isMap with
  | true =>
      rw [storeValue_of_isMap hm, storeValue_of_isMap hm, putMapEntry_eq, putMapEntry_eq]
      refine Upsert.map_upsert_congr Value.meaning ?_ rfl heq
      exact fun hx hy => sameKey_congr hx hy
  | false =>
      cases hr : field.isRepeatedLike with
      | true =>
          rw [storeValue_of_repeated hm hr, storeValue_of_repeated hm hr, List.map_append,
            List.map_append, heq]
      | false =>
          rw [storeValue_of_singular hr, storeValue_of_singular hr, List.map_singleton,
            List.map_singleton]
          cases values with
          | nil =>
              have hnil : values' = [] := by simpa using heq.symm
              rw [hnil]
          | cons first rest =>
              cases values' with
              | nil => simp at heq
              | cons first' rest' =>
                  simp only [List.map_cons, List.cons.injEq] at heq
                  have hf := h.values first List.mem_cons_self
                  have hf' := h'.values first' List.mem_cons_self
                  rcases valueFits_cases hf hv with ⟨x, y, rfl, rfl⟩ | ⟨x, y, rfl, rfl⟩ | hh
                  · obtain ⟨x', rfl⟩ : ∃ x', first' = .message x' := by
                      cases first' <;> simp [Value.meaning] at heq
                      exact ⟨_, rfl⟩
                    have hx : x.meaning = x'.meaning := by
                      simpa only [Value.meaning, Meaning.message.injEq] using heq.1
                    have hs := shouldMerge_of_holdsMessage hr (holdsMessage_of_message hf)
                    have hd := valueFits_message_descriptor hf hv
                    obtain ⟨-, -, -, -, hnx⟩ := hf
                    obtain ⟨-, -, -, -, hnx'⟩ := hf'
                    obtain ⟨-, -, -, -, hny⟩ := hv
                    rw [mergedValue_message hs, mergedValue_message hs, Value.meaning,
                      Value.meaning, hcongr x x' y hnx hnx' hny hd hx]
                  · obtain ⟨x', rfl⟩ : ∃ x', first' = .group x' := by
                      cases first' <;> simp [Value.meaning] at heq
                      exact ⟨_, rfl⟩
                    have hx : x.meaning = x'.meaning := by
                      simpa only [Value.meaning, Meaning.group.injEq] using heq.1
                    have hs := shouldMerge_of_holdsMessage hr (holdsMessage_of_group hf)
                    have hd := valueFits_group_descriptor hf hv
                    obtain ⟨-, -, -, hnx⟩ := hf
                    obtain ⟨-, -, -, hnx'⟩ := hf'
                    obtain ⟨-, -, -, hny⟩ := hv
                    rw [mergedValue_group hs, mergedValue_group hs, Value.meaning,
                      Value.meaning, hcongr x x' y hnx hnx' hny hd hx]
                  · rw [mergedValue_plain hv hh, mergedValue_plain hv hh]

end

end Pbz
