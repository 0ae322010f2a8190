import Pbz.Dynamic.Reading

set_option autoImplicit false

/-! # What the decoder stores

The actions that are read for a message without a registry are on the fields of its type: the
values of a map entry and of a packed payload are appended to repeated fields, all others are
added.
-/

namespace Pbz

/-- The fields of a message type as the search by number finds them. -/
def schemaFields (descriptor : MessageDescriptor) : Set FieldDescriptor :=
  {field | descriptor.findFieldByNumber field.number = some field}

theorem schemaFields_injOn (descriptor : MessageDescriptor) :
    (schemaFields descriptor).InjOn FieldDescriptor.number := by
  intro a ha b hb hn
  have ha' : descriptor.findFieldByNumber a.number = some a := ha
  have hb' : descriptor.findFieldByNumber b.number = some b := hb
  rw [hn, hb'] at ha'
  exact (Option.some.inj ha').symm

theorem mem_schemaFields_of_find {descriptor : MessageDescriptor} {number : Nat}
    {field : FieldDescriptor} (h : descriptor.findFieldByNumber number = some field) :
    field ∈ schemaFields descriptor ∧ field.number = number := by
  have hn : field.number = number := by
    rw [MessageDescriptor.findFieldByNumber] at h
    simpa using List.find?_some h
  refine ⟨?_, hn⟩
  rw [← hn] at h
  exact h

theorem mem_fields_of_schemaFields {descriptor : MessageDescriptor} {field : FieldDescriptor}
    (h : field ∈ schemaFields descriptor) : field ∈ descriptor.fields :=
  List.mem_of_find?_eq_some h

/-- An action on a field of the message type: one value for a field that is no map, a list of
values for a repeated one. -/
def Action.Declared (current : MessageDescriptor) : Action → Prop
  | .add field _ => field ∈ schemaFields current ∧ field.kind.isMap = false
  | .append field _ => field ∈ schemaFields current ∧ field.isRepeatedLike = true
  | .unknown _ => True

/-- Every action of a reading is on a declared field. -/
def Reading.Declared (current : MessageDescriptor) (reading : Reading) : Prop :=
  ∀ action ∈ reading.actions, action.Declared current

section

variable {current : MessageDescriptor} {field : FieldDescriptor}

theorem Reading.failed_declared (e : Error) : (Reading.failed e).Declared current := by
  simp [Reading.failed, Reading.Declared]

theorem Reading.ofValue_declared (hf : field ∈ schemaFields current) (hm : field.kind.isMap = false)
    (read : ReadResult Value) : (Reading.ofValue field read).Declared current := by
  cases read with
  | error e => exact Reading.failed_declared e
  | ok p =>
      intro action ha
      rw [Reading.ofValue, List.mem_singleton] at ha
      rw [ha]
      exact ⟨hf, hm⟩

theorem Reading.ofPacked_declared {packed : Bytes → List Action × Except Error Bytes}
    (h : ∀ payload, ∀ action ∈ (packed payload).1, action.Declared current) (input : Bytes) :
    (Reading.ofPacked input packed).Declared current := by
  rw [Reading.ofPacked]
  cases readBytes input with
  | error e => exact Reading.failed_declared e
  | ok p =>
      obtain ⟨payload, rest⟩ := p
      have hp := h payload
      simp only
      generalize packed payload = read at hp ⊢
      rcases read with ⟨actions, _ | _⟩ <;> exact hp

theorem isRepeatedLike_of_repeated (h : field.cardinality = .repeated) :
    field.isRepeatedLike = true := by
  rw [FieldDescriptor.isRepeatedLike, h]
  rfl

theorem readEnumField_declared (hf : field ∈ schemaFields current) (hm : field.kind.isMap = false)
    (fieldFile : FileDescriptor) (enumeration : EnumDescriptor) (tag : Tag) (input rest : Bytes) :
    (readEnumField none fieldFile field enumeration tag input rest).Declared current := by
  rw [readEnumField]
  split
  · next hc =>
    refine Reading.ofPacked_declared (fun payload action ha => ?_) rest
    simp only [readPackedEnum, List.mem_cons, List.not_mem_nil, or_false] at ha
    rcases ha with rfl | rfl
    · exact ⟨hf, isRepeatedLike_of_repeated hc.2⟩
    · exact True.intro
  · split
    · exact Reading.failed_declared _
    · split
      · exact Reading.failed_declared _
      · split <;> intro action ha <;> rw [List.mem_singleton] at ha <;> rw [ha]
        · exact True.intro
        · exact ⟨hf, hm⟩

theorem readOtherField_declared (hf : field ∈ schemaFields current) (hm : field.kind.isMap = false)
    (nested : Option StreamDecoder) (fieldFile : FileDescriptor) (tag : Tag) (rest : Bytes) :
    (readOtherField none nested fieldFile current field tag rest).Declared current := by
  rw [readOtherField]
  split
  · next hc =>
    have hr : field.isRepeatedLike = true := by
      have hp := hc.2
      rw [FieldDescriptor.isPackable, Bool.and_eq_true, beq_iff_eq] at hp
      exact isRepeatedLike_of_repeated hp.1
    cases hk : field.kind with
    | scalar scalar =>
        simp only
        split <;> refine Reading.ofPacked_declared (fun payload action ha => ?_) rest
        · rw [readPackedFixedWidth] at ha
          split at ha
          · simp at ha
          · split at ha
            · simp at ha
            · rw [List.mem_singleton] at ha
              rw [ha]
              exact ⟨hf, hr⟩
        · rw [readPackedVarintScalar] at ha
          split at ha
          · rw [List.mem_singleton] at ha
            rw [ha]
            exact ⟨hf, hr⟩
          · simp at ha
    | _ =>
        refine Reading.ofPacked_declared (fun payload action ha => ?_) rest
        rw [readPackedAdds, List.mem_map] at ha
        obtain ⟨value, -, rfl⟩ := ha
        exact ⟨hf, hm⟩
  · split
    · exact Reading.failed_declared _
    · exact Reading.ofValue_declared hf hm _

theorem readKnownField_declared (hf : field ∈ schemaFields current) (nested : Option StreamDecoder)
    (nestedEntry : Option MapEntryDecoder) (file : FileDescriptor) (tag : Tag)
    (input rest : Bytes) :
    (readKnownField none nested nestedEntry file current field tag input rest).Declared
      current := by
  rw [readKnownField]
  split
  · next hd =>
    have hm : field.kind.isMap = false := by
      cases hk : field.kind <;> simp [isDelimitedField, hk, FieldKind.isMessage] at hd ⊢
      rfl
    split
    · exact Reading.failed_declared _
    · exact Reading.ofValue_declared hf hm _
  · cases hk : field.kind with
    | group name =>
        simp only
        split
        · exact Reading.failed_declared _
        · exact Reading.ofValue_declared hf (by rw [hk]; rfl) _
    | map keyType valueKind =>
        have hr : field.isRepeatedLike = true := isRepeatedLike_of_isMap (by rw [hk]; rfl)
        simp only [readMapField]
        split
        · exact Reading.failed_declared _
        · split
          · exact Reading.failed_declared _
          · split
            · exact Reading.failed_declared _
            · split
              · exact Reading.failed_declared _
              · intro action ha
                rw [List.mem_singleton] at ha
                rw [ha]
                exact True.intro
              · intro action ha
                rw [List.mem_singleton] at ha
                rw [ha]
                exact ⟨hf, hr⟩
    | _ =>
        have hm : field.kind.isMap = false := by rw [hk]; rfl
        simp only
        split
        · exact readEnumField_declared hf hm _ _ _ _ _
        · exact readOtherField_declared hf hm _ _ _ _

end

/-! ## All actions of a stream -/

section

variable {current : MessageDescriptor} {levels : Nat} {file : FileDescriptor} {Q : Action → Prop}

theorem failed_actions (e : Error) : ∀ action ∈ (Reading.failed e).actions, Q action := by
  simp [Reading.failed]

theorem unknown_actions (hu : ∀ unknown, Q (.unknown unknown)) (unknown : List UnknownField)
    (ending : Ending) :
    ∀ action ∈ ({ actions := [.unknown unknown], ending } : Reading).actions, Q action := by
  intro action ha
  rw [List.mem_singleton] at ha
  rw [ha]
  exact hu unknown

/-- What holds of unknown fields and of the actions on known fields holds of every action. -/
theorem readFieldAt_actions (hu : ∀ unknown, Q (.unknown unknown))
    (hk : ∀ field tag input rest, current.findFieldByNumber tag.number = some field →
      ∀ action ∈ (readKnownField none (nestedStream none levels) (nestedMapEntry none levels) file
        current field tag input rest).actions, Q action)
    (endGroup : Option Nat) (input : Bytes) :
    ∀ action ∈ (readFieldAt none levels file endGroup current input).actions, Q action := by
  have hnone : ∀ ending, ∀ action ∈ ({ actions := [], ending } : Reading).actions, Q action := by
    simp
  rw [readFieldAt, readField]
  cases nextTag input with
  | error e => exact failed_actions _
  | ok next =>
      cases next with
      | none =>
          simp only
          split
          · exact failed_actions _
          · exact hnone _
      | some p =>
          simp only
          split
          · cases endGroup with
            | none => exact failed_actions _
            | some expected =>
                simp only
                split
                · exact failed_actions _
                · exact hnone _
          · split
            · cases levels with
              | zero => exact failed_actions _
              | succ levels =>
                  simp only [nestedReadItem, readMessageSetItem]
                  split
                  · exact failed_actions _
                  · next number payload rest _ =>
                    rw [readMessageSetPayload, registryExtension_none]
                    simp only
                    cases writeBytes number payload with
                    | error e => exact failed_actions _
                    | ok raw => exact unknown_actions hu _ _
                  · exact hnone _
            · cases hfield : fieldForNumber none current p.1.number with
              | none =>
                  simp only
                  cases skipValue levels p.1 p.2 with
                  | error e => exact failed_actions _
                  | ok after => exact unknown_actions hu _ _
              | some field =>
                  rw [fieldForNumber, registryExtension_none, Option.or_none] at hfield
                  exact hk field p.1 _ _ hfield

theorem readStream_actions (hu : ∀ unknown, Q (.unknown unknown))
    (hk : ∀ field tag input rest, current.findFieldByNumber tag.number = some field →
      ∀ action ∈ (readKnownField none (nestedStream none levels) (nestedMapEntry none levels) file
        current field tag input rest).actions, Q action)
    (endGroup : Option Nat) (input : Bytes) :
    ∀ action ∈ (readStream none levels file endGroup current input).1, Q action :=
  readStream_forall (fun xs => readFieldAt_actions hu hk endGroup xs) input

/-- All actions of a stream are on declared fields. -/
theorem readStream_declared (levels : Nat) (file : FileDescriptor) (endGroup : Option Nat)
    (input : Bytes) :
    ∀ action ∈ (readStream none levels file endGroup current input).1,
      action.Declared current :=
  readStream_actions (fun _ => True.intro)
    (fun _ _ _ _ hf => readKnownField_declared (mem_schemaFields_of_find hf).1 _ _ _ _ _ _)
    endGroup input

end

end Pbz
