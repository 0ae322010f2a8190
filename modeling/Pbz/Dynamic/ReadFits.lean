import Pbz.Dynamic.MergeAssoc
import Pbz.Dynamic.Consume

set_option autoImplicit false

/-! # What is read fits

The values that the decoder reads for a field are of the field's kind, and the messages among them
are of the type that the field names and fit themselves, by induction on the levels of nesting.
-/

namespace Pbz

/-! ## Types that names resolve to -/

mutual

theorem findMessageDeepIn_declared {file : FileDescriptor} {name : Bytes} :
    ∀ {messages : List MessageDescriptor} {found : MessageDescriptor},
      (∀ message ∈ messages, DeclaredIn file message) →
      findMessageDeepIn name messages = some found → DeclaredIn file found
  | [], _, _, h => by simp [findMessageDeepIn] at h
  | message :: rest, found, hm, h => by
      rw [findMessageDeepIn] at h
      split at h
      · rw [← Option.some.inj h]
        exact hm message List.mem_cons_self
      · split at h
        · next inner hi =>
          rw [← Option.some.inj h]
          exact findMessageDeep_declared (hm message List.mem_cons_self) hi
        · exact findMessageDeepIn_declared (fun m he => hm m (List.mem_cons_of_mem _ he)) h

theorem findMessageDeep_declared {file : FileDescriptor} {name : Bytes} :
    ∀ {message found : MessageDescriptor}, DeclaredIn file message →
      message.findMessageDeep name = some found → DeclaredIn file found
  | { messages := messages, .. }, found, hm, h => by
      rw [MessageDescriptor.findMessageDeep] at h
      exact @findMessageDeepIn_declared file name messages found (fun m he => .nested hm he) h

end

/-- A name in a declared message resolves to a declared message. -/
theorem resolveMessageDescriptor_declared {file : FileDescriptor}
    {current found : MessageDescriptor} {name : Bytes} (hc : DeclaredIn file current)
    (h : resolveMessageDescriptor file current name = some found) : DeclaredIn file found := by
  rw [resolveMessageDescriptor] at h
  split at h
  · rw [← Option.some.inj h]
    exact hc
  · split at h
    · next inner hi =>
      rw [← Option.some.inj h]
      exact findMessageDeep_declared hc hi
    · exact findMessageDeepIn_declared (fun m he => .top he) h

/-! ## Values without messages -/

def Value.isPlain : Value → Bool
  | .message _ | .group _ => false
  | _ => true

section

variable {nested : DynamicMessage → Prop} {file : FileDescriptor} {current : MessageDescriptor}
variable {field : FieldDescriptor}

theorem valueFits_of_isPlain {value : Value} (hp : value.isPlain = true)
    (hh : holdsMessage file current field = false) :
    ValueFits nested file current field value := by
  cases value <;> first | exact hh | simp [Value.isPlain] at hp

theorem isPlain_of_map {α : Type} {f : α → Value} (hf : ∀ a, (f a).isPlain = true)
    {r : ReadResult α} {value : Value} {rest : Bytes} (h : r.map f = .ok (value, rest)) :
    value.isPlain = true := by
  obtain ⟨a, -, rfl⟩ := readResult_map_ok h
  exact hf a

theorem decodeScalarLike_isPlain {kind : FieldKind} {input rest : Bytes} {value : Value}
    (h : decodeScalarLike kind input = .ok (value, rest)) : value.isPlain = true := by
  cases kind with
  | scalar scalar =>
      cases scalar <;> first
        | exact isPlain_of_map (fun _ => rfl) h
        | simp [decodeScalarLike] at h
  | enumeration name => exact isPlain_of_map (fun _ => rfl) h
  | _ => simp [decodeScalarLike] at h

theorem packedPass_isPlain (kind : FieldKind) (payload : Bytes) :
    ∀ value ∈ (Loop.run (packedPass (decodeScalarLike kind)) [] payload).1,
      value.isPlain = true := by
  refine Loop.run_invariant (fun values : List Value => ∀ value ∈ values, value.isPlain = true)
    (fun values xs h => ?_) [] payload (by simp)
  rw [packedPass]
  split
  · exact h
  · cases hd : decodeScalarLike kind xs with
    | error e => exact h
    | ok p =>
        intro value hv
        rcases List.mem_append.mp hv with hv | hv
        · exact h value hv
        · rw [List.mem_singleton] at hv
          rw [hv]
          exact decodeScalarLike_isPlain hd

theorem fixedWidthValues_isPlain (scalar : ScalarType) (width : Nat) :
    ∀ (count : Nat) (payload : Bytes),
      ∀ value ∈ fixedWidthValues scalar width count payload, value.isPlain = true := by
  intro count
  induction count with
  | zero => intro payload value hv; simp [fixedWidthValues] at hv
  | succ count ih =>
      intro payload value hv
      rw [fixedWidthValues] at hv
      rcases List.mem_cons.mp hv with rfl | hv
      · cases scalar <;> rfl
      · exact ih _ value hv

theorem packedEnumPass_isPlain (number : Nat) (enumeration : EnumDescriptor) (closed : Bool)
    (payload : Bytes) :
    ∀ value ∈ (Loop.run (packedEnumPass number enumeration closed) {} payload).1.values,
      value.isPlain = true := by
  refine Loop.run_invariant (fun state : PackedEnum => ∀ value ∈ state.values, value.isPlain = true)
    (fun state xs h => ?_) {} payload (by simp)
  rw [packedEnumPass]
  repeat' split
  all_goals first
    | exact h
    | intro value hv
      rcases List.mem_append.mp hv with hv | hv
      · exact h value hv
      · rw [List.mem_singleton] at hv
        rw [hv]
        rfl

/-- A map entry is read as a map entry. -/
theorem nestedMapEntry_isPlain {levels : Nat} {decodeEntry : MapEntryDecoder}
    (h : nestedMapEntry none levels = some decodeEntry) {keyType : ScalarType}
    {valueKind : FieldKind} {payload : Bytes} {value : Value}
    (hv : decodeEntry file current field keyType valueKind payload = .ok (some value)) :
    value.isPlain = true := by
  cases levels with
  | zero => simp [nestedMapEntry] at h
  | succ levels =>
      rw [nestedMapEntry, Option.some.injEq] at h
      rw [← h, decodeMapEntryValue] at hv
      have hentry : ∀ state, mapEntryOf none file current keyType valueKind state = .ok value →
          value.isPlain = true := by
        intro state hs
        rw [mapEntryOf] at hs
        simp only [bind, Except.bind, pure, Except.pure] at hs
        repeat' split at hs
        all_goals first
          | rw [← Except.ok.inj hs]; rfl
          | exact absurd hs (by simp)
      split at hv
      · simp at hv
      · next state _ _ =>
        split at hv
        · simp at hv
        · split at hv
          · simp at hv
          · next entry hs =>
            rw [Except.ok.injEq, Option.some.injEq] at hv
            exact hentry state (hv ▸ hs)

/-! ## Readings that fit -/

/-- The values of an action, each with its field. -/
def Action.pairs : Action → List (FieldDescriptor × Value)
  | .add field value => [(field, value)]
  | .append field values => values.map (fun value => (field, value))
  | .unknown _ => []

def Action.Fits (nested : DynamicMessage → Prop) (file : FileDescriptor)
    (current : MessageDescriptor) (action : Action) : Prop :=
  ∀ pair ∈ action.pairs, PairFits nested file current pair

def Reading.Fits (nested : DynamicMessage → Prop) (file : FileDescriptor)
    (current : MessageDescriptor) (reading : Reading) : Prop :=
  ∀ action ∈ reading.actions, action.Fits nested file current

/-- What the codec below reads for a declared type fits. -/
def StreamFits (nested : DynamicMessage → Prop) (file : FileDescriptor)
    (below : Option StreamDecoder) : Prop :=
  ∀ stream, below = some stream → ∀ descriptor, DeclaredIn file descriptor →
    ∀ endGroup input message rest,
      stream file (.init descriptor) endGroup input = (message, .ok rest) →
        message.descriptor = descriptor ∧ nested message.deduplicateDecodedMapFields

theorem Reading.failed_fits (e : Error) : (Reading.failed e).Fits nested file current := by
  simp [Reading.failed, Reading.Fits]

theorem unknown_fits (unknown : List UnknownField) :
    (Action.unknown unknown).Fits nested file current := by
  simp [Action.Fits, Action.pairs]

theorem Reading.fits_of_unknown (unknown : List UnknownField) (ending : Ending) :
    ({ actions := [.unknown unknown], ending } : Reading).Fits nested file current := by
  intro action ha
  rw [List.mem_singleton] at ha
  rw [ha]
  exact unknown_fits unknown

theorem append_fits (hf : field ∈ schemaFields current)
    (hh : holdsMessage file current field = false) {values : List Value}
    (hv : ∀ value ∈ values, value.isPlain = true) :
    (Action.append field values).Fits nested file current := by
  intro pair hp
  simp only [Action.pairs, List.mem_map] at hp
  obtain ⟨value, hm, rfl⟩ := hp
  exact ⟨hf, valueFits_of_isPlain (hv value hm) hh⟩

theorem Reading.ofValue_fits (hf : field ∈ schemaFields current) {read : ReadResult Value}
    (h : ∀ value rest, read = .ok (value, rest) → ValueFits nested file current field value) :
    (Reading.ofValue field read).Fits nested file current := by
  cases hr : read with
  | error e => exact Reading.failed_fits e
  | ok p =>
      intro action ha
      rw [Reading.ofValue, List.mem_singleton] at ha
      rw [ha]
      intro pair hp
      simp only [Action.pairs, List.mem_singleton] at hp
      rw [hp]
      exact ⟨hf, h p.1 p.2 hr⟩

theorem Reading.ofPacked_fits {packed : Bytes → List Action × Except Error Bytes}
    (h : ∀ payload, ∀ action ∈ (packed payload).1, action.Fits nested file current)
    (input : Bytes) : (Reading.ofPacked input packed).Fits nested file current := by
  rw [Reading.ofPacked]
  cases readBytes input with
  | error e => exact Reading.failed_fits e
  | ok p =>
      obtain ⟨payload, rest⟩ := p
      have hp := h payload
      simp only
      generalize packed payload = read at hp ⊢
      rcases read with ⟨actions, _ | _⟩ <;> exact hp

variable {below : Option StreamDecoder}

/-- What stands in a group, or in a delimited message, fits. -/
theorem decodeGroupBody_fits (hbelow : StreamFits nested file below)
    (hc : DeclaredIn file current) {number : Nat} {name input rest : Bytes}
    {message : DynamicMessage}
    (h : decodeGroupBody none below file current number name input = .ok (message, rest)) :
    resolveMessageDescriptor file current name = some message.descriptor ∧ nested message := by
  rw [decodeGroupBody] at h
  split at h
  · simp at h
  · next descriptor hr =>
    have hr' : resolveMessageDescriptor file current name = some descriptor := hr
    split at h
    · simp at h
    · next stream =>
      simp only [messageDefiningFile_none] at h
      split at h
      · simp at h
      · next m rest' hs =>
        simp only [Except.ok.injEq, Prod.mk.injEq] at h
        obtain ⟨hd, hn⟩ := hbelow stream rfl descriptor
          (resolveMessageDescriptor_declared hc hr') _ _ _ _ hs
        rw [← h.1]
        exact ⟨by rw [hr', ← hd]; rfl, hn⟩

/-- A length-prefixed message fits. -/
theorem decodeMessagePayload_fits (hbelow : StreamFits nested file below)
    {stream : StreamDecoder} (hs : below = some stream) (hc : DeclaredIn file current)
    {name payload : Bytes} {value : Value}
    (h : decodeMessagePayload none stream file current name payload = .ok value) :
    ∃ message, value = .message message
      ∧ resolveMessageDescriptor file current name = some message.descriptor ∧ nested message := by
  rw [decodeMessagePayload] at h
  split at h
  · simp at h
  · next descriptor hr =>
    have hr' : resolveMessageDescriptor file current name = some descriptor := hr
    simp only [messageDefiningFile_none] at h
    split at h
    · simp at h
    · next m rest' hm =>
      obtain ⟨hd, hn⟩ := hbelow stream hs descriptor
        (resolveMessageDescriptor_declared hc hr') _ _ _ _ hm
      rw [← Except.ok.inj h]
      exact ⟨_, rfl, by rw [hr', ← hd]; rfl, hn⟩

theorem decodeValue_fits (hbelow : StreamFits nested file below) (hc : DeclaredIn file current)
    {kind : FieldKind} (hk : field.kind = kind)
    (hn : registryEnumDescriptor file none current kind = none) {input rest : Bytes}
    {value : Value} (h : decodeValue none below file current field kind input = .ok (value, rest)) :
    ValueFits nested file current field value := by
  have hscalar : ∀ scalar, kind = .scalar scalar → holdsMessage file current field = false := by
    intro scalar hs
    rw [holdsMessage, hk, hs]
    rfl
  cases kind with
  | scalar scalar =>
      refine valueFits_of_isPlain ?_ (hscalar scalar rfl)
      cases scalar with
      | string =>
          rw [decodeValue] at h
          split at h
          · simp at h
          · split at h
            · simp at h
            · simp only [Except.ok.injEq, Prod.mk.injEq] at h
              rw [← h.1]
              rfl
      | _ => exact isPlain_of_map (fun _ => rfl) h
  | enumeration name =>
      refine valueFits_of_isPlain (isPlain_of_map (fun _ => rfl) h) ?_
      rw [holdsMessage, hk]
      rfl
  | message name =>
      rw [decodeValue] at h
      split at h
      · simp at h
      · split at h
        · simp at h
        · split at h
          · simp at h
          · next hv =>
            simp only [Except.ok.injEq, Prod.mk.injEq] at h
            obtain ⟨m, hm, hr, hfit⟩ := decodeMessagePayload_fits hbelow rfl hc hv
            rw [← h.1, hm]
            exact ⟨name, hk, hn, hr, hfit⟩
  | group name => simp [decodeValue] at h
  | map keyType valueKind => simp [decodeValue] at h

theorem readEnumField_fits (hf : field ∈ schemaFields current)
    (hh : holdsMessage file current field = false) (fieldFile : FileDescriptor)
    (enumeration : EnumDescriptor) (tag : Tag) (input rest : Bytes) :
    (readEnumField none fieldFile field enumeration tag input rest).Fits nested file current := by
  rw [readEnumField]
  split
  · refine Reading.ofPacked_fits (fun payload action ha => ?_) rest
    simp only [readPackedEnum, List.mem_cons, List.not_mem_nil, or_false] at ha
    rcases ha with rfl | rfl
    · exact append_fits hf hh (packedEnumPass_isPlain _ _ _ payload)
    · exact unknown_fits _
  · split
    · exact Reading.failed_fits _
    · split
      · exact Reading.failed_fits _
      · split
        · exact Reading.fits_of_unknown _ _
        · intro action ha
          rw [List.mem_singleton] at ha
          rw [ha]
          intro pair hp
          simp only [Action.pairs, List.mem_singleton] at hp
          rw [hp]
          exact ⟨hf, hh⟩

theorem readOtherField_fits (hbelow : StreamFits nested file below) (hc : DeclaredIn file current)
    (hf : field ∈ schemaFields current)
    (hn : registryEnumDescriptor file none current field.kind = none) (tag : Tag)
    (rest : Bytes) :
    (readOtherField none below file current field tag rest).Fits nested file current := by
  rw [readOtherField]
  split
  · next hpack =>
    have hh : holdsMessage file current field = false := by
      have hp := hpack.2
      rw [FieldDescriptor.isPackable, Bool.and_eq_true] at hp
      rw [holdsMessage]
      cases hk : field.kind with
      | message name => rw [hk] at hp; simp [FieldKind.packable] at hp
      | group name => rw [hk] at hp; simp [FieldKind.packable] at hp
      | _ => rfl
    cases hk : field.kind with
    | scalar scalar =>
        simp only
        split <;> refine Reading.ofPacked_fits (fun payload action ha => ?_) rest
        · rw [readPackedFixedWidth] at ha
          split at ha
          · simp at ha
          · split at ha
            · simp at ha
            · rw [List.mem_singleton] at ha
              rw [ha]
              exact append_fits hf hh (fixedWidthValues_isPlain _ _ _ _)
        · rw [readPackedVarintScalar] at ha
          split at ha
          · rw [List.mem_singleton] at ha
            rw [ha]
            exact append_fits hf hh (packedPass_isPlain _ _)
          · simp at ha
    | _ =>
        refine Reading.ofPacked_fits (fun payload action ha => ?_) rest
        rw [readPackedAdds, List.mem_map] at ha
        obtain ⟨value, hv, rfl⟩ := ha
        intro pair hp
        simp only [Action.pairs, List.mem_singleton] at hp
        rw [hp]
        exact ⟨hf, valueFits_of_isPlain (packedPass_isPlain _ _ value hv) hh⟩
  · split
    · exact Reading.failed_fits _
    · exact Reading.ofValue_fits hf (fun value rest' hv => decodeValue_fits hbelow hc rfl hn hv)

theorem readKnownField_fits {levels : Nat} (hbelow : StreamFits nested file below)
    (hc : DeclaredIn file current) (hf : field ∈ schemaFields current) (tag : Tag)
    (input rest : Bytes) :
    (readKnownField none below (nestedMapEntry none levels) file current field tag input
      rest).Fits nested file current := by
  rw [readKnownField]
  split
  · next hd =>
    rw [isDelimitedField, Bool.and_eq_true, Bool.and_eq_true, Option.isNone_iff_eq_none] at hd
    split
    · exact Reading.failed_fits _
    · refine Reading.ofValue_fits hf (fun value rest' hv => ?_)
      rw [decodeDelimitedMessageValue] at hv
      split at hv
      · next name hk =>
        obtain ⟨message, hm, rfl⟩ := readResult_map_ok hv
        obtain ⟨hr, hfit⟩ := decodeGroupBody_fits hbelow hc hm
        exact ⟨name, hk, hk ▸ hd.1.2, hr, hfit⟩
      · simp at hv
  · cases hk : field.kind with
    | group name =>
        simp only
        split
        · exact Reading.failed_fits _
        · refine Reading.ofValue_fits hf (fun value rest' hv => ?_)
          simp only [decodeGroupValue, hk] at hv
          obtain ⟨message, hm, rfl⟩ := readResult_map_ok hv
          obtain ⟨hr, hfit⟩ := decodeGroupBody_fits hbelow hc hm
          exact ⟨name, hk, hr, hfit⟩
    | map keyType valueKind =>
        have hh : holdsMessage file current field = false := by rw [holdsMessage, hk]; rfl
        simp only [readMapField]
        split
        · exact Reading.failed_fits _
        · split
          · exact Reading.failed_fits _
          · split
            · exact Reading.failed_fits _
            · next decodeEntry he =>
              split
              · exact Reading.failed_fits _
              · exact Reading.fits_of_unknown _ _
              · next value hv =>
                intro action ha
                rw [List.mem_singleton] at ha
                rw [ha]
                refine append_fits hf hh (fun v hm => ?_)
                rw [List.mem_singleton] at hm
                rw [hm]
                exact nestedMapEntry_isPlain he hv
    | _ =>
        simp only
        split
        · next enumeration he =>
          refine readEnumField_fits hf ?_ _ _ _ _ _
          rw [fieldDefiningFile_none] at he
          rw [holdsMessage, hk, he]
          simp [FieldKind.isGroup]
        · next he => exact readOtherField_fits hbelow hc hf (hk ▸ he) _ _

/-- All actions of a stream fit. -/
theorem readStream_fits {levels : Nat} (hbelow : StreamFits nested file (nestedStream none levels))
    (hc : DeclaredIn file current) (endGroup : Option Nat) (input : Bytes) :
    ∀ action ∈ (readStream none levels file endGroup current input).1,
      Action.Fits nested file current action :=
  readStream_actions unknown_fits
    (fun _ _ _ _ hf => readKnownField_fits hbelow hc (mem_schemaFields_of_find hf).1 _ _ _)
    endGroup input

end

end Pbz
