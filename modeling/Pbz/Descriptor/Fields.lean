import Pbz.Lib.Check
import Pbz.Lib.Loop
import Pbz.Schema

set_option autoImplicit false

/-! # The decode loops of descriptors

Every decoding function of `descriptor.zig` is one loop: it takes the next tag, switches on its
number, reads and stores the field if it knows the number and skips the value otherwise. Here the
loop is `decodeFields`; what a function knows is its list of `Known` fields.

Beside its value a decoder returns the log of what it has read: the bytes of each descriptor
message, and of each known field the number and the wire type of its tag. The source keeps no such
log; it is there to speak about.
-/

namespace Pbz

namespace Descriptor

/-- The messages of `descriptor.proto` that are decoded. -/
inductive DescriptorType where
  | file
  | fileOptions
  | message
  | messageOptions
  | field
  | fieldOptions
  | fieldEditionDefault
  | featureSupport
  | oneof
  | oneofOptions
  | enumeration
  | enumOptions
  | enumValue
  | enumValueOptions
  | extensionRange
  | extensionRangeOptions
  | extensionDeclaration
  | reservedRange
  | service
  | serviceOptions
  | method
  | methodOptions
  | sourceCodeInfo
  | sourceLocation
  | uninterpretedOption
  | uninterpretedNamePart
  | featureSet
  | featureSetEditionDefault
  | featureSetDefaults
  deriving DecidableEq, Repr

/-- The errors of decoding. `number` is either error of `std.fmt.parseInt`; `fuel` marks a
message of the model that is decoded with too few levels for those nested in it. -/
inductive Error where
  | wire (e : Pbz.Error)
  | invalidFieldType
  | number
  | fuel
  deriving DecidableEq, Repr

/-- What a decoder reads: a descriptor message, or a known field of one. -/
inductive Event where
  | message (bytes : Bytes)
  | field (type : DescriptorType) (number : Nat) (wireType : WireType)
  deriving DecidableEq, Repr

abbrev Log := List Event

/-- The outcome of decoding an `α`, with the log. -/
abbrev Reading (α : Type) := Except Error (α × Log)

variable {σ α β : Type}

/-- A computation on what has been decoded; it reads no bytes. -/
def Reading.andThen (reading : Reading α) (finish : α → Except Error β) : Reading β :=
  match reading with
  | .error e => .error e
  | .ok (value, log) =>
      match finish value with
      | .error e => .error e
      | .ok value => .ok (value, log)

/-- Decode a nested message and store it. -/
def nested (decode : Bytes → Reading α) (store : σ → α → Except Error σ) (state : σ)
    (payload : Bytes) : Reading σ :=
  (decode payload).andThen (store state)

/-- A case of the switch on the field number: which function reads the value, and what is done
with it. `readInt32`, `readInt64`, `readUInt64` and `readBool` all read a varint. -/
inductive Known (σ : Type) where
  | varint (store : σ → Nat → Except Error σ)
  | double (store : σ → BitVec 64 → σ)
  | bytes (store : σ → Bytes → Except Error σ)
  | message (decode : σ → Bytes → Reading σ)
  | int32List (store : σ → List (BitVec 32) → σ)

namespace Known

def int32 (store : σ → BitVec 32 → Except Error σ) : Known σ :=
  .varint fun state raw => store state (BitVec.ofNat 32 raw)

def int64 (store : σ → BitVec 64 → σ) : Known σ :=
  .varint fun state raw => .ok (store state (BitVec.ofNat 64 raw))

def uint64 (store : σ → Nat → σ) : Known σ := .varint fun state raw => .ok (store state raw)

def bool (store : σ → Bool → σ) : Known σ := .varint fun state raw => .ok (store state (raw != 0))

/-- `readBytes` for a string. -/
def string (store : σ → Bytes → σ) : Known σ := .bytes fun state text => .ok (store state text)

end Known

/-- `readInt32` to the end of a packed payload. -/
def int32Pass (values : List (BitVec 32)) (input : Bytes) :
    Loop.Step UInt8 (List (BitVec 32)) Error :=
  if input.isEmpty then .done values input
  else match readVarint input with
    | .error e => .fail values (.wire e)
    | .ok (raw, rest) => .next (values ++ [BitVec.ofNat 32 raw]) rest

/-- The values that `decodeInt32ListField` appends, and the bytes behind them. -/
def decodeInt32ListField (wireType : WireType) (input : Bytes) :
    Except Error (List (BitVec 32) × Bytes) :=
  match wireType with
  | .lengthDelimited =>
      match readBytes input with
      | .error e => .error (.wire e)
      | .ok (payload, rest) =>
          match Loop.run int32Pass [] payload with
          | (_, .error e) => .error e
          | (values, .ok _) => .ok (values, rest)
  | .varint =>
      match readVarint input with
      | .error e => .error (.wire e)
      | .ok (raw, rest) => .ok ([BitVec.ofNat 32 raw], rest)
  | _ => .error (.wire .invalidWireType)

/-- A read of the reader, its error among those of decoding. -/
def reading (result : ReadResult α) : Except Error (α × Bytes) :=
  match result with
  | .error e => .error (.wire e)
  | .ok read => .ok read

/-- Read a known field. The wire type of its tag counts for lists of integers only. -/
def Known.read (field : Known σ) (wireType : WireType) (state : σ) (input : Bytes) :
    Except Error ((σ × Log) × Bytes) := do
  match field with
  | .varint store =>
      let (raw, rest) ← reading (readVarint input)
      return ((← store state raw, []), rest)
  | .double store =>
      let (raw, rest) ← reading (readRawLittle 8 input)
      return ((store state (BitVec.ofNat 64 raw), []), rest)
  | .bytes store =>
      let (value, rest) ← reading (readBytes input)
      return ((← store state value, []), rest)
  | .message decode =>
      let (payload, rest) ← reading (readBytes input)
      return (← decode state payload, rest)
  | .int32List store =>
      let (values, rest) ← decodeInt32ListField wireType input
      return ((store state values, []), rest)

/-- One pass of the loop. -/
def fieldPass (type : DescriptorType) (known : List (Nat × Known σ)) (state : σ × Log)
    (input : Bytes) : Loop.Step UInt8 (σ × Log) Error :=
  match nextTag input with
  | .error e => .fail state (.wire e)
  | .ok none => .done state input
  | .ok (some (tag, rest)) =>
      match known.lookup tag.number with
      | none =>
          match skipValue recursionLimit tag rest with
          | .error e => .fail state (.wire e)
          | .ok rest => .next state rest
      | some field =>
          match field.read tag.wireType state.1 rest with
          | .error e => .fail state e
          | .ok ((value, log), rest) =>
              .next (value, state.2 ++ .field type tag.number tag.wireType :: log) rest

/-- The loop of a decoding function over the payload of its message. -/
def decodeFields (type : DescriptorType) (known : List (Nat × Known σ)) (init : σ)
    (bytes : Bytes) : Reading σ :=
  match Loop.run (fieldPass type known) (init, [.message bytes]) bytes with
  | (_, .error e) => .error e
  | (state, .ok _) => .ok state

/-! ## What a pass reads -/

theorem of_reading_eq_ok {result : ReadResult α} {value : α} {rest : Bytes}
    (h : reading result = .ok (value, rest)) : result = .ok (value, rest) := by
  cases result with
  | error e => simp [reading] at h
  | ok read => simpa [reading] using h

theorem decodeInt32ListField_skips {wireType : WireType} (number : Nat) {input rest : Bytes}
    {values : List (BitVec 32)} (h : decodeInt32ListField wireType input = .ok (values, rest)) :
    skipValue recursionLimit { number, wireType } input = .ok rest := by
  rw [skipValue, skipWith]
  cases wireType with
  | varint =>
      simp only [decodeInt32ListField] at h
      cases hr : readVarint input with
      | error e => simp [hr] at h
      | ok read =>
          simp only [hr, Except.ok.injEq, Prod.mk.injEq] at h
          simp only [restOf, h.2]
  | lengthDelimited =>
      simp only [decodeInt32ListField] at h
      cases hr : readBytes input with
      | error e => simp [hr] at h
      | ok read =>
          simp only [hr] at h
          split at h
          · simp at h
          · simp only [Except.ok.injEq, Prod.mk.injEq] at h
            simp only [restOf, h.2]
  | fixed64 => simp [decodeInt32ListField] at h
  | startGroup => simp [decodeInt32ListField] at h
  | endGroup => simp [decodeInt32ListField] at h
  | fixed32 => simp [decodeInt32ListField] at h

/-- Reading a known field does not go back. -/
theorem Known.read_length {field : Known σ} {wireType : WireType} {state : σ} {input rest : Bytes}
    {read : σ × Log} (h : field.read wireType state input = .ok (read, rest)) :
    rest.length ≤ input.length := by
  cases field with
  | varint store =>
      obtain ⟨⟨raw, rest'⟩, hraw, h⟩ := Check.of_bind_eq_ok h
      obtain ⟨stored, -, h⟩ := Check.of_bind_eq_ok h
      simp only [pure, Except.pure, Except.ok.injEq, Prod.mk.injEq] at h
      rw [← h.2]
      exact Nat.le_of_lt (readVarint_consumes _ _ _ (of_reading_eq_ok hraw))
  | double store =>
      obtain ⟨⟨raw, rest'⟩, hraw, h⟩ := Check.of_bind_eq_ok h
      simp only [pure, Except.pure, Except.ok.injEq, Prod.mk.injEq] at h
      rw [← h.2]
      exact (readRawLittle_length (of_reading_eq_ok hraw)) ▸ Nat.le_add_right _ _
  | bytes store =>
      obtain ⟨⟨raw, rest'⟩, hraw, h⟩ := Check.of_bind_eq_ok h
      obtain ⟨stored, -, h⟩ := Check.of_bind_eq_ok h
      simp only [pure, Except.pure, Except.ok.injEq, Prod.mk.injEq] at h
      rw [← h.2]
      exact Nat.le_of_lt (readBytes_consumes _ _ _ (of_reading_eq_ok hraw))
  | message decode =>
      obtain ⟨⟨payload, rest'⟩, hpayload, h⟩ := Check.of_bind_eq_ok h
      obtain ⟨decoded, -, h⟩ := Check.of_bind_eq_ok h
      simp only [pure, Except.pure, Except.ok.injEq, Prod.mk.injEq] at h
      rw [← h.2]
      exact Nat.le_of_lt (readBytes_consumes _ _ _ (of_reading_eq_ok hpayload))
  | int32List store =>
      obtain ⟨⟨values, rest'⟩, hvalues, h⟩ := Check.of_bind_eq_ok h
      simp only [pure, Except.pure, Except.ok.injEq, Prod.mk.injEq] at h
      rw [← h.2]
      exact skipValue_shrinks _ _ _ _ (decodeInt32ListField_skips 0 hvalues)

/-- What a pass that goes on has read: an unknown field, or a known one that it has logged. -/
theorem fieldPass_next {type : DescriptorType} {known : List (Nat × Known σ)}
    {state state' : σ × Log} {input rest : Bytes}
    (h : fieldPass type known state input = .next state' rest) :
    ∃ tag value, nextTag input = .ok (some (tag, value))
      ∧ ((known.lookup tag.number = none ∧ state' = state
          ∧ skipValue recursionLimit tag value = .ok rest)
        ∨ ∃ field stored log, known.lookup tag.number = some field
          ∧ field.read tag.wireType state.1 value = .ok ((stored, log), rest)
          ∧ state' = (stored, state.2 ++ .field type tag.number tag.wireType :: log)) := by
  rw [fieldPass] at h
  split at h
  · simp at h
  · simp at h
  · next tag value hn =>
    refine ⟨tag, value, hn, ?_⟩
    split at h
    · next hk =>
      split at h
      · simp at h
      · next r hs =>
        simp only [Loop.Step.next.injEq] at h
        exact .inl ⟨hk, h.1.symm, by rw [hs, h.2]⟩
    · next field hk =>
      split at h
      · simp at h
      · next stored log r hr =>
        simp only [Loop.Step.next.injEq] at h
        exact .inr ⟨field, stored, log, hk, by rw [hr, h.2], h.1.symm⟩

theorem fieldPass_done {type : DescriptorType} {known : List (Nat × Known σ)}
    {state state' : σ × Log} {input rest : Bytes}
    (h : fieldPass type known state input = .done state' rest) : state' = state ∧ input = [] := by
  rw [fieldPass] at h
  split at h
  · simp at h
  · next hn =>
    simp only [Loop.Step.done.injEq] at h
    exact ⟨h.1.symm, nextTag_none hn⟩
  · split at h
    · split at h <;> simp at h
    · split at h <;> simp at h

theorem fieldPass_consuming (type : DescriptorType) (known : List (Nat × Known σ)) :
    Loop.Consuming (fieldPass type known) := by
  intro state input state' rest h
  obtain ⟨tag, value, hn, ⟨-, -, hs⟩ | ⟨field, stored, log, -, hr, -⟩⟩ := fieldPass_next h
  · exact Nat.lt_of_le_of_lt (skipValue_shrinks _ _ _ _ hs) (nextTag_length hn)
  · exact Nat.lt_of_le_of_lt (Known.read_length hr) (nextTag_length hn)

/-- A pass looks at no message that is longer than its input. -/
theorem fieldPass_congr {type : DescriptorType} {known known' : List (Nat × Known σ)} {n : Nat}
    (h : ∀ number, known.lookup number = known'.lookup number
      ∨ ∃ decode decode', known.lookup number = some (.message decode)
        ∧ known'.lookup number = some (.message decode')
        ∧ ∀ state payload, payload.length < n → decode state payload = decode' state payload)
    (state : σ × Log) (input : Bytes) (hn : input.length ≤ n) :
    fieldPass type known state input = fieldPass type known' state input := by
  rw [fieldPass, fieldPass]
  cases ht : nextTag input with
  | error e => rfl
  | ok next =>
      cases next with
      | none => rfl
      | some next =>
          obtain ⟨tag, rest⟩ := next
          obtain heq | ⟨decode, decode', hd, hd', hagree⟩ := h tag.number
          · simp only [heq]
          · have hread : (Known.message decode).read tag.wireType state.1 rest
                = (Known.message decode').read tag.wireType state.1 rest := by
              rw [Known.read, Known.read]
              cases hp : readBytes rest with
              | error e => rfl
              | ok read =>
                  obtain ⟨payload, rest'⟩ := read
                  have h1 := readBytes_value_length hp
                  have h2 := nextTag_length ht
                  simp only [reading, bind, Except.bind, hagree state.1 payload (by omega)]
            simp only [hd, hd', hread]

end Descriptor

end Pbz
