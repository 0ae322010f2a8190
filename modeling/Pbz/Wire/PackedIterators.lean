import Pbz.Wire.FastVarint
import Pbz.Wire.Grammar

set_option autoImplicit false

/-! # Iterators over packed fields

The iterators of `wire.zig` over the values of a repeated varint field. An iterator stands at an
index of one payload, and keeps the bytes behind that payload, in which it looks for the next
occurrence of its field. An occurrence is a packed payload or a single varint. Iterating to the end
yields the values of all occurrences in the order of the bytes, up to the first field that is
malformed.
-/

namespace Pbz

namespace Wire

/-! ## The iterators -/

structure PackedVarintSegment where
  payload : Bytes
  remainingFields : Bytes
  deriving DecidableEq

/-- The payload of an occurrence, and what is behind it. -/
def segmentPayload (wireType : WireType) (input : Bytes) : ReadResult Bytes :=
  match wireType with
  | .lengthDelimited => readBytes input
  | .varint => Except.map (fun read => (consumed input read.2, read.2)) (readVarint input)
  | _ => .error .invalidWireType

/-- One pass of the loop of `nextPackedVarintSegment`. -/
def segmentStep (number : Nat) (_ : Option PackedVarintSegment) (input : Bytes) :
    Loop.Step UInt8 (Option PackedVarintSegment) Error :=
  match nextTag input with
  | .error e => .fail none e
  | .ok none => .done none []
  | .ok (some (tag, rest)) =>
      if tag.number = number then
        match segmentPayload tag.wireType rest with
        | .error e => .fail none e
        | .ok (payload, rest) => .done (some { payload, remainingFields := rest }) rest
      else match skipValue recursionLimit tag rest with
        | .error e => .fail none e
        | .ok rest => .next none rest

def nextPackedVarintSegment (bytes : Bytes) (number : Nat) :
    Except Error (Option PackedVarintSegment) :=
  let outcome := Loop.run (segmentStep number) none bytes
  outcome.2.map (fun _ => outcome.1)

/-- The fields that all six iterators have. -/
structure PackedIterator where
  payload : Bytes
  index : Nat
  remainingFields : Bytes
  fieldNumber : Nat
  deriving DecidableEq

def PackedIterator.ofSegment (number : Nat) (segment : PackedVarintSegment) : PackedIterator :=
  { payload := segment.payload, index := 0, remainingFields := segment.remainingFields,
    fieldNumber := number }

/-- An iterator at the start of another segment. -/
def PackedIterator.enter (iterator : PackedIterator) (segment : PackedVarintSegment) :
    PackedIterator :=
  { iterator with payload := segment.payload, index := 0,
                  remainingFields := segment.remainingFields }

theorem segmentStep_consuming (number : Nat) : Loop.Consuming (segmentStep number) := by
  intro s input s' rest h
  unfold segmentStep at h
  cases hnext : nextTag input with
  | error e => rw [hnext] at h; cases h
  | ok next =>
      rw [hnext] at h
      cases next with
      | none => cases h
      | some pair =>
          obtain ⟨tag, behind⟩ := pair
          have htag := nextTag_length hnext
          dsimp only at h
          split at h
          · split at h <;> cases h
          · split at h
            · cases h
            · next hskip =>
              cases h
              have := skipValue_shrinks _ _ _ _ hskip
              omega

theorem segment_of_done {bytes rest : Bytes} {number : Nat} {segment : Option PackedVarintSegment}
    (h : segmentStep number none bytes = .done segment rest) :
    nextPackedVarintSegment bytes number = .ok segment := by
  rw [nextPackedVarintSegment, Loop.run_of_done h]
  rfl

theorem segment_of_fail {bytes : Bytes} {number : Nat} {e : Error}
    (h : segmentStep number none bytes = .fail none e) :
    nextPackedVarintSegment bytes number = .error e := by
  rw [nextPackedVarintSegment, Loop.run_of_fail h]
  rfl

theorem segment_of_next {bytes rest : Bytes} {number : Nat}
    (h : segmentStep number none bytes = .next none rest) :
    nextPackedVarintSegment bytes number = nextPackedVarintSegment rest number := by
  rw [nextPackedVarintSegment, Loop.run_of_next (segmentStep_consuming number) h]
  rfl

/-! ### The first field of some bytes -/

/-- An occurrence of the field, and the bytes of its values. -/
inductive Occurrence (number : Nat) : Bytes → Bytes → Prop
  | single {tagBytes bytes : Bytes} {value : Nat}
      (htag : IsTag tagBytes { number, wireType := .varint }) (hvalue : IsVarint bytes value) :
      Occurrence number (tagBytes ++ bytes) bytes
  | packed {tagBytes size payload : Bytes}
      (htag : IsTag tagBytes { number, wireType := .lengthDelimited })
      (hsize : IsVarint size payload.length) :
      Occurrence number (tagBytes ++ (size ++ payload)) payload

/-- The first field is malformed: its tag, the value of another field, or an occurrence, which may
also have a wire type that no varint has. -/
inductive Malformed (number : Nat) : Bytes → Error → Prop
  | tag {bytes : Bytes} {e : Error} (h : nextTag bytes = .error e) : Malformed number bytes e
  | other {tag : Tag} {tagBytes bytes : Bytes} {e : Error} (htag : IsTag tagBytes tag)
      (hother : tag.number ≠ number) (h : skipValue recursionLimit tag bytes = .error e) :
      Malformed number (tagBytes ++ bytes) e
  | occurrence {tag : Tag} {tagBytes bytes : Bytes} {e : Error} (htag : IsTag tagBytes tag)
      (hnumber : tag.number = number) (h : segmentPayload tag.wireType bytes = .error e) :
      Malformed number (tagBytes ++ bytes) e

/-- A well-formed value of another field. -/
def OtherValue (number : Nat) (tag : Tag) (bytes : Bytes) : Prop :=
  tag.number ≠ number ∧ IsValue (IsGroup recursionLimit) tag bytes

theorem segmentStep_nil (number : Nat) : segmentStep number none [] = .done none [] := rfl

theorem segmentStep_other {number : Nat} {tag : Tag} {tagBytes bytes : Bytes}
    (htag : IsTag tagBytes tag) (hvalue : OtherValue number tag bytes) (rest : Bytes) :
    segmentStep number none (tagBytes ++ (bytes ++ rest)) = .next none rest := by
  rw [segmentStep, htag.nextTag_append]
  simp only [if_neg hvalue.1, (skipValue_skips recursionLimit tag).append hvalue.2]

theorem segmentStep_occurrence {number : Nat} {bytes payload : Bytes}
    (h : Occurrence number bytes payload) (rest : Bytes) :
    segmentStep number none (bytes ++ rest)
      = .done (some { payload, remainingFields := rest }) rest := by
  cases h with
  | single htag hvalue =>
      rw [List.append_assoc, segmentStep, htag.nextTag_append]
      simp only [if_true, segmentPayload, hvalue.readVarint_append, Except.map, consumed_prefix]
  | packed htag hsize =>
      rw [List.append_assoc, List.append_assoc, segmentStep, htag.nextTag_append]
      simp only [if_true, segmentPayload, hsize.readBytes_append]

theorem segmentStep_malformed {number : Nat} {bytes : Bytes} {e : Error}
    (h : Malformed number bytes e) : segmentStep number none bytes = .fail none e := by
  cases h with
  | tag h => rw [segmentStep, h]
  | other htag hother h =>
      rw [segmentStep, htag.nextTag_append]
      simp only [if_neg hother, h]
  | occurrence htag hnumber h =>
      rw [segmentStep, htag.nextTag_append]
      simp only [if_pos hnumber, h]

theorem occurrence_of_segmentPayload {tag : Tag} {tagBytes input payload rest : Bytes}
    (htag : IsTag tagBytes tag) (h : segmentPayload tag.wireType input = .ok (payload, rest)) :
    ∃ bytes, input = bytes ++ rest ∧ Occurrence tag.number (tagBytes ++ bytes) payload := by
  obtain ⟨number, wireType⟩ := tag
  cases wireType with
  | varint =>
      have h : Except.map (fun read => (consumed input read.2, read.2)) (readVarint input)
          = .ok (payload, rest) := h
      cases hread : readVarint input with
      | error e => rw [hread] at h; cases h
      | ok read =>
          obtain ⟨value, behind⟩ := read
          obtain ⟨bytes, rfl, hvalue⟩ := readVarint_iff.mp hread
          rw [hread] at h
          simp only [Except.map, Except.ok.injEq, Prod.mk.injEq, consumed_prefix] at h
          obtain ⟨rfl, rfl⟩ := h
          exact ⟨bytes, rfl, .single htag hvalue⟩
  | lengthDelimited =>
      obtain ⟨size, rfl, hsize⟩ := readBytes_iff.mp h
      exact ⟨size ++ payload, by rw [List.append_assoc], .packed htag hsize⟩
  | fixed64 => cases h
  | startGroup => cases h
  | endGroup => cases h
  | fixed32 => cases h

/-- What some bytes start with. -/
theorem firstField_cases (number : Nat) (bytes : Bytes) :
    bytes = []
    ∨ (∃ tag tagBytes value rest, bytes = tagBytes ++ (value ++ rest) ∧ IsTag tagBytes tag
        ∧ OtherValue number tag value)
    ∨ (∃ first payload rest, bytes = first ++ rest ∧ Occurrence number first payload)
    ∨ ∃ e, Malformed number bytes e := by
  cases hnext : nextTag bytes with
  | error e => exact .inr (.inr (.inr ⟨e, .tag hnext⟩))
  | ok next =>
      cases next with
      | none => exact .inl (nextTag_none hnext)
      | some pair =>
          obtain ⟨tag, behind⟩ := pair
          obtain ⟨tagBytes, rfl, htag⟩ := nextTag_iff.mp hnext
          by_cases hnumber : tag.number = number
          · cases hpayload : segmentPayload tag.wireType behind with
            | error e => exact .inr (.inr (.inr ⟨e, .occurrence htag hnumber hpayload⟩))
            | ok read =>
                obtain ⟨bytes, rfl, hoccurrence⟩ := occurrence_of_segmentPayload htag hpayload
                rw [hnumber] at hoccurrence
                exact .inr (.inr (.inl ⟨tagBytes ++ bytes, read.1, read.2,
                  (List.append_assoc _ _ _).symm, hoccurrence⟩))
          · cases hskip : skipValue recursionLimit tag behind with
            | error e => exact .inr (.inr (.inr ⟨e, .other htag hnumber hskip⟩))
            | ok rest =>
                obtain ⟨value, rfl, hvalue⟩ := (skipValue_skips _ _ _ _).mp hskip
                exact .inr (.inl ⟨tag, tagBytes, value, rest, rfl, htag, hnumber, hvalue⟩)

theorem Occurrence.length_pos {number : Nat} {bytes payload : Bytes}
    (h : Occurrence number bytes payload) : 0 < bytes.length := by
  cases h with
  | single htag _ =>
      have := htag.isVarint.length_pos
      rw [List.length_append]
      omega
  | packed htag _ =>
      have := htag.isVarint.length_pos
      rw [List.length_append]
      omega

/-- No tag has the number 0, by which an iterator over a single payload is told apart. -/
theorem Occurrence.number_ne_zero {number : Nat} {bytes payload : Bytes}
    (h : Occurrence number bytes payload) : number ≠ 0 := by
  cases h with
  | single htag _ => exact Nat.ne_of_gt htag.validNumber.1
  | packed htag _ => exact Nat.ne_of_gt htag.validNumber.1

/-- The bytes behind a segment are fewer than those that it was found in. -/
theorem nextPackedVarintSegment_length {bytes : Bytes} {number : Nat}
    {segment : PackedVarintSegment} (h : nextPackedVarintSegment bytes number = .ok (some segment)) :
    segment.remainingFields.length < bytes.length := by
  induction hn : bytes.length using Nat.strong_induction_on generalizing bytes with
  | _ n ih =>
      rcases firstField_cases number bytes with rfl | ⟨tag, tagBytes, value, rest, rfl, htag, hvalue⟩
        | ⟨first, payload, rest, rfl, hoccurrence⟩ | ⟨e, hmalformed⟩
      · rw [segment_of_done (segmentStep_nil number)] at h
        cases h
      · rw [segment_of_next (segmentStep_other htag hvalue rest)] at h
        have hpos := htag.isVarint.length_pos
        rw [List.length_append, List.length_append] at hn
        have hless := ih rest.length (by omega) h rfl
        omega
      · rw [segment_of_done (segmentStep_occurrence hoccurrence rest)] at h
        cases h
        have hpos := hoccurrence.length_pos
        rw [← hn, List.length_append]
        show rest.length < _
        omega
      · rw [segment_of_fail (segmentStep_malformed hmalformed)] at h
        cases h

/-- `nextPackedVarint` and `nextPackedVarint32Hot`, which differ in how they read inside a
payload. -/
def nextPacked {α : Type} (read : Bytes → Nat → Except Error α × Nat) (iterator : PackedIterator) :
    Except Error (Option α) × PackedIterator :=
  if iterator.index < iterator.payload.length then
    let value := read iterator.payload iterator.index
    (value.1.map some, { iterator with index := value.2 })
  else if iterator.fieldNumber = 0 then (.ok none, iterator)
  else
    match _h : nextPackedVarintSegment iterator.remainingFields iterator.fieldNumber with
    | .error e => (.error e, iterator)
    | .ok none => (.ok none, iterator)
    | .ok (some segment) => nextPacked read (iterator.enter segment)
termination_by iterator.remainingFields.length
decreasing_by exact nextPackedVarintSegment_length ‹_›

def nextPackedVarint (iterator : PackedIterator) : Except Error (Option (BitVec 64)) × PackedIterator :=
  nextPacked readVarintAt iterator

def nextPackedVarint32Hot (iterator : PackedIterator) :
    Except Error (Option (BitVec 32)) × PackedIterator :=
  nextPacked readPackedVarint32Hot iterator

/-- A call of `next` whose value is seen through a function. -/
def mapNext {α β : Type} (f : α → β) (next : Except Error (Option α) × PackedIterator) :
    Except Error (Option β) × PackedIterator :=
  (next.1.map (Option.map f), next.2)

def PackedUInt64Iterator.next (self : PackedIterator) :
    Except Error (Option (BitVec 64)) × PackedIterator :=
  nextPackedVarint self

def PackedInt32Iterator.next (self : PackedIterator) :
    Except Error (Option (BitVec 32)) × PackedIterator :=
  nextPackedVarint32Hot self

def PackedUInt32Iterator.next (self : PackedIterator) :
    Except Error (Option (BitVec 32)) × PackedIterator :=
  mapNext (BitVec.setWidth 32) (nextPackedVarint self)

def PackedInt64Iterator.next (self : PackedIterator) :
    Except Error (Option (BitVec 64)) × PackedIterator :=
  nextPackedVarint self

def PackedSInt32Iterator.next (self : PackedIterator) :
    Except Error (Option (BitVec 32)) × PackedIterator :=
  mapNext zigZagDecode32 (nextPackedVarint32Hot self)

def PackedSInt64Iterator.next (self : PackedIterator) :
    Except Error (Option (BitVec 64)) × PackedIterator :=
  mapNext zigZagDecode64 (nextPackedVarint self)

/-- All six constructors: `packedUInt64FieldIterator`, `packedInt32FieldIterator`,
`packedUInt32FieldIterator`, `packedInt64FieldIterator`, `packedSInt32FieldIterator` and
`packedSInt64FieldIterator`. -/
def packedFieldIterator (bytes : Bytes) (number : Nat) : Except Error (Option PackedIterator) :=
  (nextPackedVarintSegment bytes number).map (Option.map (PackedIterator.ofSegment number))

/-! ## The values of a field -/

/-- The values of a payload up to the first varint that is malformed, and the error of that. -/
inductive PayloadValues : Bytes → List (BitVec 64) → Option Error → Prop
  | nil : PayloadValues [] [] none
  | cons {bytes rest : Bytes} {value : Nat} {values : List (BitVec 64)} {ending : Option Error}
      (hvalue : IsVarint bytes value) (hrest : PayloadValues rest values ending) :
      PayloadValues (bytes ++ rest) (BitVec.ofNat 64 value :: values) ending
  | malformed {bytes : Bytes} {e : Error} (hne : bytes ≠ []) (h : readVarint bytes = .error e) :
      PayloadValues bytes [] (some e)

/-- The values of all occurrences of a field, packed or not, in the order of the bytes, up to the
first field that is malformed, and the error of that. -/
inductive FieldValues (number : Nat) : Bytes → List (BitVec 64) → Option Error → Prop
  | nil : FieldValues number [] [] none
  | other {tag : Tag} {tagBytes bytes rest : Bytes} {values : List (BitVec 64)}
      {ending : Option Error} (htag : IsTag tagBytes tag) (hvalue : OtherValue number tag bytes)
      (hrest : FieldValues number rest values ending) :
      FieldValues number (tagBytes ++ (bytes ++ rest)) values ending
  | occurrence {bytes payload rest : Bytes} {values more : List (BitVec 64)}
      {ending : Option Error} (hoccurrence : Occurrence number bytes payload)
      (hvalues : PayloadValues payload values none)
      (hrest : FieldValues number rest more ending) :
      FieldValues number (bytes ++ rest) (values ++ more) ending
  | stops {bytes payload rest : Bytes} {values : List (BitVec 64)} {e : Error}
      (hoccurrence : Occurrence number bytes payload)
      (hvalues : PayloadValues payload values (some e)) :
      FieldValues number (bytes ++ rest) values (some e)
  | malformed {bytes : Bytes} {e : Error} (h : Malformed number bytes e) :
      FieldValues number bytes [] (some e)

/-- The bytes are well-formed fields, and none of them has the number. -/
def LacksNumber (number : Nat) (bytes : Bytes) : Prop := Fields (OtherValue number) bytes

theorem exists_payloadValues (payload : Bytes) : ∃ values ending, PayloadValues payload values ending := by
  induction hn : payload.length using Nat.strong_induction_on generalizing payload with
  | _ n ih =>
      by_cases hempty : payload = []
      · exact ⟨[], none, hempty ▸ .nil⟩
      · cases hread : readVarint payload with
        | error e => exact ⟨[], some e, .malformed hempty hread⟩
        | ok read =>
            obtain ⟨value, rest⟩ := read
            have hless := readVarint_consumes _ _ _ hread
            obtain ⟨bytes, rfl, hvalue⟩ := readVarint_iff.mp hread
            obtain ⟨values, ending, hvalues⟩ := ih rest.length (by omega) rest rfl
            exact ⟨_, ending, .cons hvalue hvalues⟩

/-- Every byte string has values of the field, none at all included, and an end. -/
theorem exists_fieldValues (number : Nat) (bytes : Bytes) :
    ∃ values ending, FieldValues number bytes values ending := by
  induction hn : bytes.length using Nat.strong_induction_on generalizing bytes with
  | _ n ih =>
      rcases firstField_cases number bytes with rfl | ⟨tag, tagBytes, value, rest, rfl, htag, hvalue⟩
        | ⟨first, payload, rest, rfl, hoccurrence⟩ | ⟨e, hmalformed⟩
      · exact ⟨[], none, .nil⟩
      · have hpos := htag.isVarint.length_pos
        rw [List.length_append, List.length_append] at hn
        obtain ⟨values, ending, hrest⟩ := ih rest.length (by omega) rest rfl
        exact ⟨values, ending, .other htag hvalue hrest⟩
      · have hpos := hoccurrence.length_pos
        rw [List.length_append] at hn
        obtain ⟨values, ending, hvalues⟩ := exists_payloadValues payload
        cases ending with
        | some e => exact ⟨values, some e, .stops hoccurrence hvalues⟩
        | none =>
            obtain ⟨more, ending, hrest⟩ := ih rest.length (by omega) rest rfl
            exact ⟨values ++ more, ending, .occurrence hoccurrence hvalues hrest⟩
      · exact ⟨[], some e, .malformed hmalformed⟩

/-! ## Iterating -/

/-- Calling `next` over and over yields these values and comes to an end, with an error or with
null. -/
inductive Yields {α : Type} (next : PackedIterator → Except Error (Option α) × PackedIterator) :
    PackedIterator → List α → Option Error → Prop
  | null {iterator after : PackedIterator} (h : next iterator = (.ok none, after)) :
      Yields next iterator [] none
  | error {iterator after : PackedIterator} {e : Error} (h : next iterator = (.error e, after)) :
      Yields next iterator [] (some e)
  | value {iterator after : PackedIterator} {v : α} {values : List α} {ending : Option Error}
      (h : next iterator = (.ok (some v), after)) (hrest : Yields next after values ending) :
      Yields next iterator (v :: values) ending

/-- What an iterator yields depends on what its first call returns and on the iterator behind it. -/
theorem Yields.of_next_eq {α : Type}
    {next : PackedIterator → Except Error (Option α) × PackedIterator}
    {iterator other : PackedIterator} {values : List α} {ending : Option Error}
    (hnext : next iterator = next other) (h : Yields next other values ending) :
    Yields next iterator values ending := by
  cases h with
  | null h => exact .null (hnext.trans h)
  | error h => exact .error (hnext.trans h)
  | value h hrest => exact .value (hnext.trans h) hrest

/-- Iterating with another view of the values. -/
theorem Yields.map {α β : Type} {next : PackedIterator → Except Error (Option α) × PackedIterator}
    (f : α → β) {iterator : PackedIterator} {values : List α} {ending : Option Error}
    (h : Yields next iterator values ending) :
    Yields (fun iterator => mapNext f (next iterator)) iterator (values.map f) ending := by
  induction h with
  | null h => exact .null (by rw [h]; rfl)
  | error h => exact .error (by rw [h]; rfl)
  | value h _ ih => exact .value (by rw [h]; rfl) ih

/-- A reader of values reads varints, and sees their values through a function. -/
def ReadsThrough {α : Type} (read : Bytes → Nat → Except Error α × Nat) (f : BitVec 64 → α) :
    Prop :=
  ∀ payload index, read payload index = mapValue f (readVarintAt payload index)

/-- What is yielded behind a payload, from what the search for the next segment returns. -/
inductive YieldsBehind {α : Type} (read : Bytes → Nat → Except Error α × Nat) (number : Nat) :
    Except Error (Option PackedVarintSegment) → List α → Option Error → Prop
  | null : YieldsBehind read number (.ok none) [] none
  | error {e : Error} : YieldsBehind read number (.error e) [] (some e)
  | segment {segment : PackedVarintSegment} {values : List α} {ending : Option Error}
      (h : Yields (nextPacked read) (.ofSegment number segment) values ending) :
      YieldsBehind read number (.ok (some segment)) values ending

section

variable {α : Type} {read : Bytes → Nat → Except Error α × Nat} {f : BitVec 64 → α}

/-- At the end of a payload the iterator goes on with the next segment. -/
theorem yields_of_behind {iterator : PackedIterator} {values : List α} {ending : Option Error}
    (hend : iterator.payload.drop iterator.index = []) (hnumber : iterator.fieldNumber ≠ 0)
    (h : YieldsBehind read iterator.fieldNumber
      (nextPackedVarintSegment iterator.remainingFields iterator.fieldNumber) values ending) :
    Yields (nextPacked read) iterator values ending := by
  have hout : ¬ iterator.index < iterator.payload.length :=
    Nat.not_lt.mpr (List.drop_eq_nil_iff.mp hend)
  have hnext : ∀ result, nextPackedVarintSegment iterator.remainingFields iterator.fieldNumber
      = result → YieldsBehind read iterator.fieldNumber result values ending →
      Yields (nextPacked read) iterator values ending := by
    intro result hresult hbehind
    cases hbehind with
    | null =>
        have hnull : nextPacked read iterator = (.ok none, iterator) := by
          rw [nextPacked, if_neg hout, if_neg hnumber]
          split
          · next e he => rw [hresult] at he; cases he
          · rfl
          · next segment he => rw [hresult] at he; cases he
        exact .null hnull
    | @error e =>
        have herror : nextPacked read iterator = (.error e, iterator) := by
          rw [nextPacked, if_neg hout, if_neg hnumber]
          split
          · next e' he =>
            rw [hresult] at he
            cases he
            rfl
          · next he => rw [hresult] at he; cases he
          · next segment he => rw [hresult] at he; cases he
        exact .error herror
    | @segment segment _ _ h =>
        refine h.of_next_eq ?_
        rw [nextPacked, if_neg hout, if_neg hnumber]
        split
        · next e he => rw [hresult] at he; cases he
        · next he => rw [hresult] at he; cases he
        · next other he =>
          rw [hresult] at he
          cases he
          rfl
  exact hnext _ rfl h

/-- A read at a varint gives its value, and leaves the index behind it. -/
theorem ReadsThrough.value (hread : ReadsThrough read f) {payload first rest : Bytes}
    {index value : Nat} (hvalue : IsVarint first value)
    (hbytes : payload.drop index = first ++ rest) :
    index < payload.length
      ∧ read payload index = (.ok (f (BitVec.ofNat 64 value)), payload.length - rest.length)
      ∧ payload.drop (payload.length - rest.length) = rest := by
  have hlength := congrArg List.length hbytes
  have hpos := hvalue.length_pos
  rw [List.length_drop, List.length_append] at hlength
  have hat := readVarintAt_of_readVarint (hbytes ▸ hvalue.readVarint_append rest)
  refine ⟨by omega, by rw [hread, hat]; rfl, ?_⟩
  have hindex : payload.length - rest.length = index + first.length := by omega
  rw [hindex, ← List.drop_drop, hbytes, List.drop_left]

/-- A read where a varint is malformed gives the error. -/
theorem ReadsThrough.malformed (hread : ReadsThrough read f) {payload bytes : Bytes} {index : Nat}
    {e : Error} (hne : bytes ≠ []) (herror : readVarint bytes = .error e)
    (hbytes : payload.drop index = bytes) :
    index < payload.length
      ∧ read payload index = (.error e, (readVarintAt payload index).2) := by
  have hlength := congrArg List.length hbytes
  have hpos := List.length_pos_iff.mpr hne
  rw [List.length_drop] at hlength
  have hat := readVarintAt_eq payload index
  rw [hbytes, herror] at hat
  have hresult : (readVarintAt payload index).1 = .error e := by
    cases hr : (readVarintAt payload index).1 with
    | error e' =>
        rw [asRead, hr] at hat
        cases hat
        rfl
    | ok v =>
        rw [asRead, hr] at hat
        cases hat
  exact ⟨by omega, by rw [hread, mapValue, hresult]; rfl⟩

/-- Inside a payload the values are those of its varints; behind a payload without an error the
iterator goes on. -/
theorem yields_of_payload (hread : ReadsThrough read f) {bytes : Bytes} {values : List (BitVec 64)}
    {ending : Option Error} (h : PayloadValues bytes values ending) {iterator : PackedIterator}
    (hbytes : iterator.payload.drop iterator.index = bytes) (hnumber : iterator.fieldNumber ≠ 0) :
    (∀ e, ending = some e → Yields (nextPacked read) iterator (values.map f) (some e))
    ∧ (ending = none → ∀ more last, YieldsBehind read iterator.fieldNumber
        (nextPackedVarintSegment iterator.remainingFields iterator.fieldNumber) more last →
      Yields (nextPacked read) iterator (values.map f ++ more) last) := by
  induction h generalizing iterator with
  | nil =>
      refine ⟨fun e he => ?_, fun _ more last hbehind => ?_⟩
      · cases he
      · exact yields_of_behind hbytes hnumber hbehind
  | @cons first rest value values ending hvalue _ ih =>
      -- the first call reads the first varint, and leaves the others
      obtain ⟨hin, hat, hrest⟩ := hread.value hvalue hbytes
      have hnext : nextPacked read iterator = (.ok (some (f (BitVec.ofNat 64 value))),
          { iterator with index := iterator.payload.length - rest.length }) := by
        rw [nextPacked, if_pos hin, hat]
        rfl
      obtain ⟨herror, hmore⟩ :=
        @ih { iterator with index := iterator.payload.length - rest.length } hrest hnumber
      exact ⟨fun e he => .value hnext (herror e he),
        fun he more last hbehind => .value hnext (hmore he more last hbehind)⟩
  | @malformed bytes e hne herror =>
      obtain ⟨hin, hat⟩ := hread.malformed hne herror hbytes
      have hnext : nextPacked read iterator = (.error e, { iterator with
          index := (readVarintAt iterator.payload iterator.index).2 }) := by
        rw [nextPacked, if_pos hin, hat]
        rfl
      refine ⟨fun e' he => ?_, fun he => ?_⟩
      · cases he
        exact .error hnext
      · cases he

/-- What is yielded from a segment on are the values of the field in the bytes it is searched in. -/
theorem yieldsBehind_of_fieldValues (hread : ReadsThrough read f) {number : Nat}
    {bytes : Bytes} {values : List (BitVec 64)} {ending : Option Error}
    (h : FieldValues number bytes values ending) :
    YieldsBehind read number (nextPackedVarintSegment bytes number) (values.map f) ending := by
  induction h with
  | nil =>
      rw [segment_of_done (segmentStep_nil number)]
      exact .null
  | other htag hvalue _ ih =>
      rw [segment_of_next (segmentStep_other htag hvalue _)]
      exact ih
  | occurrence hoccurrence hvalues _ ih =>
      rw [segment_of_done (segmentStep_occurrence hoccurrence _), List.map_append]
      exact .segment ((yields_of_payload hread hvalues rfl hoccurrence.number_ne_zero).2 rfl _ _ ih)
  | stops hoccurrence hvalues =>
      rw [segment_of_done (segmentStep_occurrence hoccurrence _)]
      exact .segment ((yields_of_payload hread hvalues rfl hoccurrence.number_ne_zero).1 _ rfl)
  | malformed hmalformed =>
      rw [segment_of_fail (segmentStep_malformed hmalformed)]
      exact .error

end

/-- The search comes to the end of the bytes if and only if they are fields without the number. -/
theorem segment_none_iff (number : Nat) (bytes : Bytes) :
    nextPackedVarintSegment bytes number = .ok none ↔ LacksNumber number bytes := by
  constructor
  · intro h
    induction hn : bytes.length using Nat.strong_induction_on generalizing bytes with
    | _ n ih =>
        rcases firstField_cases number bytes with rfl |
          ⟨tag, tagBytes, value, rest, rfl, htag, hvalue⟩ |
          ⟨first, payload, rest, rfl, hoccurrence⟩ | ⟨e, hmalformed⟩
        · exact .nil
        · rw [segment_of_next (segmentStep_other htag hvalue rest)] at h
          have hpos := htag.isVarint.length_pos
          rw [List.length_append, List.length_append] at hn
          exact .cons htag hvalue (ih rest.length (by omega) rest h rfl)
        · rw [segment_of_done (segmentStep_occurrence hoccurrence rest)] at h
          cases h
        · rw [segment_of_fail (segmentStep_malformed hmalformed)] at h
          cases h
  · intro h
    unfold LacksNumber at h
    induction h with
    | nil => rw [segment_of_done (segmentStep_nil number)]
    | cons htag hvalue _ ih => rw [segment_of_next (segmentStep_other htag hvalue _), ih]

/-- An iterator over a field yields the whole field: what the constructor returns, and what `next`
yields from there on, in terms of the values of the field in the bytes. -/
structure IteratesField {α : Type}
    (next : PackedIterator → Except Error (Option α) × PackedIterator) (f : BitVec 64 → α)
    (bytes : Bytes) (number : Nat) : Prop where
  null_iff : packedFieldIterator bytes number = .ok none ↔ LacksNumber number bytes
  error : ∀ values ending, FieldValues number bytes values ending →
    ∀ e, packedFieldIterator bytes number = .error e → values = [] ∧ ending = some e
  yields : ∀ values ending, FieldValues number bytes values ending →
    ∀ iterator, packedFieldIterator bytes number = .ok (some iterator) →
      Yields next iterator (values.map f) ending

theorem iteratesField_nextPacked {α : Type} {read : Bytes → Nat → Except Error α × Nat}
    {f : BitVec 64 → α} (hread : ReadsThrough read f) (bytes : Bytes) (number : Nat) :
    IteratesField (nextPacked read) f bytes number := by
  have hnone := segment_none_iff number bytes
  have hbehind : ∀ values ending, FieldValues number bytes values ending →
      YieldsBehind read number (nextPackedVarintSegment bytes number) (values.map f) ending :=
    fun _ _ h => yieldsBehind_of_fieldValues hread h
  have hstart : packedFieldIterator bytes number
      = (nextPackedVarintSegment bytes number).map (Option.map (.ofSegment number)) := rfl
  cases hsegment : nextPackedVarintSegment bytes number with
  | error e =>
      rw [hsegment] at hnone hbehind hstart
      refine ⟨?_, fun values ending hvalues e' he => ?_, fun values ending _ iterator hok => ?_⟩
      · rw [hstart, ← hnone]
        exact ⟨fun h => (by cases h), fun h => (by cases h)⟩
      · obtain rfl : e = e' := Except.error.inj (hstart.symm.trans he)
        have hyields := hbehind values ending hvalues
        generalize hmapped : values.map f = mapped at hyields
        cases hyields
        exact ⟨List.map_eq_nil_iff.mp hmapped, rfl⟩
      · cases hstart.symm.trans hok
  | ok segment =>
      rw [hsegment] at hnone hbehind hstart
      refine ⟨?_, fun values ending _ e he => ?_, fun values ending hvalues iterator hok => ?_⟩
      · rw [hstart, ← hnone]
        cases segment with
        | none => exact ⟨fun _ => rfl, fun _ => rfl⟩
        | some segment => exact ⟨fun h => (by cases h), fun h => (by cases h)⟩
      · cases hstart.symm.trans he
      · cases segment with
        | none => cases hstart.symm.trans hok
        | some segment =>
            obtain rfl : PackedIterator.ofSegment number segment = iterator :=
              Option.some.inj (Except.ok.inj (hstart.symm.trans hok))
            have hyields := hbehind values ending hvalues
            generalize values.map f = mapped at hyields ⊢
            cases hyields with
            | segment h => exact h

theorem IteratesField.map {α β : Type}
    {next : PackedIterator → Except Error (Option α) × PackedIterator} {f : BitVec 64 → α}
    {bytes : Bytes} {number : Nat} (g : α → β) (h : IteratesField next f bytes number) :
    IteratesField (fun iterator => mapNext g (next iterator)) (fun v => g (f v)) bytes number := by
  refine ⟨h.null_iff, h.error, fun values ending hvalues iterator hstart => ?_⟩
  have hmap := (h.yields values ending hvalues iterator hstart).map g
  rwa [List.map_map] at hmap

theorem readsThrough_readVarintAt : ReadsThrough readVarintAt id := by
  intro payload index
  rw [mapValue]
  cases h : readVarintAt payload index with
  | mk result last => cases result <;> rfl

/-- An occurrence of the field behind well-formed other fields. -/
def Occurs (number : Nat) (bytes : Bytes) : Prop :=
  ∃ before first payload rest, bytes = before ++ (first ++ rest) ∧ LacksNumber number before
    ∧ Occurrence number first payload

/-- The fast readers return the value of the common reader cut to their types, fail where it fails
with the same error, and leave the same index; the hot reader of an iterator does so inside its
payload. -/
theorem fast_readers_eq :
    (∀ (input : Bytes) (start : Nat),
      readUInt32At input start = mapValue (BitVec.setWidth 32) (readVarintAt input start)
      ∧ readInt32At input start = mapValue (BitVec.setWidth 32) (readVarintAt input start)
      ∧ readSInt32At input start
        = mapValue (fun value => zigZagDecode32 (value.setWidth 32)) (readVarintAt input start)
      ∧ readBoolAt input start = mapValue (fun value => value != 0) (readVarintAt input start))
    ∧ ∀ iterator : PackedIterator, iterator.index < iterator.payload.length →
      let read := readVarintAt iterator.payload iterator.index
      nextPackedVarint32Hot iterator
        = (read.1.map (fun value => some (value.setWidth 32)),
            { iterator with index := read.2 }) := by
  refine ⟨fun input start => ⟨readUInt32At_eq input start, readInt32At_eq input start,
    readSInt32At_eq input start, readBoolAt_eq input start⟩, fun iterator hin => ?_⟩
  rw [nextPackedVarint32Hot, nextPacked, if_pos hin, readPackedVarint32Hot_eq]
  dsimp only [mapValue]
  cases (readVarintAt iterator.payload iterator.index).1 <;> rfl

/-- At the end of a payload the hot reader does not fail: the iterator is at its end. -/
theorem hot_reader_at_end :
    ¬ ∀ (payload : Bytes) (start : Nat),
      (nextPackedVarint32Hot { payload, index := start, remainingFields := [], fieldNumber := 0 }).1
        = (readVarintAt payload start).1.map (fun value => some (value.setWidth 32)) := by
  intro hclaim
  have hend := hclaim [] 0
  rw [nextPackedVarint32Hot, nextPacked] at hend
  cases hend

end Wire

end Pbz
