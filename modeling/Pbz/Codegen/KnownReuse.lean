import Pbz.Codegen.FlatDecode
import Pbz.Lib.FilledBuffer

set_option autoImplicit false

/-! # The hot path into presized buffers

`decodeKnownReuse` is emitted for messages whose fields are all flat, with at least one repeated
one among them. It writes the elements of the repeated fields into the buffers that the struct
holds, which are to have the lengths that `decode` produces, and does not check the index.

The hot path counts one element for each byte of a packed `bool` payload, and takes a packed payload
of every repeated enum. `decode` counts the varints, and its raw tag loop keeps the packed payloads
of an enum that is not packed as unknown fields. `Surplus` is how many elements more the hot path
counts, up to the first tag it does not know; the buffers are overrun exactly where `decode` does
not find as many elements of a field behind that tag (`decodeKnownReuse_agrees_iff`).
-/

namespace Pbz

namespace Codegen

def knownReuseRepeatedScalarSupported : ScalarType → Bool
  | .string | .bytes => false
  | _ => true

/-- The body of the loop of `messageCanDecodeKnownReuse`. -/
def fieldCanDecodeKnownReuse (file : FileDescriptor) (field : FieldDescriptor) : Bool :=
  if field.cardinality == .repeated then
    match field.kind with
    | .scalar scalar => knownReuseRepeatedScalarSupported scalar
    | .enumeration name => !enumIsClosed file name
    | _ => false
  else
    match field.kind with
    | .scalar _ => true
    | .enumeration name => !enumIsClosed file name
    | _ => false

def messageCanDecodeKnownReuse (file : FileDescriptor) (message : MessageDescriptor) : Bool :=
  message.oneofs.isEmpty && message.fields.all (fieldCanDecodeKnownReuse file)
    && message.fields.any (fun field => field.cardinality == .repeated)

/-- How the hot path can stop: with an error, or with an index outside of a buffer. -/
inductive Fault where
  | error (e : Error)
  | outOfBounds
  deriving DecidableEq

/-- The struct and the `_buffer` and `_len` variables of its repeated fields. -/
structure HotState where
  value : Nat → Value
  has : Nat → Bool
  buffer : Nat → FilledBuffer Value

/-! ## Values -/

/-- `writeKnownReuseSingularScalarDecodeExpr`, and `validateUtf8` after it. -/
def readHotScalar (file : FileDescriptor) (field : FieldDescriptor) (scalar : ScalarType)
    (input : Bytes) : ReadResult Value :=
  match scalar with
  | .int32 => (readInt32At input).map .int32
  | .uint32 => (readUInt32At input).map .uint32
  | .sint32 => (readSInt32At input).map .sint32
  | .bool => (readBoolAt input).map .boolean
  | _ => readScalarField file field scalar input

def readHotOne (file : FileDescriptor) (field : FieldDescriptor) (input : Bytes) :
    ReadResult Value :=
  match field.kind with
  | .scalar scalar => readHotScalar file field scalar input
  | .enumeration _ => (readInt32At input).map .enumeration
  | _ => .error .typeMismatch

/-- `writeKnownReuseRepeatedScalarDecodeExpr`. -/
def readHotElement (scalar : ScalarType) (input : Bytes) : ReadResult Value :=
  match scalar with
  | .int32 => (readInt32At input).map .int32
  | .sint32 => (readSInt32At input).map .sint32
  | _ => decodeScalarLike (.scalar scalar) input

def writeAll (b : FilledBuffer Value) (values : List Value) :
    Except Fault (FilledBuffer Value) :=
  match b.pushAll values with
  | none => .error .outOfBounds
  | some b => .ok b

/-- Write the next element: the cell is addressed before its value is read. -/
def writeRead (read : Bytes → ReadResult Value) (b : FilledBuffer Value) (input : Bytes) :
    Loop.Step UInt8 (FilledBuffer Value) Fault :=
  if b.used < b.size then
    match read input with
    | .error e => .fail b (.error e)
    | .ok (value, rest) =>
        match b.push value with
        | none => .fail b .outOfBounds
        | some b => .next b rest
  else .fail b .outOfBounds

/-- One pass over a packed payload of varints. -/
def hotPayloadPass (read : Bytes → ReadResult Value) (b : FilledBuffer Value) (payload : Bytes) :
    Loop.Step UInt8 (FilledBuffer Value) Fault :=
  if payload.isEmpty then .done b payload else writeRead read b payload

def hotVarints (read : Bytes → ReadResult Value) (b : FilledBuffer Value) (payload : Bytes) :
    Except Fault (FilledBuffer Value) :=
  match Loop.run (hotPayloadPass read) b payload with
  | (_, .error fault) => .error fault
  | (b, .ok _) => .ok b

/-- `writeKnownReuseRepeatedScalarPayload`. -/
def hotScalarPayload (scalar : ScalarType) (b : FilledBuffer Value) (payload : Bytes) :
    Except Fault (FilledBuffer Value) :=
  if scalar == .bool then writeAll b (payload.map (fun byte => .boolean (byte != 0)))
  else match fixedWidthPackedScalarSize scalar with
    | some width =>
        if payload.length % width ≠ 0 then .error (.error .invalidWireType)
        else
          let valueCount := payload.length / width
          if b.used + valueCount > b.size then .error (.error .invalidWireType)
          else writeAll b (fixedWidthValues scalar width valueCount payload)
    | none => hotVarints (readHotElement scalar) b payload

/-- The packed case of `writeKnownReuseRepeatedEnumCases`. -/
def hotEnumPayload (b : FilledBuffer Value) (payload : Bytes) :
    Except Fault (FilledBuffer Value) :=
  if packedEnumAllSingleByte payload then
    writeAll b (payload.map (fun byte => .enumeration (BitVec.ofNat 32 byte.toNat)))
  else hotVarints (fun input => (readInt32 input).map .enumeration) b payload

def hotPayload (field : FieldDescriptor) (b : FilledBuffer Value) (payload : Bytes) :
    Except Fault (FilledBuffer Value) :=
  match field.kind with
  | .scalar scalar => hotScalarPayload scalar b payload
  | .enumeration _ => hotEnumPayload b payload
  | _ => .error (.error .typeMismatch)

/-! ## The loop -/

/-- The cases that `writeDecodeKnownReuse` emits for a field: `some true` for a packed payload. -/
def hotCase (field : FieldDescriptor) (rawTag : Nat) : Option Bool :=
  match field.kind with
  | .scalar _ | .enumeration _ =>
      if field.cardinality == .repeated
          && rawTag == rawTagValue field.number .lengthDelimited then some true
      else if rawTag == rawFieldTag field.number field.kind then some false
      else none
  | _ => none

namespace HotState

def set (file : FileDescriptor) (self : HotState) (field : FieldDescriptor) (value : Value) :
    HotState :=
  { self with
    value := Function.update self.value field.number value
    has := if hasPresence file field then Function.update self.has field.number true
      else self.has }

def withBuffer (self : HotState) (field : FieldDescriptor) (b : FilledBuffer Value) : HotState :=
  { self with buffer := Function.update self.buffer field.number b }

end HotState

section

variable (file : FileDescriptor) (message : MessageDescriptor)

/-- One field of the input, behind its tag. -/
def hotField (self : HotState) (field : FieldDescriptor) (isPacked : Bool) (rest : Bytes) :
    Loop.Step UInt8 HotState Fault :=
  if isPacked then
    match readBytes rest with
    | .error e => .fail self (.error e)
    | .ok (payload, rest) =>
        match hotPayload field (self.buffer field.number) payload with
        | .error fault => .fail self fault
        | .ok b => .next (self.withBuffer field b) rest
  else if field.cardinality == .repeated then
    (writeRead (readOne file field) (self.buffer field.number) rest).map (self.withBuffer field)
  else match readHotOne file field rest with
    | .error e => .fail self (.error e)
    | .ok (value, rest) => .next (self.set file field value) rest

def hotPass (self : HotState) (input : Bytes) : Loop.Step UInt8 HotState Fault :=
  if input.isEmpty then .done self input
  else match readRawTag input with
    | .error e => .fail self (.error e)
    | .ok (rawTag, rest) =>
        match switchCase message hotCase rawTag with
        | none => .fail self (.error .invalidWireType)
        | some (field, isPacked) => hotField file self field isPacked rest

/-- The repeated fields hand over their buffers; the other members are set to their defaults. -/
def hotInit (fieldDefault : FieldDescriptor → Value) (self : EmittedStruct) : HotState :=
  { value := fun number =>
      match message.findFieldByNumber number with
      | some field =>
          if field.cardinality == .repeated then self.value number else fieldDefault field
      | none => self.value number
    has := fun number =>
      match message.findFieldByNumber number with
      | some field => if hasPresence file field then false else self.has number
      | none => self.has number
    buffer := fun number => .ofCells (self.items number) }

/-- The emitted `decodeKnownReuse` and the struct it leaves. -/
def decodeKnownReuse (fieldDefault : FieldDescriptor → Value) (self : EmittedStruct)
    (bytes : Bytes) : Except Fault EmittedStruct :=
  match Loop.run (hotPass file message) (hotInit file message fieldDefault self) bytes with
  | (_, .error fault) => .error fault
  | (hot, .ok _) =>
      let full (field : FieldDescriptor) : Bool :=
        (hot.buffer field.number).used == (hot.buffer field.number).size
      if message.fields.all (fun field => field.cardinality != .repeated || full field) then
        .ok
          { value := hot.value
            has := hot.has
            items := fun number => (hot.buffer number).cells
            unknownFields := [] }
      else .error (.error .invalidWireType)

end

/-! ## Writing payloads -/

theorem writeAll_of_fits {b : FilledBuffer Value} {values : List Value}
    (h : b.used + values.length ≤ b.size) :
    ∃ b', writeAll b values = .ok b' ∧ b'.contents = b.contents ++ values
      ∧ b'.used = b.used + values.length ∧ b'.size = b.size := by
  obtain ⟨b', hall, hspec⟩ := FilledBuffer.pushAll_of_fits h
  exact ⟨b', by rw [writeAll, hall], hspec⟩

theorem writeAll_of_overrun {b : FilledBuffer Value} {values : List Value}
    (h : b.size < b.used + values.length) : writeAll b values = .error .outOfBounds := by
  rw [writeAll, FilledBuffer.pushAll_of_overrun h]

theorem writeAll_cons {b b' : FilledBuffer Value} {value : Value} {values : List Value}
    (h : b.push value = some b') : writeAll b (value :: values) = writeAll b' values := by
  rw [writeAll, FilledBuffer.pushAll, h, writeAll]

section

variable {read : Bytes → ReadResult Value}

/-- How many values of a payload are begun: the last one may be malformed. -/
def startedValues (read : Bytes → ReadResult Value) (payload : Bytes) : Nat :=
  match Loop.run (packedPass read) [] payload with
  | (values, .ok _) => values.length
  | (values, .error _) => values.length + 1

theorem startedValues_eq {payload : Bytes} {values : List Value}
    (h : packedValues read payload = .ok values) :
    startedValues read payload = values.length := by
  unfold packedValues at h
  unfold startedValues
  cases hrun : Loop.run (packedPass read) [] payload with
  | mk found result =>
      rw [hrun] at h
      cases result with
      | error e => cases h
      | ok rest => cases h; rfl

theorem startedValues_pos {payload : Bytes} {e : Error}
    (h : packedValues read payload = .error e) : 0 < startedValues read payload := by
  unfold packedValues at h
  unfold startedValues
  cases hrun : Loop.run (packedPass read) [] payload with
  | mk found result =>
      rw [hrun] at h
      cases result with
      | error e => exact Nat.succ_pos _
      | ok rest => cases h

theorem startedValues_of_error {payload : Bytes} {e : Error} (h : read payload = .error e)
    (hne : payload ≠ []) : startedValues read payload = 1 := by
  have hpass : packedPass read [] payload = .fail [] e := by
    rw [packedPass, if_neg (by simpa using hne), h]
  rw [startedValues, Loop.run_of_fail hpass]
  rfl

theorem startedValues_of_ok (hc : Consumes read) {payload rest : Bytes} {value : Value}
    (h : read payload = .ok (value, rest)) (hne : payload ≠ []) :
    startedValues read payload = startedValues read rest + 1 := by
  have hpass : packedPass read [] payload = .next [value] rest := by
    rw [packedPass, if_neg (by simpa using hne), h]
    rfl
  rw [startedValues, Loop.run_of_next (packedPass_consuming hc) hpass, run_packedPass_append,
    startedValues]
  cases hrun : Loop.run (packedPass read) [] rest with
  | mk values result => cases result <;> simp

theorem hotPayloadPass_consuming (hc : Consumes read) : Loop.Consuming (hotPayloadPass read) := by
  intro b payload b' rest hpass
  unfold hotPayloadPass at hpass
  split at hpass
  · cases hpass
  · unfold writeRead at hpass
    split at hpass
    · cases hread : read payload with
      | error e => rw [hread] at hpass; cases hpass
      | ok pair =>
          rw [hread] at hpass
          simp only at hpass
          split at hpass
          · cases hpass
          · cases hpass
            exact hc _ _ _ hread
    · cases hpass

theorem hotVarints_nil (b : FilledBuffer Value) : hotVarints read b [] = .ok b := by
  have hpass : hotPayloadPass read b [] = .done b [] := rfl
  rw [hotVarints, Loop.run_of_done hpass]

theorem hotVarints_of_full {b : FilledBuffer Value} {payload : Bytes} (hne : payload ≠ [])
    (h : ¬ b.used < b.size) : hotVarints read b payload = .error .outOfBounds := by
  have hpass : hotPayloadPass read b payload = .fail b .outOfBounds := by
    rw [hotPayloadPass, if_neg (by simpa using hne), writeRead, if_neg h]
  rw [hotVarints, Loop.run_of_fail hpass]

theorem hotVarints_of_error {b : FilledBuffer Value} {payload : Bytes} {e : Error}
    (hne : payload ≠ []) (hroom : b.used < b.size) (h : read payload = .error e) :
    hotVarints read b payload = .error (.error e) := by
  have hpass : hotPayloadPass read b payload = .fail b (.error e) := by
    rw [hotPayloadPass, if_neg (by simpa using hne), writeRead, if_pos hroom, h]
  rw [hotVarints, Loop.run_of_fail hpass]

theorem hotVarints_of_ok (hc : Consumes read) {b b' : FilledBuffer Value} {payload rest : Bytes}
    {value : Value} (hne : payload ≠ []) (hroom : b.used < b.size)
    (h : read payload = .ok (value, rest)) (hpush : b.push value = some b') :
    hotVarints read b payload = hotVarints read b' rest := by
  have hpass : hotPayloadPass read b payload = .next b' rest := by
    rw [hotPayloadPass, if_neg (by simpa using hne), writeRead, if_pos hroom, h]
    simp only [hpush]
  rw [hotVarints, Loop.run_of_next (hotPayloadPass_consuming hc) hpass, hotVarints]

/-- The values of a well-formed payload are written one after the other. -/
theorem hotVarints_eq_writeAll (hc : Consumes read) {b : FilledBuffer Value} {payload : Bytes}
    {values : List Value} (h : packedValues read payload = .ok values) :
    hotVarints read b payload = writeAll b values := by
  refine packedValues_induction hc (P := fun payload values =>
    ∀ b, hotVarints read b payload = writeAll b values) ?_ ?_ h b
  · exact fun b => hotVarints_nil b
  · intro payload value rest values hne hread _ ih b
    by_cases hroom : b.used < b.size
    · obtain ⟨b', hpush, -⟩ := FilledBuffer.push_of_lt hroom value
      rw [hotVarints_of_ok hc hne hroom hread hpush, ih b', writeAll_cons hpush]
    · rw [hotVarints_of_full hne hroom, writeAll_of_overrun]
      rw [List.length_cons]
      omega

/-- A malformed payload ends with its error if there is room up to there. -/
theorem hotVarints_of_malformed (hc : Consumes read) {b : FilledBuffer Value} {payload : Bytes}
    {e : Error} (h : packedValues read payload = .error e) :
    (b.used + startedValues read payload ≤ b.size →
        hotVarints read b payload = .error (.error e))
      ∧ (b.size < b.used + startedValues read payload →
        hotVarints read b payload = .error .outOfBounds) := by
  induction hn : payload.length using Nat.strong_induction_on generalizing b payload with
  | _ n ih =>
      have hne : payload ≠ [] := by
        rintro rfl
        rw [packedValues_nil] at h
        cases h
      cases hread : read payload with
      | error e' =>
          rw [packedValues_of_error hread hne] at h
          cases h
          rw [startedValues_of_error hread hne]
          exact ⟨fun hroom => hotVarints_of_error hne (by omega) hread,
            fun hfull => hotVarints_of_full hne (by omega)⟩
      | ok pair =>
          obtain ⟨value, rest⟩ := pair
          have hlt := hc _ _ _ hread
          have hrest : packedValues read rest = .error e := by
            rw [packedValues_of_ok hc hread hne] at h
            cases hrest : packedValues read rest with
            | error e' => rw [hrest] at h; exact h
            | ok values => rw [hrest] at h; cases h
          rw [startedValues_of_ok hc hread hne]
          by_cases hroom : b.used < b.size
          · obtain ⟨b', hpush, -, hused, hsize⟩ := FilledBuffer.push_of_lt hroom value
            obtain ⟨hfits, hoverrun⟩ := ih rest.length (by omega) (b := b') hrest rfl
            rw [hotVarints_of_ok hc hne hroom hread hpush]
            exact ⟨fun _ => hfits (by omega), fun _ => hoverrun (by omega)⟩
          · exact ⟨fun _ => by omega, fun _ => hotVarints_of_full hne hroom⟩

end

/-! ## Payloads of the two decoders -/

theorem readHotElement_eq (scalar : ScalarType) :
    readHotElement scalar = decodeScalarLike (.scalar scalar) := by
  funext input
  cases scalar with
  | int32 => rw [readHotElement, readInt32At_eq, decodeScalarLike]
  | sint32 =>
      rw [readHotElement, readSInt32At_eq, decodeScalarLike]
      cases readVarint input <;> rfl
  | _ => rfl

theorem readHotOne_eq (file : FileDescriptor) (field : FieldDescriptor) (input : Bytes) :
    readHotOne file field input = readOne file field input := by
  unfold readHotOne readOne
  cases field.kind with
  | scalar scalar =>
      simp only
      cases scalar with
      | int32 =>
          rw [readHotScalar, readInt32At_eq]
          rfl
      | uint32 =>
          show (readUInt32At input).map _ = decodeScalarLike (.scalar .uint32) input
          rw [readUInt32At_eq, decodeScalarLike]
          cases readVarint input <;> rfl
      | sint32 =>
          show (readSInt32At input).map _ = decodeScalarLike (.scalar .sint32) input
          rw [readSInt32At_eq, decodeScalarLike]
          cases readVarint input <;> rfl
      | bool =>
          show (readBoolAt input).map _ = decodeScalarLike (.scalar .bool) input
          rw [readBoolAt_eq, decodeScalarLike]
          cases readVarint input <;> rfl
      | _ => rfl
  | enumeration name => simp only [readInt32At_eq]
  | _ => rfl

/-- The values of an enum in a packed payload. -/
def readEnumElement (input : Bytes) : ReadResult Value := (readInt32 input).map .enumeration

theorem readEnumElement_varint (input : Bytes) (value : Value) (rest : Bytes)
    (h : readEnumElement input = .ok (value, rest)) : ∃ raw, readVarint input = .ok (raw, rest) := by
  obtain ⟨_, hread, -⟩ := readResult_map_ok h
  obtain ⟨raw, hraw, -⟩ := readResult_map_ok hread
  exact ⟨raw, hraw⟩

theorem readEnumElement_consumes : Consumes readEnumElement := by
  intro input value rest h
  obtain ⟨raw, hraw⟩ := readEnumElement_varint _ _ _ h
  exact readVarint_consumes _ _ _ hraw

theorem hotEnumPayload_eq (b : FilledBuffer Value) (payload : Bytes) :
    hotEnumPayload b payload = hotVarints readEnumElement b payload := by
  unfold hotEnumPayload
  split
  · next hall =>
    refine (hotVarints_eq_writeAll readEnumElement_consumes
      (packedValues_of_allSingleByte readEnumElement_consumes ?_ hall)).symm
    intro byte rest hbyte
    rw [readEnumElement, readInt32, readVarint_singleByte hbyte]
    rfl
  · rfl

/-- What the hot path counts for a packed payload that `decode` reads as `values`. -/
def hotCount (field : FieldDescriptor) (payload : Bytes) (values : List Value) : Nat :=
  if field.kind = .scalar .bool then payload.length else values.length

/-- The packed payload of a fixed-width scalar is checked before it is written. -/
def IsFixedWidth (field : FieldDescriptor) : Prop :=
  ∃ scalar width, field.kind = .scalar scalar ∧ fixedWidthPackedScalarSize scalar = some width

theorem fixedWidthValues_length (scalar : ScalarType) (width count : Nat) (payload : Bytes) :
    (fixedWidthValues scalar width count payload).length = count := by
  induction count generalizing payload with
  | zero => rfl
  | succ count ih => rw [fixedWidthValues, List.length_cons, ih]

theorem packedBool_length {payload : Bytes} {values : List Value}
    (h : packedScalarAppend .bool payload = .ok values) :
    values.length = payload.countP endsVarint := by
  rw [packedScalarAppend_varint rfl] at h
  refine packedValues_length (decodeScalarLike_consumes _) ?_ h
  intro input value rest hread
  obtain ⟨raw, hraw, -⟩ := readResult_map_ok hread
  exact ⟨raw, hraw⟩

/-- The bytes of a `bool` payload are its values where there are as many of them. -/
theorem packedBool_eq_map {payload : Bytes} {values : List Value}
    (h : packedScalarAppend .bool payload = .ok values) (hlength : payload.length = values.length) :
    values = payload.map (fun byte => .boolean (byte != 0)) := by
  rw [packedBool_length h] at hlength
  have hall : packedVarintPayloadAllSingleByte payload = true :=
    List.all_eq_true.mpr (List.countP_eq_length.mp hlength.symm)
  have happend : packedScalarAppend .bool payload = appendPackedBool payload := rfl
  rw [happend, appendPackedBool, if_pos hall] at h
  cases h
  rfl

/-- The hot path on a packed payload that `decode` takes. -/
theorem hotPayload_spec {field : FieldDescriptor} {b : FilledBuffer Value} {payload : Bytes}
    {values : List Value} (h : packedAppend field payload = .ok values) :
    (b.used + hotCount field payload values ≤ b.size →
        ∃ b', hotPayload field b payload = .ok b' ∧
          b'.used = b.used + hotCount field payload values ∧ b'.size = b.size ∧
          (hotCount field payload values = values.length → b'.contents = b.contents ++ values))
      ∧ (b.size < b.used + hotCount field payload values → ¬ IsFixedWidth field →
        hotPayload field b payload = .error .outOfBounds) := by
  -- all but the payload of a `bool` are written as they are read
  have hwrite : ∀ written : Except Fault (FilledBuffer Value),
      hotCount field payload values = values.length → written = writeAll b values →
      (b.used + hotCount field payload values ≤ b.size →
        ∃ b', written = .ok b' ∧ b'.used = b.used + hotCount field payload values ∧
          b'.size = b.size ∧
          (hotCount field payload values = values.length → b'.contents = b.contents ++ values))
      ∧ (b.size < b.used + hotCount field payload values → ¬ IsFixedWidth field →
        written = .error .outOfBounds) := by
    rintro written hcount rfl
    rw [hcount]
    refine ⟨fun hfits => ?_, fun hoverrun _ => writeAll_of_overrun hoverrun⟩
    obtain ⟨b', hall, hcontents, hused, hsize⟩ := writeAll_of_fits hfits
    exact ⟨b', hall, hused, hsize, fun _ => hcontents⟩
  unfold packedAppend at h
  unfold hotPayload
  cases hkind : field.kind with
  | enumeration name =>
      rw [hkind] at h
      simp only at h ⊢
      rw [appendPackedInt32_eq] at h
      refine hwrite _ (by rw [hotCount, hkind, if_neg (by simp)]) ?_
      rw [hotEnumPayload_eq, hotVarints_eq_writeAll readEnumElement_consumes h]
  | scalar scalar =>
      rw [hkind] at h
      simp only at h ⊢
      unfold hotScalarPayload
      by_cases hbool : scalar = .bool
      · subst hbool
        have hcount : hotCount field payload values = payload.length := by
          rw [hotCount, hkind, if_pos rfl]
        rw [if_pos (by decide), hcount]
        have hlength : (payload.map (fun byte => Value.boolean (byte != 0))).length
            = payload.length := List.length_map _
        refine ⟨fun hfits => ?_, fun hoverrun _ => writeAll_of_overrun (by rw [hlength]; exact hoverrun)⟩
        obtain ⟨b', hall, hcontents, hused, hsize⟩ :=
          writeAll_of_fits (by rw [hlength]; exact hfits)
        refine ⟨b', hall, by rw [hused, hlength], hsize, fun hsame => ?_⟩
        rw [hcontents, ← packedBool_eq_map h hsame]
      · have hcount : hotCount field payload values = values.length := by
          rw [hotCount, hkind, if_neg (by simpa using hbool)]
        rw [if_neg (by simpa using hbool)]
        cases hwidth : fixedWidthPackedScalarSize scalar with
        | none =>
            rw [packedScalarAppend_varint hwidth] at h
            refine hwrite _ hcount ?_
            rw [readHotElement_eq, hotVarints_eq_writeAll (decodeScalarLike_consumes _) h]
        | some width =>
            rw [packedScalarAppend_fixedWidth hwidth, appendPackedFixedWidth] at h
            simp only
            split at h
            · cases h
            · next haligned =>
              cases h
              rw [if_neg haligned, hcount, fixedWidthValues_length]
              refine ⟨fun hfits => ?_, fun _ hnot => absurd ⟨scalar, width, hkind, hwidth⟩ hnot⟩
              have hroom : b.used
                  + (fixedWidthValues scalar width (payload.length / width) payload).length
                    ≤ b.size := by
                rw [fixedWidthValues_length]
                exact hfits
              rw [if_neg (by omega)]
              obtain ⟨b', hall, hcontents, hused, hsize⟩ := writeAll_of_fits hroom
              rw [fixedWidthValues_length] at hused
              exact ⟨b', hall, hused, hsize, fun _ => hcontents⟩
  | _ => rw [hkind] at h; cases h

end Codegen

end Pbz
