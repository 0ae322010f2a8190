import Pbz.Dynamic.FieldRoundTrip
import Pbz.Wire.RawFields

set_option autoImplicit false

/-! # The readers of emitted code

The readers of `wire.zig` that emitted decoders call beside those of `Reader`. The ones that end
in `At` read short varints on the spot and leave longer ones to the common reader; all of them read
what the common readers read.
-/

namespace Pbz

/-! ## Short varints -/

/-- At most `n` bytes are read on the spot; `none` stands for a longer varint. What is read is cut
to the width of the caller, so that the mask `0x0f` on the fifth byte of `readUInt32At` is the
mask of the other bytes here. -/
def shortLadder : Nat → Nat → Nat → Bytes → Except Error (Option (Nat × Bytes))
  | 0, _, _, _ => .ok none
  | _ + 1, _, _, [] => .error .truncatedInput
  | n + 1, shift, acc, byte :: rest =>
      if byte.toNat < 0x80 then .ok (some (acc + byte.toNat % 0x80 * 2 ^ shift, rest))
      else shortLadder n (shift + 7) (acc + byte.toNat % 0x80 * 2 ^ shift) rest

/-- A varint of which at most `n` bytes are read on the spot. -/
def readShortVarint (n : Nat) (input : Bytes) : ReadResult Nat :=
  match shortLadder n 0 0 input with
  | .error e => .error e
  | .ok (some read) => .ok read
  | .ok none => readVarint input

def readBoolAt (input : Bytes) : ReadResult Bool :=
  (readShortVarint 1 input).map (fun raw => raw != 0)

def readUInt32At (input : Bytes) : ReadResult (BitVec 32) :=
  (readShortVarint 5 input).map (BitVec.ofNat 32)

def readInt32At (input : Bytes) : ReadResult (BitVec 32) :=
  (readShortVarint 2 input).map (BitVec.ofNat 32)

def readSInt32At (input : Bytes) : ReadResult (BitVec 32) :=
  (readShortVarint 2 input).map (fun raw => zigZagDecode32 (BitVec.ofNat 32 raw))

/-- The first rungs of the two ladders are the same. -/
theorem shortLadder_eq {n m : Nat} (h : n ≤ m) (shift acc : Nat) (input : Bytes) :
    (shortLadder n shift acc input = .ok none) ∨
      shortLadder n shift acc input = Except.map some (readLadder m shift acc input) := by
  induction n generalizing m shift acc input with
  | zero => exact .inl rfl
  | succ n ih =>
      obtain ⟨m, rfl⟩ : ∃ k, m = k + 1 := ⟨m - 1, by omega⟩
      cases input with
      | nil => exact .inr rfl
      | cons byte rest =>
          rw [shortLadder, readLadder]
          split
          · exact .inr rfl
          · exact ih (by omega) _ _ rest

theorem readShortVarint_eq {n : Nat} (h : n ≤ 9) (input : Bytes) :
    readShortVarint n input = readVarint input := by
  rw [readShortVarint]
  rcases shortLadder_eq h 0 0 input with hlong | hshort
  · rw [hlong]
  · rw [hshort, readVarint]
    cases readLadder 9 0 0 input <;> rfl

theorem readBoolAt_eq (input : Bytes) :
    readBoolAt input = (readVarint input).map (fun raw => raw != 0) := by
  rw [readBoolAt, readShortVarint_eq (by decide)]

theorem readUInt32At_eq (input : Bytes) :
    readUInt32At input = (readVarint input).map (BitVec.ofNat 32) := by
  rw [readUInt32At, readShortVarint_eq (by decide)]

theorem readInt32At_eq (input : Bytes) : readInt32At input = readInt32 input := by
  rw [readInt32At, readShortVarint_eq (by decide), readInt32]

theorem readSInt32At_eq (input : Bytes) :
    readSInt32At input
      = (readVarint input).map (fun raw => zigZagDecode32 (BitVec.ofNat 32 raw)) := by
  rw [readSInt32At, readShortVarint_eq (by decide)]

/-! ## Tags -/

/-- `rawTagValue`: the number that a tag is written as. -/
def rawTagValue (number : Nat) (wireType : WireType) : Nat := number * 8 + wireType.toNat

def rawFieldTag (number : Nat) (kind : FieldKind) : Nat := rawTagValue number kind.wireType

/-- The tag in front of a loop that dispatches on raw tags; it is not decoded. -/
def readRawTag (input : Bytes) : ReadResult Nat :=
  match input with
  | [] => .error .truncatedInput
  | first :: rest => if first.toNat < 0x80 then .ok (first.toNat, rest) else readVarint input

theorem readRawTag_eq (input : Bytes) : readRawTag input = readVarint input := by
  cases input with
  | nil => rfl
  | cons first rest =>
      rw [readRawTag]
      split
      · next h => rw [readVarint, readLadder, if_pos h, Nat.mod_eq_of_lt h]; simp
      · rfl

theorem rawTagValue_div (number : Nat) (wireType : WireType) :
    rawTagValue number wireType / 8 = number := by
  have h : wireType.toNat < 8 := by cases wireType <;> decide
  rw [rawTagValue]
  omega

theorem rawTagValue_mod (number : Nat) (wireType : WireType) :
    rawTagValue number wireType % 8 = wireType.toNat := by
  have h : wireType.toNat < 8 := by cases wireType <;> decide
  rw [rawTagValue]
  omega

theorem rawTagValue_injective {a b : Nat} {s t : WireType}
    (h : rawTagValue a s = rawTagValue b t) : a = b ∧ s = t := by
  have hdiv := congrArg (· / 8) h
  have hmod := congrArg (· % 8) h
  simp only [rawTagValue_div, rawTagValue_mod] at hdiv hmod
  exact ⟨hdiv, toNat_injective hmod⟩

/-- A raw tag that decodes does to the number and the wire type it is made of. -/
theorem decode_rawTagValue {number : Nat} {wireType : WireType} {tag : Tag}
    (h : Tag.decode (rawTagValue number wireType) = .ok tag) :
    tag = { number, wireType } := by
  unfold Tag.decode at h
  simp only [rawTagValue_div, rawTagValue_mod] at h
  split at h
  · cases h
  · cases wireType <;> simpa [WireType.toNat, WireType.fromInt] using h.symm

/-! ## Packed payloads -/

/-- The values that are read one after the other up to the end of a payload. -/
def packedValues (read : Bytes → ReadResult Value) (payload : Bytes) : Except Error (List Value) :=
  match Loop.run (packedPass read) [] payload with
  | (_, .error e) => .error e
  | (values, .ok _) => .ok values

/-- Its vector path decides the same. -/
def packedVarintPayloadAllSingleByte (payload : Bytes) : Bool :=
  payload.all (fun byte => byte.toNat < 0x80)

def packedEnumAllSingleByte (payload : Bytes) : Bool := packedVarintPayloadAllSingleByte payload

/-- The values that `appendPackedInt32` appends, with the constructor they get in the list. -/
def appendPackedInt32 (make : BitVec 32 → Value) (payload : Bytes) : Except Error (List Value) :=
  packedValues (fun input => (readInt32At input).map make) payload

def appendPackedBool (payload : Bytes) : Except Error (List Value) :=
  if packedVarintPayloadAllSingleByte payload then
    .ok (payload.map (fun byte => .boolean (byte != 0)))
  else packedValues (decodeScalarLike (.scalar .bool)) payload

def appendPackedFixedWidth (scalar : ScalarType) (width : Nat) (payload : Bytes) :
    Except Error (List Value) :=
  if payload.length % width ≠ 0 then .error .invalidWireType
  else .ok (fixedWidthValues scalar width (payload.length / width) payload)

/-- What the helper that `packedScalarAppendHelperName` names appends. How much capacity it
reserves first is not part of the model. -/
def packedScalarAppend (scalar : ScalarType) (payload : Bytes) : Except Error (List Value) :=
  match scalar with
  | .int32 => appendPackedInt32 .int32 payload
  | .bool => appendPackedBool payload
  | _ =>
      match fixedWidthPackedScalarSize scalar with
      | some width => appendPackedFixedWidth scalar width payload
      | none => packedValues (decodeScalarLike (.scalar scalar)) payload

/-- The byte is the last one of a varint. -/
def endsVarint (byte : UInt8) : Bool := byte.toNat < 0x80

theorem readLadder_countP {n shift acc : Nat} {input rest : Bytes} {v : Nat}
    (h : readLadder n shift acc input = .ok (v, rest)) :
    input.countP endsVarint = rest.countP endsVarint + 1 := by
  induction n generalizing shift acc input with
  | zero =>
      cases input with
      | nil => cases h
      | cons byte input =>
          rw [readLadder] at h
          split at h
          · next hend =>
            split at h
            · cases h
            · cases h
              rw [List.countP_cons_of_pos (by simpa [endsVarint] using hend)]
          · cases h
  | succ n ih =>
      cases input with
      | nil => cases h
      | cons byte input =>
          rw [readLadder] at h
          split at h
          · next hend =>
            cases h
            rw [List.countP_cons_of_pos (by simpa [endsVarint] using hend)]
          · next hend =>
            rw [List.countP_cons_of_neg (by simpa [endsVarint] using hend)]
            exact ih h

section

variable {read : Bytes → ReadResult Value}

theorem run_packedPass_append (values : List Value) (payload : Bytes) :
    Loop.run (packedPass read) values payload
      = (values ++ (Loop.run (packedPass read) [] payload).1,
          (Loop.run (packedPass read) [] payload).2) := by
  have hpass : ∀ found xs, packedPass read (values ++ found) xs
      = (packedPass read found xs).map (fun read => values ++ read) := by
    intro found xs
    rw [packedPass, packedPass]
    split
    · rfl
    · cases read xs <;> simp [Loop.Step.map]
  have hmap := Loop.run_map (fun read => values ++ read) hpass [] payload
  simpa using hmap

@[simp] theorem packedValues_nil : packedValues read [] = .ok [] := by
  have hpass : packedPass read [] [] = .done [] [] := rfl
  rw [packedValues, Loop.run_of_done hpass]

theorem packedValues_of_error {payload : Bytes} {e : Error} (h : read payload = .error e)
    (hne : payload ≠ []) : packedValues read payload = .error e := by
  have hpass : packedPass read [] payload = .fail [] e := by
    rw [packedPass, if_neg (by simpa using hne), h]
  rw [packedValues, Loop.run_of_fail hpass]

theorem packedValues_of_ok (hc : Consumes read) {payload rest : Bytes} {value : Value}
    (h : read payload = .ok (value, rest)) (hne : payload ≠ []) :
    packedValues read payload = (packedValues read rest).map (fun values => value :: values) := by
  have hpass : packedPass read [] payload = .next [value] rest := by
    rw [packedPass, if_neg (by simpa using hne), h]
    rfl
  rw [packedValues, Loop.run_of_next (packedPass_consuming hc) hpass, run_packedPass_append,
    packedValues]
  cases hrun : Loop.run (packedPass read) [] rest with
  | mk values result => cases result <;> rfl

/-- Induction along the values of a payload that is read to its end. -/
theorem packedValues_induction (hc : Consumes read) {P : Bytes → List Value → Prop}
    (nil : P [] [])
    (cons : ∀ payload value rest values, payload ≠ [] → read payload = .ok (value, rest) →
      packedValues read rest = .ok values → P rest values → P payload (value :: values))
    {payload : Bytes} {values : List Value} (h : packedValues read payload = .ok values) :
    P payload values := by
  induction hn : payload.length using Nat.strong_induction_on generalizing payload values with
  | _ n ih =>
      by_cases hne : payload = []
      · subst hne
        rw [packedValues_nil] at h
        cases h
        exact nil
      · cases hread : read payload with
        | error e => rw [packedValues_of_error hread hne] at h; cases h
        | ok pair =>
            obtain ⟨value, rest⟩ := pair
            rw [packedValues_of_ok hc hread hne] at h
            cases hrest : packedValues read rest with
            | error e => rw [hrest] at h; cases h
            | ok found =>
                rw [hrest] at h
                cases h
                have hlt := hc _ _ _ hread
                exact cons payload value rest found hne hread hrest
                  (ih rest.length (by omega) hrest rfl)

/-- A payload of varints holds as many values as it has last bytes. -/
theorem packedValues_length (hc : Consumes read)
    (hvarint : ∀ input value rest, read input = .ok (value, rest) →
      ∃ raw, readVarint input = .ok (raw, rest))
    {payload : Bytes} {values : List Value} (h : packedValues read payload = .ok values) :
    values.length = payload.countP endsVarint := by
  refine packedValues_induction hc (P := fun payload values =>
    values.length = payload.countP endsVarint) rfl ?_ h
  intro payload value rest values _ hread _ ih
  obtain ⟨raw, hraw⟩ := hvarint _ _ _ hread
  rw [List.length_cons, ih, readLadder_countP hraw]

/-- Where every byte is a varint, each is read on its own. -/
theorem packedValues_of_allSingleByte (hc : Consumes read) {make : UInt8 → Value}
    (hmake : ∀ byte rest, byte.toNat < 0x80 → read (byte :: rest) = .ok (make byte, rest))
    {payload : Bytes} (h : packedVarintPayloadAllSingleByte payload = true) :
    packedValues read payload = .ok (payload.map make) := by
  induction payload with
  | nil => exact packedValues_nil
  | cons byte rest ih =>
      obtain ⟨hbyte, hrest⟩ : byte.toNat < 0x80 ∧ packedVarintPayloadAllSingleByte rest = true := by
        simpa [packedVarintPayloadAllSingleByte] using h
      rw [packedValues_of_ok hc (hmake byte rest hbyte) (by simp), ih hrest]
      rfl

end

theorem readVarint_singleByte {byte : UInt8} (h : byte.toNat < 0x80) (rest : Bytes) :
    readVarint (byte :: rest) = .ok (byte.toNat, rest) := by
  rw [← readRawTag_eq, readRawTag, if_pos h]

theorem appendPackedBool_eq (payload : Bytes) :
    appendPackedBool payload = packedValues (decodeScalarLike (.scalar .bool)) payload := by
  rw [appendPackedBool]
  split
  · next hall =>
    refine (packedValues_of_allSingleByte (decodeScalarLike_consumes _) ?_ hall).symm
    intro byte rest hbyte
    have hzero : (byte.toNat != 0) = (byte != 0) := by
      rw [Bool.eq_iff_iff, bne_iff_ne, bne_iff_ne, ne_eq, ne_eq, ← UInt8.toNat_inj]
      rfl
    rw [decodeScalarLike, readVarint_singleByte hbyte, ReadResult.map, hzero]
  · rfl

theorem appendPackedInt32_eq (make : BitVec 32 → Value) :
    appendPackedInt32 make = packedValues (fun input => (readInt32 input).map make) := by
  funext payload
  simp only [appendPackedInt32, readInt32At_eq]

/-- The scalars without a fixed width are appended as they are read one by one. -/
theorem packedScalarAppend_varint {scalar : ScalarType}
    (h : fixedWidthPackedScalarSize scalar = none) (payload : Bytes) :
    packedScalarAppend scalar payload = packedValues (decodeScalarLike (.scalar scalar)) payload := by
  cases scalar with
  | int32 => exact congrFun (appendPackedInt32_eq .int32) payload
  | bool => exact appendPackedBool_eq payload
  | int64 | uint32 | uint64 | sint32 | sint64 | string | bytes => rfl
  | _ => cases h

theorem packedScalarAppend_fixedWidth {scalar : ScalarType} {width : Nat}
    (h : fixedWidthPackedScalarSize scalar = some width) (payload : Bytes) :
    packedScalarAppend scalar payload = appendPackedFixedWidth scalar width payload := by
  cases scalar with
  | double | float | fixed32 | fixed64 | sfixed32 | sfixed64 => cases h; rfl
  | _ => cases h

end Pbz
