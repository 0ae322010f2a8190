import Pbz.Codegen.CapacityEncode

set_option autoImplicit false

/-! # Direct encoding

`encodeIntoAssumeCapacity` writes straight into the cells. Each command moves the index behind what
counts for it in `encodedSize`, also where the elements of a packed field are written behind more
cells than their length takes. A tag less than 256 is written as one byte, though, which is one byte
too few for the field numbers from 16 to 31.
-/

namespace Pbz

namespace Codegen

/-- A part of a direct encoder moves the index by this number of cells. -/
abbrev AdvancesDirectly (write : FilledBuffer UInt8 → Except EncodeFault (FilledBuffer UInt8))
    (n : Nat) : Prop :=
  FilledBuffer.Advances write n

/-! ## Scalars and tags -/

theorem copySlice_advances (data : Bytes) : AdvancesDirectly (copySlice data) data.length :=
  FilledBuffer.Advances.pushAllOr EncodeFault.outOfBounds data

theorem toSlice_advances {write : FilledBuffer UInt8 → Option (FilledBuffer UInt8)} {bytes : Bytes}
    (h : Wire.Emits write bytes) : AdvancesDirectly (toSlice write) bytes.length := by
  refine (FilledBuffer.Advances.pushAllOr .outOfBounds bytes).congr (fun b => ?_)
  rw [toSlice, h, FilledBuffer.pushAllOr]
  cases b.pushAll bytes with
  | none => rfl
  | some b => rfl

theorem varint_advances {n : Nat} (h : n < 2 ^ 64) :
    AdvancesDirectly (toSlice (Wire.writeVarintToSlice (BitVec.ofNat 64 n)))
      (encodedVarintSize n) := by
  have hadvances := toSlice_advances (Wire.writeVarintToSlice_emits (BitVec.ofNat 64 n))
  rw [BitVec.toNat_ofNat, Nat.mod_eq_of_lt h, writeVarint_length h] at hadvances
  exact hadvances

/-- A narrow tag loses one of its two bytes. -/
theorem used_of_directTag {number : Nat} {wt : WireType} (hnumber : ValidNumber number)
    {b b' : FilledBuffer UInt8} (h : directTag number wt b = .ok b') :
    b'.used + (isNarrowTag number).toNat = b.used + tagWidth number wt := by
  have hless : wt.toNat < 8 := by cases wt <;> decide
  have hraw : rawTagValue number wt = number * 8 + wt.toNat := rfl
  have htag : rawTagValue number wt < 2 ^ 32 := tag_lt hnumber wt
  rw [directTag] at h
  split at h
  · next hbyte =>
    have hused := copySlice_advances [UInt8.ofNat (rawTagValue number wt)] h
    rw [List.length_singleton] at hused
    cases hnarrow : isNarrowTag number with
    | false =>
        simp only [isNarrowTag, Bool.and_eq_false_iff, decide_eq_false_iff_not] at hnarrow
        have hwidth : tagWidth number wt = 1 := by
          rw [tagWidth, encodedVarintSize, if_pos (by omega)]
        rw [hused, hwidth]
        rfl
    | true =>
        simp only [isNarrowTag, Bool.and_eq_true, decide_eq_true_eq] at hnarrow
        have hwidth : tagWidth number wt = 2 := by
          rw [tagWidth, encodedVarintSize, if_neg (by omega), if_pos (by omega)]
        rw [hused, hwidth]
        rfl
  · next hbyte =>
    have hnarrow : isNarrowTag number = false := by
      rw [isNarrowTag, Bool.and_eq_false_iff, decide_eq_false_iff_not, decide_eq_false_iff_not]
      omega
    rw [varint_advances (show rawTagValue number wt < 2 ^ 64 by omega) h, hnarrow]
    rfl

theorem directLengthDelimited_advances {data : Bytes} (h : data.length < 2 ^ 64) :
    AdvancesDirectly (directLengthDelimited data) (encodedVarintSize data.length + data.length) :=
  (varint_advances h).andThen (copySlice_advances data)

/-- The direct encoder writes as many bytes as the plain one. -/
theorem directPayload_advances {kind : FieldKind} {value : Value} {data : Bytes}
    (h : encodeScalarPayload kind value = .ok data) (hsize : payloadSize kind value < 2 ^ 64) :
    AdvancesDirectly (directPayload kind value) data.length := by
  unfold encodeScalarPayload at h
  split at h
  all_goals cases h
  -- Fixed widths, varints and enums, whose bytes are the same on both sides.
  all_goals first
    | exact copySlice_advances _
    | exact toSlice_advances (Wire.writeDirectScalarVarintToSlice_emits _)
    | exact toSlice_advances (Wire.writeVarintToSlice_emits _)
    | skip
  · next v =>
    cases v
    · exact copySlice_advances _
    · exact copySlice_advances _
  all_goals
    next data =>
    simp only [payloadSize, scalarPayloadSize] at hsize
    have hlength : data.length < 2 ^ 64 := by omega
    rw [lengthPrefixed, List.length_append, writeVarint_length hlength]
    exact directLengthDelimited_advances hlength

/-! ## Packed fields -/

/-- Elements of packed fields have varint writers of their own. -/
theorem directPackedElement_advances {kind : FieldKind} {value : Value} {data : Bytes}
    (h : encodeScalarPayload kind value = .ok data) (hsize : payloadSize kind value < 2 ^ 64) :
    AdvancesDirectly (directPackedElement kind value) data.length := by
  have hwiden : ∀ v : BitVec 32, v.toNat = (v.setWidth 64).toNat := fun v => by
    rw [BitVec.toNat_setWidth, Nat.mod_eq_of_lt (by omega)]
  unfold directPackedElement
  split
  · cases h
    exact toSlice_advances (Wire.writeVarintToSlice_emits _)
  · cases h
    split
    · next hneg => exact toSlice_advances (Wire.writeNegativeInt64VarintToSlice_emits hneg)
    · exact toSlice_advances (Wire.writeVarintToSlice_emits _)
  · cases h
    exact toSlice_advances (Wire.writeUInt32VarintToSlice_emits _)
  · cases h
    exact toSlice_advances (Wire.writeVarintToSlice_emits _)
  · next v =>
    cases h
    rw [hwiden (zigZagEncode32 v)]
    exact toSlice_advances (Wire.writeVarintToSlice_emits _)
  · cases h
    exact toSlice_advances (Wire.writeVarintToSlice_emits _)
  · exact directPayload_advances h hsize

theorem directPackedElements_advances {kind : FieldKind} :
    ∀ {values : List Value} {data : Bytes},
      encodePayloads (encodeScalarPayload kind) values = .ok data →
        (values.map (payloadSize kind)).sum < 2 ^ 64 →
          AdvancesDirectly (FilledBuffer.forEach (directPackedElement kind) values) data.length
  | [], data, h, _ => by
      cases h
      exact .none_written
  | value :: values, data, h, hsize => by
      rw [List.map_cons, List.sum_cons] at hsize
      obtain ⟨first, hfirst, h⟩ := Check.of_bind_eq_ok h
      obtain ⟨others, hothers, h⟩ := Check.of_bind_eq_ok h
      cases h
      rw [List.length_append]
      exact (directPackedElement_advances hfirst (by omega)).andThen
        (directPackedElements_advances hothers (by omega))

/-- What the direct encoder does behind the tag of a packed field. -/
def directPackedBody (kind : FieldKind) (values : List Value) :
    FilledBuffer UInt8 → Except EncodeFault (FilledBuffer UInt8) :=
  match fixedPackedWidth kind with
  | some width => fun b =>
      toSlice (Wire.writeVarintToSlice (BitVec.ofNat 64 (values.length * width))) b
        >>= FilledBuffer.forEach (directPackedElement kind) values
  | none =>
      FilledBuffer.lengthFirst .outOfBounds (reservedWidth kind values) encodedVarintSize
        (fun length => toSlice (Wire.writeVarintToSlice (BitVec.ofNat 64 length)))
        (FilledBuffer.forEach (directPackedElement kind) values)

theorem directPacked_eq (number : Nat) (kind : FieldKind) (values : List Value)
    (b : FilledBuffer UInt8) :
    directPacked number kind values b
      = directTag number .lengthDelimited b >>= directPackedBody kind values := by
  rw [directPacked, directPackedBody]
  cases fixedPackedWidth kind with
  | none => rfl
  | some width => rfl

theorem directPackedBody_advances {kind : FieldKind} {values : List Value} {payloads : Bytes}
    (hlength : packedLength kind values < 2 ^ 64)
    (h : encodePayloads (encodeScalarPayload kind) values = .ok payloads) :
    AdvancesDirectly (directPackedBody kind values)
      (encodedVarintSize (packedLength kind values) + packedLength kind values) := by
  have hsum := packedLength_eq kind values
  have hwritten := length_encodePayloads h (by rw [← hsum]; exact hlength)
  rw [← hsum] at hwritten
  have helements := directPackedElements_advances h (by rw [← hsum]; exact hlength)
  rw [hwritten] at helements
  rw [directPackedBody]
  cases hfixed : fixedPackedWidth kind with
  | some width =>
      have hpacked : packedLength kind values = values.length * width := by
        rw [packedLength, hfixed]
      rw [hpacked] at hlength helements ⊢
      exact (varint_advances hlength).andThen helements
  | none => exact helements.lengthFirst

/-- The direct encoder refuses the values that the plain one does. -/
theorem exists_of_directPayload {kind : FieldKind} {value : Value} {b b' : FilledBuffer UInt8}
    (h : directPayload kind value b = .ok b') :
    ∃ data, encodeScalarPayload kind value = .ok data := by
  unfold directPayload at h
  split at h
  all_goals first
    | exact ⟨_, rfl⟩
    | cases h

theorem exists_of_directPackedElement {kind : FieldKind} {value : Value} {b b' : FilledBuffer UInt8}
    (h : directPackedElement kind value b = .ok b') :
    ∃ data, encodeScalarPayload kind value = .ok data := by
  unfold directPackedElement at h
  split at h
  all_goals first
    | exact ⟨_, rfl⟩
    | exact exists_of_directPayload h

theorem exists_of_directPackedElements {kind : FieldKind} :
    ∀ {values : List Value} {b b' : FilledBuffer UInt8},
      FilledBuffer.forEach (directPackedElement kind) values b = .ok b' →
        ∃ payloads, encodePayloads (encodeScalarPayload kind) values = .ok payloads
  | [], _, _, _ => ⟨[], rfl⟩
  | value :: values, b, b', h => by
      obtain ⟨b₁, hfirst, h⟩ := Check.of_bind_eq_ok h
      obtain ⟨first, hfirst⟩ := exists_of_directPackedElement hfirst
      obtain ⟨others, hothers⟩ := exists_of_directPackedElements h
      exact ⟨first ++ others, by rw [encodePayloads, hfirst, hothers]; rfl⟩

theorem exists_of_directPackedBody {kind : FieldKind} {values : List Value}
    {b b' : FilledBuffer UInt8} (h : directPackedBody kind values b = .ok b') :
    ∃ payloads, encodePayloads (encodeScalarPayload kind) values = .ok payloads := by
  cases hfixed : fixedPackedWidth kind with
  | some width =>
      rw [directPackedBody, hfixed] at h
      obtain ⟨b₁, -, h⟩ := Check.of_bind_eq_ok h
      exact exists_of_directPackedElements h
  | none =>
      rw [directPackedBody, hfixed] at h
      obtain ⟨b₁, -, h⟩ := Check.of_bind_eq_ok h
      obtain ⟨b₂, helements, -⟩ := Check.of_bind_eq_ok h
      exact exists_of_directPackedElements helements

/-! ## Commands -/

/-- A command moves the index behind what counts for it, but for the bytes of narrow tags. -/
theorem used_of_commandDirect {command : Command EncodeMethods} {command' : Command EncodeSpec}
    (h : Command.Related EncodeMethods.HasSize command command')
    (hrange : commandInRange command' = true) (hprefixed : commandPrefixed command' = true)
    {validate : Bool} {b b' : FilledBuffer UInt8}
    (hwrite : commandDirect validate command b = .ok b') :
    b'.used + commandNarrowTags command' = b.used + commandSize EncodeSpec.size command' := by
  cases h with
  | check valid =>
      rw [commandDirect] at hwrite
      split at hwrite
      · cases hwrite
      · cases hwrite
        rfl
  | tag number wt => exact used_of_directTag (of_decide_eq_true hrange) hwrite
  | varint value =>
      exact varint_advances (of_decide_eq_true hrange) hwrite
  | slice bytes => exact copySlice_advances bytes hwrite
  | payload kind value =>
      obtain ⟨data, hdata⟩ := exists_of_directPayload hwrite
      have hused := directPayload_advances hdata (of_decide_eq_true hrange) hwrite
      rw [length_encodeScalarPayload hdata (of_decide_eq_true hrange)] at hused
      exact hused
  | packed number kind hkind values =>
      simp only [commandInRange, Bool.and_eq_true, decide_eq_true_eq] at hrange
      obtain ⟨⟨hnumber, hlength⟩, -⟩ := hrange
      rw [commandDirect, directPacked_eq] at hwrite
      obtain ⟨b₁, htag, hbody⟩ := Check.of_bind_eq_ok hwrite
      obtain ⟨payloads, hpayloads⟩ := exists_of_directPackedBody hbody
      have htagged := used_of_directTag hnumber htag
      have hused := directPackedBody_advances hlength hpayloads hbody
      simp only [commandNarrowTags, commandSize]
      omega
  | kept grows form number bytes =>
      simp only [commandInRange, Bool.and_eq_true, decide_eq_true_eq] at hrange
      obtain rfl : form = .lengthPrefixed := by simpa [commandPrefixed] using hprefixed
      obtain ⟨b₁, htag, hpayload⟩ := Check.of_bind_eq_ok hwrite
      have htagged := used_of_directTag hrange.1 htag
      have hused := directLengthDelimited_advances hrange.2 hpayload
      simp only [commandNarrowTags, commandSize]
      omega
  | @body delimited m m' hmessage =>
      have hused : b'.used = b.used + m.encodedSize := by
        cases delimited with
        | true => exact FilledBuffer.used_of_onSlice hwrite
        | false => exact FilledBuffer.used_of_onSlice hwrite
      rw [hmessage.size] at hused
      exact hused

theorem used_of_programDirect {program : List (Command EncodeMethods)}
    {program' : List (Command EncodeSpec)}
    (h : ProgramRelated EncodeMethods.HasSize program program')
    (hrange : program'.all commandInRange = true) (hprefixed : program'.all commandPrefixed = true)
    {validate : Bool} {b b' : FilledBuffer UInt8}
    (hwrite : programDirect validate program b = .ok b') :
    b'.used + (program'.map commandNarrowTags).sum
      = b.used + programSize EncodeSpec.size program' := by
  induction h generalizing b with
  | nil =>
      cases hwrite
      rfl
  | cons hcommand _ ih =>
      rw [List.all_cons, Bool.and_eq_true] at hrange hprefixed
      obtain ⟨b₁, hfirst, hothers⟩ := Check.of_bind_eq_ok hwrite
      have hused := used_of_commandDirect hcommand hrange.1 hprefixed.1 hfirst
      have hall := ih hrange.2 hprefixed.2 hothers
      rw [List.map_cons, List.sum_cons, programSize_cons]
      omega

end Codegen

namespace EmittedMessage

variable (spare : Nat → Nat) (s : GeneratedStruct) (self : EmittedMessage)

/-- Every tag of a field number from 16 to 31 that a struct writes directly makes its bytes shorter
by one than `encodedSize`, so that they are not those of `writeTo`. -/
theorem length_encodeIntoAssumeCapacity {buffer written : Bytes} {validate : Bool}
    (hcan : Codegen.messageCanFastDirectEncode s = true)
    (hrange : (self.encodeSpec s).inRange = true) (hprefixed : (self.encodeSpec s).prefixed = true)
    (h : self.encodeIntoAssumeCapacity spare s validate buffer = .ok written) :
    written.length + (self.encodeSpec s).narrowTags = self.encodedSize spare s
      ∧ ((self.encodeSpec s).lengths ≤ (self.encodeSpec s).endTags →
        0 < (self.encodeSpec s).narrowTags → self.writeTo spare s ≠ .ok written) := by
  have hlength : written.length + (self.encodeSpec s).narrowTags = self.encodedSize spare s := by
    obtain ⟨layer, layer', hlayers, hmethods, hspec⟩ :=
      exists_layers (Codegen.encodeMethods_hasSize spare) self
    have hprogram := Codegen.writeProgram_related
      (fun (m : EncodeMethods) (m' : EncodeSpec) (hm : m.HasSize m') => hm.size) s hlayers
    have hsize := (Codegen.encodeMethods_hasSize_of_program spare hprogram).size
    rw [encodeSpec, hspec] at hrange hprefixed ⊢
    rw [encodeIntoAssumeCapacity, methods, hmethods] at h
    rw [encodedSize, methods, hmethods, hsize]
    simp only [Codegen.encodeSpec, Codegen.encodeMethods, if_pos hcan] at h hrange hprefixed ⊢
    rw [hcan, Bool.not_true, Bool.false_or] at hprefixed
    cases hresult : Codegen.programDirect validate
        (Codegen.writeProgram EncodeMethods.encodedSize s layer) (.ofCells buffer) with
    | error fault =>
        rw [hresult] at h
        cases h
    | ok b =>
        rw [hresult] at h
        cases h
        have hused := Codegen.used_of_programDirect hprogram hrange hprefixed hresult
        rw [FilledBuffer.used_ofCells, Nat.zero_add, Codegen.programSize_writeProgram] at hused
        rw [FilledBuffer.length_contents]
        exact hused
  refine ⟨hlength, fun hle hnarrow hwrite => ?_⟩
  have hwritten := length_of_writeTo hrange hwrite
  omega

end EmittedMessage

/-! ### Crates -/

namespace Codegen

def labelField : FieldDescriptor := { name := ascii "label", number := 16, kind := .scalar .string }

def crateMessage : MessageDescriptor :=
  { name := ascii "Crate", fields := [loadsField, labelField], address := 2 }

def crateFile : FileDescriptor :=
  { (FileDescriptor.setSyntax {} .proto3) with messages := [crateMessage], address := 3 }

def crateStruct : GeneratedStruct := { ctx := { file := crateFile }, message := crateMessage }

def crate (loads : List (BitVec 32)) (label : Bytes) : EmittedMessage :=
  { member := fun _ =>
      { value := .string label, has := false, payload := [], nested := none
        items := loads.map (fun load => .value (.int32 load)), entries := [] }
    oneof := fun _ => none
    unknownFields := [] }

end Codegen

namespace EmittedMessage

theorem length_encodeIntoAssumeCapacity_crate :
    (Codegen.crate [] (ascii "a")).encodeIntoAssumeCapacity (fun _ => 0) Codegen.crateStruct true
        [0, 0, 0, 0] = .ok [130, 1, 97]
      ∧ (Codegen.crate [] (ascii "a")).writeTo (fun _ => 0) Codegen.crateStruct
        ≠ .ok [130, 1, 97] :=
  have hwrite : (Codegen.crate [] (ascii "a")).encodeIntoAssumeCapacity (fun _ => 0)
      Codegen.crateStruct true [0, 0, 0, 0] = .ok [130, 1, 97] := by decide
  ⟨hwrite, ((Codegen.crate [] (ascii "a")).length_encodeIntoAssumeCapacity (fun _ => 0)
    Codegen.crateStruct (by decide) (by decide) (by decide) hwrite).2 (by decide) (by decide)⟩

end EmittedMessage

end Pbz
