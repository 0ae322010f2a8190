import Pbz.Lib.Check
import Pbz.Lib.Upsert
import Pbz.Wkt.Struct

set_option autoImplicit false

/-! # Encoding and decoding structs

What is encoded is read back: each field that the writer appends makes one pass of the loop of the
decoder, and the passes are put together along the structure of the value. What is decoded is valid,
for every case of the loops keeps that.
-/

namespace Pbz

namespace Wkt

open TagLoop (Passes)

/-! ## Keys -/

def sameKey (a b : StructField) : Bool := a.key == b.key

theorem sameKey_partialKey : Upsert.PartialKey sameKey where
  symm h := beq_iff_eq.mpr (beq_iff_eq.mp h).symm
  trans h h' := beq_iff_eq.mpr ((beq_iff_eq.mp h).trans (beq_iff_eq.mp h'))

theorem appendOrReplaceStructField_eq (fields : List StructField) (field : StructField) :
    appendOrReplaceStructField fields field = Upsert.upsert sameKey fields field := by
  induction fields with
  | nil => rfl
  | cons existing rest ih => rw [appendOrReplaceStructField, Upsert.upsert, ih, sameKey]

theorem distinct_iff {fields : List StructField} :
    Upsert.Distinct sameKey fields ↔ (fields.map StructField.key).Nodup := by
  rw [Upsert.Distinct, List.Nodup, List.pairwise_map]
  simp only [sameKey, beq_eq_false_iff_ne]

/-! ## Written fields -/

variable {number : Nat} {payload : Bytes}

theorem written_delimited (hnumber : ValidNumber number) (payload : Bytes) :
    written (writeBytes number payload)
      = .ok (writeVarint (number * 8 + WireType.lengthDelimited.toNat) ++ lengthPrefixed payload) := by
  rw [written, writeBytes, writeTag_eq hnumber]
  rfl

theorem exists_delimited (hnumber : ValidNumber number) (payload : Bytes) :
    ∃ field, written (writeBytes number payload) = .ok field :=
  ⟨_, written_delimited hnumber payload⟩

/-- A payload is shorter than the field that it is written to. -/
theorem payload_lt {limit : Nat} {field : Bytes}
    (h : written (writeBytes number payload) = .ok field) (hnumber : ValidNumber number)
    (hfield : field.length < limit) : payload.length < limit := by
  rw [written_delimited hnumber] at h
  rw [← Except.ok.inj h, List.length_append, lengthPrefixed, List.length_append] at hfield
  omega

/-- A length-delimited field that is stored. -/
theorem passes_delimited {σ : Type} {cases : TagLoop.Cases σ StructError} {state state' : σ}
    {field : Bytes} {store : Bytes → Except StructError σ} (hcases : TagLoop.Shrinking cases)
    (hnumber : ValidNumber number)
    (hcase : ∀ input, cases state { number, wireType := .lengthDelimited } input
      = some (TagLoop.readCase .wire .lengthDelimited readBytes store
        { number, wireType := .lengthDelimited } input))
    (h : written (writeBytes number payload) = .ok field) (hlength : field.length < 2 ^ 64)
    (hstore : store payload = .ok state') : Passes .wire cases state field state' := by
  have hpayload := payload_lt h hnumber hlength
  rw [written_delimited hnumber] at h
  rw [← Except.ok.inj h]
  exact .stored hcases hnumber hcase (readBytes_lengthPrefixed hpayload) hstore

/-! ## What is encoded is read back -/

/-- The encoding is there, and the decoder returns the value from it if it fits in memory. -/
def ReadBack {α : Type} (encoded : Except StructError Bytes)
    (decode : Bytes → Except StructError α) (value : α) : Prop :=
  ∃ bytes, encoded = .ok bytes ∧ (bytes.length < 2 ^ 64 → decode bytes = .ok value)

theorem StructField.readBack {key : Bytes} {value : Value} (hkey : utf8ValidateSlice key = true)
    (hvalue : ReadBack value.encode Value.decode value) :
    ReadBack (StructField.mk key value).encode (decodeStructFieldWith Value.decode) ⟨key, value⟩ := by
  obtain ⟨valueBytes, hencode, hdecode⟩ := hvalue
  have hensure : ensureUtf8 key = .ok () := if_neg (by simp [hkey])
  obtain ⟨keyBytes, hkeyBytes⟩ := @exists_delimited 1 (by decide) key
  obtain ⟨payload, hpayload⟩ := @exists_delimited 2 (by decide) valueBytes
  refine ⟨keyBytes ++ payload, ?_, ?_⟩
  · rw [StructField.encode]
    simp only [hensure, writeString, writeMessage, hkeyBytes, hencode, hpayload, Bind.bind, Except.bind]
    rfl
  · intro hlength
    rw [List.length_append] at hlength
    have hvalueLength := payload_lt hpayload (by decide) (Nat.lt_of_le_of_lt (Nat.le_add_left _ _) hlength)
    have hfirst : Passes .wire (fieldCases Value.decode) ⟨[], .nullValue⟩ keyBytes ⟨key, .nullValue⟩ :=
      passes_delimited (fieldCases_shrinking Value.decode) (by decide) (fun _ => rfl) hkeyBytes
        (by omega) (by simp only [hensure, Bind.bind, Except.bind]; rfl)
    have hsecond : Passes .wire (fieldCases Value.decode) ⟨key, .nullValue⟩ payload ⟨key, value⟩ :=
      passes_delimited (fieldCases_shrinking Value.decode) (by decide) (fun _ => rfl) hpayload
        (by omega) (by simp only [hdecode hvalueLength, Bind.bind, Except.bind]; rfl)
    exact (hfirst.append hsecond).decode

/-- Fields with new keys are put behind the ones that are there. -/
def FieldsReadBack (fields : List StructField) : Prop :=
  ∃ bytes, encodeFields fields = .ok bytes ∧ (bytes.length < 2 ^ 64 →
    ∀ before : List StructField, ((before ++ fields).map StructField.key).Nodup →
      Passes .wire (structCases Value.decode) before bytes (before ++ fields))

theorem fieldsReadBack_cons {field : StructField} {rest : List StructField}
    (hfield : ReadBack field.encode (decodeStructFieldWith Value.decode) field)
    (hrest : FieldsReadBack rest) : FieldsReadBack (field :: rest) := by
  obtain ⟨entry, hentry, hdecode⟩ := hfield
  obtain ⟨others, hothers, hpasses⟩ := hrest
  obtain ⟨first, hfirst⟩ := @exists_delimited 1 (by decide) entry
  refine ⟨first ++ others, ?_, ?_⟩
  · rw [encodeFields]
    simp only [hentry, writeMessage, hfirst, hothers, Bind.bind, Except.bind]
    rfl
  · intro hlength before hnodup
    rw [List.length_append] at hlength
    have hentryLength := payload_lt hfirst (by decide)
      (Nat.lt_of_le_of_lt (Nat.le_add_right _ _) hlength)
    rw [List.append_cons] at hnodup ⊢
    have hfresh : appendOrReplaceStructField before field = before ++ [field] := by
      have hbefore : Upsert.Distinct sameKey (before ++ [field]) := distinct_iff.mpr
        (hnodup.sublist (List.Sublist.map _ (List.sublist_append_left _ _)))
      rw [appendOrReplaceStructField_eq]
      exact Upsert.upsert_fresh fun other hother =>
        (List.pairwise_append.mp hbefore).2.2 other hother field List.mem_cons_self
    have hpass : Passes .wire (structCases Value.decode) before first (before ++ [field]) :=
      passes_delimited (structCases_shrinking Value.decode) (by decide) (fun _ => rfl) hfirst
        (by omega) (by simp only [hdecode hentryLength, hfresh, Bind.bind, Except.bind]; rfl)
    exact hpass.append (hpasses (by omega) (before ++ [field]) hnodup)

theorem Struct.readBack {fields : List StructField} (hnodup : (fields.map StructField.key).Nodup)
    (hfields : FieldsReadBack fields) : ReadBack (Struct.mk fields).encode Struct.decode ⟨fields⟩ := by
  obtain ⟨bytes, hencode, hpasses⟩ := hfields
  refine ⟨bytes, by rw [Struct.encode, hencode], fun hlength => ?_⟩
  have hdecode := (hpasses hlength [] hnodup).decode
  rw [Struct.decode, decodeStructWith, hdecode]
  rfl

/-- Values are put behind the ones that are there. -/
def ValuesReadBack (values : List Value) : Prop :=
  ∃ bytes, encodeValues values = .ok bytes ∧ (bytes.length < 2 ^ 64 → ∀ before : List Value,
    Passes .wire (listCases Value.decode) before bytes (before ++ values))

theorem valuesReadBack_cons {value : Value} {rest : List Value}
    (hvalue : ReadBack value.encode Value.decode value) (hrest : ValuesReadBack rest) :
    ValuesReadBack (value :: rest) := by
  obtain ⟨valueBytes, hencode, hdecode⟩ := hvalue
  obtain ⟨others, hothers, hpasses⟩ := hrest
  obtain ⟨first, hfirst⟩ := @exists_delimited 1 (by decide) valueBytes
  refine ⟨first ++ others, ?_, ?_⟩
  · rw [encodeValues]
    simp only [hencode, writeMessage, hfirst, hothers, Bind.bind, Except.bind]
    rfl
  · intro hlength before
    rw [List.length_append] at hlength
    have hvalueLength := payload_lt hfirst (by decide)
      (Nat.lt_of_le_of_lt (Nat.le_add_right _ _) hlength)
    have hpass : Passes .wire (listCases Value.decode) before first (before ++ [value]) :=
      passes_delimited (listCases_shrinking Value.decode) (by decide) (fun _ => rfl) hfirst
        (by omega) (by simp only [hdecode hvalueLength, Bind.bind, Except.bind]; rfl)
    rw [List.append_cons]
    exact hpass.append (hpasses (by omega) (before ++ [value]))

theorem ListValue.readBack {values : List Value} (hvalues : ValuesReadBack values) :
    ReadBack (ListValue.mk values).encode ListValue.decode ⟨values⟩ := by
  obtain ⟨bytes, hencode, hpasses⟩ := hvalues
  refine ⟨bytes, by rw [ListValue.encode, hencode], fun hlength => ?_⟩
  have hdecode := (hpasses hlength []).decode
  rw [ListValue.decode, decodeListWith, hdecode]
  rfl

/-! ## The members of the oneof -/

/-- The member that is written is read. -/
theorem Value.readBack_of_passes {value : Value} {bytes : Bytes} (hencode : value.encode = .ok bytes)
    (h : bytes.length < 2 ^ 64 →
      Passes .wire (valueCases Value.decode) .nullValue bytes value) :
    ReadBack value.encode Value.decode value := by
  refine ⟨bytes, hencode, fun hlength => ?_⟩
  rw [Value.decode_eq]
  exact (h hlength).decode

/-- A scalar member. -/
theorem Value.readBack_scalar {value : Value} {wireType : WireType} {α : Type} {stored : α}
    {read : Bytes → ReadResult α} {store : α → Except StructError Value}
    (hnumber : ValidNumber number)
    (hencode : value.encode = .ok (writeVarint (number * 8 + wireType.toNat) ++ payload))
    (hcase : ∀ input, valueCases Value.decode .nullValue { number, wireType } input
      = some (TagLoop.readCase .wire wireType read store { number, wireType } input))
    (hread : ∀ rest, read (payload ++ rest) = .ok (stored, rest)) (hstore : store stored = .ok value) :
    ReadBack value.encode Value.decode value :=
  Value.readBack_of_passes hencode fun _ =>
    .stored (valueCases_shrinking Value.decode) hnumber hcase hread hstore

/-- A member of its own bytes. -/
theorem Value.readBack_delimited {value : Value} {store : Bytes → Except StructError Value}
    (hnumber : ValidNumber number) (hencode : value.encode = written (writeBytes number payload))
    (hcase : ∀ input, valueCases Value.decode .nullValue { number, wireType := .lengthDelimited } input
      = some (TagLoop.readCase .wire .lengthDelimited readBytes store
        { number, wireType := .lengthDelimited } input))
    (hstore : payload.length < 2 ^ 64 → store payload = .ok value) :
    ReadBack value.encode Value.decode value := by
  obtain ⟨field, hfield⟩ := exists_delimited hnumber payload
  refine Value.readBack_of_passes (hencode.trans hfield) fun hlength => ?_
  exact passes_delimited (valueCases_shrinking Value.decode) hnumber hcase hfield hlength
    (hstore (payload_lt hfield hnumber hlength))

theorem Value.readBack_null : ReadBack Value.nullValue.encode Value.decode .nullValue := by
  have hencode : Value.nullValue.encode
      = .ok (writeVarint (1 * 8 + WireType.varint.toNat) ++ writeVarintInt32 0) := by
    show written (writeInt32 1 0) = _
    rw [written, writeInt32, writeTag_eq (by decide)]
    rfl
  exact Value.readBack_scalar (by decide) hencode (fun _ => rfl) (readInt32_writeVarintInt32 0) rfl

theorem Value.readBack_number {value : BitVec 64} (h : Finite value) :
    ReadBack (Value.numberValue value).encode Value.decode (.numberValue value) := by
  have hensure : ensureFinite value = .ok () := ensureFinite_iff.mpr h
  have hencode : (Value.numberValue value).encode
      = .ok (writeVarint (2 * 8 + WireType.fixed64.toNat) ++ littleBytes 8 value.toNat) := by
    show (ensureFinite value >>= fun _ => written (writeDouble 2 value)) = _
    rw [hensure, written, writeDouble, writeTag_eq (by decide)]
    rfl
  have hread : ∀ rest, readDouble (littleBytes 8 value.toNat ++ rest) = .ok (value, rest) := by
    intro rest
    rw [readDouble, readRawLittle_toNat 8 (by norm_num)]
    simp only [ReadResult.map, BitVec.ofNat_toNat, BitVec.setWidth_eq]
  exact Value.readBack_scalar (by decide) hencode (fun _ => rfl) hread
    (by simp only [hensure, Bind.bind, Except.bind]; rfl)

theorem Value.readBack_string {value : Bytes} (h : utf8ValidateSlice value = true) :
    ReadBack (Value.stringValue value).encode Value.decode (.stringValue value) := by
  have hensure : ensureUtf8 value = .ok () := if_neg (by simp [h])
  have hencode : (Value.stringValue value).encode = written (writeBytes 3 value) := by
    show (ensureUtf8 value >>= fun _ => written (writeString 3 value)) = _
    rw [hensure]
    rfl
  exact Value.readBack_delimited (by decide) hencode (fun _ => rfl)
    (fun _ => by simp only [hensure, Bind.bind, Except.bind]; rfl)

theorem Value.readBack_bool (value : Bool) :
    ReadBack (Value.boolValue value).encode Value.decode (.boolValue value) := by
  have hencode : (Value.boolValue value).encode = .ok (writeVarint (4 * 8 + WireType.varint.toNat)
      ++ [if value then 1 else 0]) := by
    show written (writeBool 4 value) = _
    rw [written, writeBool, writeTag_eq (by decide)]
    rfl
  have hread : ∀ rest, readBool ([if value then 1 else 0] ++ rest) = .ok (value, rest) := by
    intro rest
    have hvarint : [if value then 1 else 0] = writeVarint (if value then 1 else 0) := by
      cases value <;> decide
    rw [readBool, hvarint, readVarint_writeVarint (by split <;> omega)]
    cases value <;> rfl
  exact Value.readBack_scalar (by decide) hencode (fun _ => rfl) hread rfl

theorem Value.readBack_struct {value : Struct} (h : ReadBack value.encode Struct.decode value) :
    ReadBack (Value.structValue value).encode Value.decode (.structValue value) := by
  obtain ⟨payload, hencode, hdecode⟩ := h
  have hmember : (Value.structValue value).encode = written (writeBytes 5 payload) := by
    show (value.encode >>= fun payload => written (writeMessage 5 payload)) = _
    rw [hencode]
    rfl
  refine Value.readBack_delimited (by decide) hmember (fun _ => rfl) fun hlength => ?_
  have hnested : decodeStructWith Value.decode payload = .ok value := hdecode hlength
  simp only [hnested, Bind.bind, Except.bind]
  rfl

theorem Value.readBack_list {value : ListValue} (h : ReadBack value.encode ListValue.decode value) :
    ReadBack (Value.listValue value).encode Value.decode (.listValue value) := by
  obtain ⟨payload, hencode, hdecode⟩ := h
  have hmember : (Value.listValue value).encode = written (writeBytes 6 payload) := by
    show (value.encode >>= fun payload => written (writeMessage 6 payload)) = _
    rw [hencode]
    rfl
  refine Value.readBack_delimited (by decide) hmember (fun _ => rfl) fun hlength => ?_
  have hnested : decodeListWith Value.decode payload = .ok value := hdecode hlength
  simp only [hnested, Bind.bind, Except.bind]
  rfl

mutual

theorem Value.readBack_valid : ∀ value : Value, value.Valid → ReadBack value.encode Value.decode value
  | .nullValue, _ => Value.readBack_null
  | .numberValue _, h => Value.readBack_number h
  | .stringValue _, h => Value.readBack_string h
  | .boolValue value, _ => Value.readBack_bool value
  | .structValue value, h => Value.readBack_struct (Struct.readBack_valid value h)
  | .listValue value, h => Value.readBack_list (ListValue.readBack_valid value h)
termination_by structural value => value

theorem Struct.readBack_valid : ∀ value : Struct, value.Valid → ReadBack value.encode Struct.decode value
  | { fields }, h => Struct.readBack h.1 (fieldsReadBack_valid fields h.2)
termination_by structural value => value

theorem fieldsReadBack_valid : ∀ fields : List StructField, FieldsValid fields → FieldsReadBack fields
  | [], _ => ⟨[], rfl, fun _ before _ => by rw [List.append_nil]; exact .nil before⟩
  | field :: rest, h =>
      fieldsReadBack_cons (StructField.readBack_valid field h.1) (fieldsReadBack_valid rest h.2)
termination_by structural fields => fields

theorem StructField.readBack_valid : ∀ field : StructField, field.Valid →
    ReadBack field.encode (decodeStructFieldWith Value.decode) field
  | { key := _, value }, h => StructField.readBack h.1 (Value.readBack_valid value h.2)
termination_by structural field => field

theorem ListValue.readBack_valid : ∀ value : ListValue, value.Valid →
    ReadBack value.encode ListValue.decode value
  | { values }, h => ListValue.readBack (valuesReadBack_valid values h)
termination_by structural value => value

theorem valuesReadBack_valid : ∀ values : List Value, ValuesValid values → ValuesReadBack values
  | [], _ => ⟨[], rfl, fun _ before => by rw [List.append_nil]; exact .nil before⟩
  | value :: rest, h =>
      valuesReadBack_cons (Value.readBack_valid value h.1) (valuesReadBack_valid rest h.2)
termination_by structural values => values

end

/-! ## What is decoded is valid -/

theorem fieldsValid_iff {fields : List StructField} :
    FieldsValid fields ↔ ∀ field ∈ fields, field.Valid := by
  induction fields with
  | nil => exact iff_of_true trivial (fun field hfield => absurd hfield List.not_mem_nil)
  | cons field rest ih => rw [FieldsValid, ih, List.forall_mem_cons]

theorem valuesValid_iff {values : List Value} :
    ValuesValid values ↔ ∀ value ∈ values, value.Valid := by
  induction values with
  | nil => exact iff_of_true trivial (fun value hvalue => absurd hvalue List.not_mem_nil)
  | cons value rest ih => rw [ValuesValid, ih, List.forall_mem_cons]

theorem of_ensureUtf8 {value : Bytes} (h : ensureUtf8 value = .ok ()) :
    utf8ValidateSlice value = true := by
  rw [ensureUtf8] at h
  split at h
  · cases h
  · next hvalid => simpa using hvalid

section

variable {decodeValue : Bytes → Except StructError Value} {bytes : Bytes}

theorem decodeStructFieldWith_valid
    (hvalue : ∀ raw value, decodeValue raw = .ok value → value.Valid) {field : StructField}
    (h : decodeStructFieldWith decodeValue bytes = .ok field) : field.Valid := by
  have hinit : StructField.Valid { key := [], value := .nullValue } := ⟨rfl, trivial⟩
  refine TagLoop.decode_invariant StructField.Valid ?_ hinit h
  rintro ⟨key, value⟩ tag input field' rest hfield hcase
  obtain ⟨hkey, hvalid⟩ : utf8ValidateSlice key = true ∧ value.Valid := hfield
  unfold fieldCases at hcase
  split at hcase
  · obtain ⟨raw, -, hstore⟩ := TagLoop.of_readCase (Option.some.inj hcase)
    obtain ⟨checked, hutf8, hstore⟩ := Check.of_bind_eq_ok hstore
    cases hstore
    exact ⟨of_ensureUtf8 hutf8, hvalid⟩
  · obtain ⟨raw, -, hstore⟩ := TagLoop.of_readCase (Option.some.inj hcase)
    obtain ⟨value, hdecode, hstore⟩ := Check.of_bind_eq_ok hstore
    cases hstore
    exact ⟨hkey, hvalue raw value hdecode⟩
  · cases hcase

theorem decodeStructWith_valid
    (hvalue : ∀ raw value, decodeValue raw = .ok value → value.Valid) {value : Struct}
    (h : decodeStructWith decodeValue bytes = .ok value) : value.Valid := by
  obtain ⟨fields, hfields, h⟩ := Check.of_bind_eq_ok h
  cases h
  have hinit : (([] : List StructField).map StructField.key).Nodup ∧ FieldsValid [] :=
    ⟨List.nodup_nil, trivial⟩
  refine TagLoop.decode_invariant
    (fun fields => (fields.map StructField.key).Nodup ∧ FieldsValid fields) ?_ hinit hfields
  intro fields tag input fields' rest hstate hcase
  unfold structCases at hcase
  split at hcase
  · obtain ⟨raw, -, hstore⟩ := TagLoop.of_readCase (Option.some.inj hcase)
    obtain ⟨field, hdecode, hstore⟩ := Check.of_bind_eq_ok hstore
    cases hstore
    have hfield := decodeStructFieldWith_valid hvalue hdecode
    obtain ⟨hnodup, hvalid⟩ := hstate
    rw [appendOrReplaceStructField_eq]
    refine ⟨distinct_iff.mp ((distinct_iff.mpr hnodup).upsert sameKey_partialKey field),
      fieldsValid_iff.mpr fun other hother => ?_⟩
    rcases Upsert.mem_upsert hother with hother | rfl
    · exact fieldsValid_iff.mp hvalid other hother
    · exact hfield
  · cases hcase

theorem decodeListWith_valid
    (hvalue : ∀ raw value, decodeValue raw = .ok value → value.Valid) {value : ListValue}
    (h : decodeListWith decodeValue bytes = .ok value) : value.Valid := by
  obtain ⟨values, hvalues, h⟩ := Check.of_bind_eq_ok h
  cases h
  have hinit : ValuesValid [] := trivial
  refine TagLoop.decode_invariant ValuesValid ?_ hinit hvalues
  intro values tag input values' rest hstate hcase
  unfold listCases at hcase
  split at hcase
  · obtain ⟨raw, -, hstore⟩ := TagLoop.of_readCase (Option.some.inj hcase)
    obtain ⟨value, hdecode, hstore⟩ := Check.of_bind_eq_ok hstore
    cases hstore
    refine valuesValid_iff.mpr (List.forall_mem_append.mpr ⟨valuesValid_iff.mp hstate, ?_⟩)
    exact List.forall_mem_singleton.mpr (hvalue raw value hdecode)
  · cases hcase

end

theorem decodeValueFrom_valid (levels : Nat) (bytes : Bytes) (value : Value)
    (h : decodeValueFrom levels bytes = .ok value) : value.Valid := by
  induction levels generalizing bytes value with
  | zero => cases h
  | succ levels ih =>
      have hinit : Value.Valid .nullValue := trivial
      refine TagLoop.decode_invariant Value.Valid ?_ hinit h
      intro value tag input value' rest hvalue hcase
      unfold valueCases at hcase
      split at hcase
      · obtain ⟨number, -, hstore⟩ := TagLoop.of_readCase (Option.some.inj hcase)
        obtain ⟨checked, -, hstore⟩ := Check.of_bind_eq_ok hstore
        cases hstore
        exact trivial
      · obtain ⟨number, -, hstore⟩ := TagLoop.of_readCase (Option.some.inj hcase)
        obtain ⟨checked, hfinite, hstore⟩ := Check.of_bind_eq_ok hstore
        cases hstore
        exact ensureFinite_iff.mp hfinite
      · obtain ⟨raw, -, hstore⟩ := TagLoop.of_readCase (Option.some.inj hcase)
        obtain ⟨checked, hutf8, hstore⟩ := Check.of_bind_eq_ok hstore
        cases hstore
        exact of_ensureUtf8 hutf8
      · obtain ⟨flag, -, hstore⟩ := TagLoop.of_readCase (Option.some.inj hcase)
        cases hstore
        exact trivial
      · obtain ⟨raw, -, hstore⟩ := TagLoop.of_readCase (Option.some.inj hcase)
        obtain ⟨nested, hdecode, hstore⟩ := Check.of_bind_eq_ok hstore
        cases hstore
        exact decodeStructWith_valid ih hdecode
      · obtain ⟨raw, -, hstore⟩ := TagLoop.of_readCase (Option.some.inj hcase)
        obtain ⟨nested, hdecode, hstore⟩ := Check.of_bind_eq_ok hstore
        cases hstore
        exact decodeListWith_valid ih hdecode
      · cases hcase

theorem Value.decode_valid {bytes : Bytes} {value : Value} (h : Value.decode bytes = .ok value) :
    value.Valid := decodeValueFrom_valid _ bytes value h

theorem Struct.decode_valid {bytes : Bytes} {value : Struct} (h : Struct.decode bytes = .ok value) :
    value.Valid := decodeStructWith_valid (fun _ _ => Value.decode_valid) h

theorem ListValue.decode_valid {bytes : Bytes} {value : ListValue}
    (h : ListValue.decode bytes = .ok value) : value.Valid :=
  decodeListWith_valid (fun _ _ => Value.decode_valid) h

/-! ## Equality -/

theorem doubleEqual_self {value : BitVec 64} (h : Finite value) : doubleEqual value value = true := by
  have hmagnitude : value.toNat % 2 ^ 63 ≤ 0x7ff0000000000000 := by
    rw [Finite] at h
    omega
  simp only [doubleEqual, decide_eq_true hmagnitude, beq_self_eq_true, Bool.true_or, Bool.and_self]

/-- The first field with the key of one of the fields is that field. -/
theorem fieldValue_of_mem {fields : List StructField} {field : StructField}
    (hnodup : (fields.map StructField.key).Nodup) (h : field ∈ fields) :
    (Struct.mk fields).fieldValue field.key = some field.value := by
  induction fields with
  | nil => exact absurd h List.not_mem_nil
  | cons first rest ih =>
      rw [List.map_cons, List.nodup_cons] at hnodup
      rcases List.mem_cons.mp h with rfl | h
      · simp [Struct.fieldValue]
      · have hne : ¬ first.key = field.key :=
          fun heq => hnodup.1 (heq ▸ List.mem_map_of_mem h)
        have hrest := ih hnodup.2 h
        rw [Struct.fieldValue] at hrest ⊢
        rwa [List.find?_cons_of_neg (by simpa using hne)]

mutual

theorem valueEqual_self : ∀ value : Value, value.Valid → valueEqual value value = true
  | .nullValue, _ => rfl
  | .numberValue _, h => doubleEqual_self h
  | .stringValue value, _ => beq_self_eq_true value
  | .boolValue value, _ => beq_self_eq_true value
  | .structValue value, h => structEqual_self value h
  | .listValue value, h => listValueEqual_self value h
termination_by structural value => value

theorem structEqual_self : ∀ value : Struct, value.Valid → structEqual value value = true
  | { fields }, h => by
      have hfields := fieldsEqual_self fields h.2 { fields } fun field hfield =>
        fieldValue_of_mem h.1 hfield
      rw [structEqual, if_neg (by simp)]
      exact hfields
termination_by structural value => value

theorem fieldsEqual_self : ∀ fields : List StructField, FieldsValid fields → ∀ whole : Struct,
    (∀ field ∈ fields, whole.fieldValue field.key = some field.value) →
      fieldsEqual fields whole = true
  | [], _, _, _ => rfl
  | field :: rest, h, whole, hfound => by
      have hfield := fieldEqual_self field h.1 whole (hfound field List.mem_cons_self)
      have hrest := fieldsEqual_self rest h.2 whole fun other hother =>
        hfound other (List.mem_cons_of_mem _ hother)
      rw [fieldsEqual, hfield, if_neg (by simp), hrest]
termination_by structural fields => fields

theorem fieldEqual_self : ∀ field : StructField, field.Valid → ∀ whole : Struct,
    whole.fieldValue field.key = some field.value → fieldEqual field whole = true
  | { key, value }, h, whole, hfound => by
      have hvalue := valueEqual_self value h.2
      rw [fieldEqual]
      rw [show whole.fieldValue key = some value from hfound]
      exact hvalue
termination_by structural field => field

theorem listValueEqual_self : ∀ value : ListValue, value.Valid → listValueEqual value value = true
  | { values }, h => by
      have hvalues := valuesEqual_self values h
      rw [listValueEqual, if_neg (by simp)]
      exact hvalues
termination_by structural value => value

theorem valuesEqual_self : ∀ values : List Value, ValuesValid values →
    valuesEqual values values = true
  | [], _ => rfl
  | value :: rest, h => by
      have hvalue := valueEqual_self value h.1
      have hrest := valuesEqual_self rest h.2
      rw [valuesEqual, hvalue, if_neg (by simp), hrest]
termination_by structural values => values

end

/-! ## The round trip -/

/-- A valid value is encoded, and an equal one is decoded from that; what is decoded from any bytes
is decoded again from its encoding. An encoding is a slice, whose length is a `usize`. -/
structure RoundTrips {α : Type} (encode : α → Except StructError Bytes)
    (decode : Bytes → Except StructError α) (valid : α → Prop) (equal : α → α → Bool) : Prop where
  encoded : ∀ value, valid value → ∃ bytes, encode value = .ok bytes ∧
    (bytes.length < 2 ^ 64 → ∃ decoded, decode bytes = .ok decoded ∧ decoded = value
      ∧ equal decoded value = true)
  decoded : ∀ bytes value, decode bytes = .ok value → ∃ again, encode value = .ok again ∧
    (again.length < 2 ^ 64 → decode again = .ok value)

theorem RoundTrips.of_readBack {α : Type} {encode : α → Except StructError Bytes}
    {decode : Bytes → Except StructError α} {valid : α → Prop} {equal : α → α → Bool}
    (hread : ∀ value, valid value → ReadBack (encode value) decode value)
    (hequal : ∀ value, valid value → equal value value = true)
    (hvalid : ∀ bytes value, decode bytes = .ok value → valid value) :
    RoundTrips encode decode valid equal := by
  refine ⟨fun value h => ?_, fun bytes value h => hread value (hvalid bytes value h)⟩
  obtain ⟨bytes, hencode, hdecode⟩ := hread value h
  exact ⟨bytes, hencode, fun hlength => ⟨value, hdecode hlength, rfl, hequal value h⟩⟩

theorem wire_roundTrip :
    RoundTrips Struct.encode Struct.decode Struct.Valid structEqual
      ∧ RoundTrips Value.encode Value.decode Value.Valid valueEqual
      ∧ RoundTrips ListValue.encode ListValue.decode ListValue.Valid listValueEqual :=
  ⟨.of_readBack Struct.readBack_valid structEqual_self fun _ _ => Struct.decode_valid,
    .of_readBack Value.readBack_valid valueEqual_self fun _ _ => Value.decode_valid,
    .of_readBack ListValue.readBack_valid listValueEqual_self fun _ _ => ListValue.decode_valid⟩

/-- A struct with a list under the empty key, and bytes with a field that comes twice. -/
theorem wire_roundTrip_nested :
    (∃ bytes, (Struct.mk [⟨[], .listValue ⟨[.nullValue, .numberValue 0]⟩⟩]).encode = .ok bytes
        ∧ (bytes.length < 2 ^ 64 → ∃ decoded, Struct.decode bytes = .ok decoded
          ∧ decoded = ⟨[⟨[], .listValue ⟨[.nullValue, .numberValue 0]⟩⟩]⟩
          ∧ structEqual decoded ⟨[⟨[], .listValue ⟨[.nullValue, .numberValue 0]⟩⟩]⟩ = true))
      ∧ ∃ again, (Struct.mk [⟨[], .nullValue⟩]).encode = .ok again
        ∧ (again.length < 2 ^ 64 → Struct.decode again = .ok ⟨[⟨[], .nullValue⟩]⟩) := by
  refine ⟨wire_roundTrip.1.encoded _ ⟨by decide, ⟨by decide, trivial, ?_, trivial⟩, trivial⟩,
    wire_roundTrip.1.decoded [0x0a, 0x04, 0x12, 0x02, 0x20, 0x01, 0x0a, 0x00] _ ?_⟩
  · show Finite 0
    unfold Finite
    decide
  · rfl

end Wkt

end Pbz
