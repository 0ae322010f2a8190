import Pbz.Codegen.EmittedReads
import Pbz.Codegen.EncodedSize
import Pbz.Wire.Grammar

set_option autoImplicit false

/-! # Reading back what an emitted encoder writes

The bytes that `writeTo` writes for one value, one packed field, one map entry or one message are
one field of the input, and the decoder of the same struct reads it as the action that stores what
was written.
-/

namespace Pbz

/-! ## Varints and tags that were written -/

theorem isVarint_writeVarint {v : Nat} (h : v < 2 ^ 64) : IsVarint (writeVarint v) v := by
  obtain ⟨bytes, heq, hvarint⟩ := readVarint_iff.mp (readVarint_writeVarint h [])
  rw [List.append_nil, List.append_nil] at heq
  rw [heq]
  exact hvarint

theorem isTag_tagBytes {number : Nat} (h : ValidNumber number) (wireType : WireType) :
    IsTag (tagBytes number wireType) { number, wireType } := by
  obtain ⟨bytes, heq, htag⟩ := nextTag_iff.mp (nextTag_tag h wireType [])
  rw [List.append_nil, List.append_nil] at heq
  rw [tagBytes, heq]
  exact htag

theorem Fields.append {value : Tag → Bytes → Prop} {xs ys : Bytes} (hx : Fields value xs)
    (hy : Fields value ys) : Fields value (xs ++ ys) := by
  induction hx with
  | nil => exact hy
  | cons htag hvalue _ ih =>
      rw [List.append_assoc, List.append_assoc]
      exact .cons htag hvalue ih

theorem Fields.single {value : Tag → Bytes → Prop} {tag : Tag} {tagBytes bytes : Bytes}
    (htag : IsTag tagBytes tag) (hvalue : value tag bytes) : Fields value (tagBytes ++ bytes) := by
  have h := Fields.cons htag hvalue (@Fields.nil value)
  rwa [List.append_nil] at h

namespace Codegen

/-! ## Values -/

/-- A value of the kind: text that is verified is valid, and the number of a closed enum is one that
it knows. -/
def ValueRestorable (file : FileDescriptor) (field : FieldDescriptor) : FieldKind → Value → Prop
  | .scalar scalar, value => ScalarTyped file field scalar value
  | .enumeration name, value =>
      ∃ v, value = .enumeration v ∧ (enumIsClosed file name = true → enumKnown file name v = true)
  | _, _ => False

section

variable {file : FileDescriptor} {field : FieldDescriptor} {kind : FieldKind} {value : Value}
  {payload : Bytes}

/-- The forms of a payload: a varint, bytes behind their length, or a word. -/
theorem encodeScalarPayload_cases (h : encodeScalarPayload kind value = .ok payload) :
    (∃ v, payload = writeVarint v ∧ v < 2 ^ 64 ∧ kind.wireType = .varint
      ∧ payloadSize kind value = encodedVarintSize v)
    ∨ (∃ data, payload = lengthPrefixed data ∧ kind.wireType = .lengthDelimited
      ∧ payloadSize kind value = encodedVarintSize data.length + data.length)
    ∨ (payload.length = 8 ∧ kind.wireType = .fixed64 ∧ payloadSize kind value = 8)
    ∨ (payload.length = 4 ∧ kind.wireType = .fixed32 ∧ payloadSize kind value = 4) := by
  have h32 : ∀ v : BitVec 32, v.toNat < 2 ^ 64 :=
    fun v => Nat.lt_trans (BitVec.isLt v) (by decide)
  unfold encodeScalarPayload at h
  split at h <;> cases h
  -- double, fixed64 and sfixed64
  case h_1 | h_10 | h_12 =>
    exact .inr (.inr (.inl ⟨littleBytes_length _ _, rfl, rfl⟩))
  -- float, fixed32 and sfixed32
  case h_2 | h_9 | h_11 =>
    exact .inr (.inr (.inr ⟨littleBytes_length _ _, rfl, rfl⟩))
  -- string and bytes
  case h_14 | h_15 => exact .inr (.inl ⟨_, rfl, rfl, rfl⟩)
  -- the varints of 64 bits, of 32 bits and of a bool
  case h_3 | h_4 | h_6 | h_8 | h_16 => exact .inl ⟨_, rfl, BitVec.isLt _, rfl, rfl⟩
  case h_5 | h_7 => exact .inl ⟨_, rfl, h32 _, rfl, rfl⟩
  case h_13 v => cases v <;> exact .inl ⟨_, rfl, by decide, rfl, rfl⟩

/-- The payload is a value of the wire type of its kind. -/
theorem isValue_payload {group : Nat → Bytes → Prop} {number : Nat}
    (h : encodeScalarPayload kind value = .ok payload) (hlength : payload.length < 2 ^ 64) :
    IsValue group { number, wireType := kind.wireType } payload := by
  unfold IsValue
  rcases encodeScalarPayload_cases h with ⟨v, rfl, hv, hwire, -⟩ | ⟨data, rfl, hwire, -⟩
    | ⟨height, hwire, -⟩ | ⟨hfour, hwire, -⟩
  · rw [hwire]
    exact ⟨v, isVarint_writeVarint hv⟩
  · rw [lengthPrefixed, List.length_append] at hlength
    rw [hwire]
    exact ⟨_, data, rfl, isVarint_writeVarint (by omega)⟩
  · rw [hwire]
    exact height
  · rw [hwire]
    exact hfour

/-- `payloadSize` is the length of a payload. -/
theorem length_payload (h : encodeScalarPayload kind value = .ok payload)
    (hlength : payload.length < 2 ^ 64) : payload.length = payloadSize kind value := by
  rcases encodeScalarPayload_cases h with ⟨v, rfl, hv, -, hsize⟩ | ⟨data, rfl, -, hsize⟩
    | ⟨height, -, hsize⟩ | ⟨hfour, -, hsize⟩
  · rw [hsize, writeVarint_length hv]
  · rw [lengthPrefixed, List.length_append] at hlength ⊢
    rw [hsize, writeVarint_length (by omega)]
  · rw [height, hsize]
  · rw [hfour, hsize]

/-- A payload in front of anything is read back. -/
theorem readScalarField_payload {scalar : ScalarType} (h : ScalarTyped file field scalar value)
    (hpayload : encodeScalarPayload (.scalar scalar) value = .ok payload)
    (hlength : payload.length < 2 ^ 64) (rest : Bytes) :
    readScalarField file field scalar (payload ++ rest) = .ok (value, rest) := by
  have hbytes : ∀ data : Bytes, (lengthPrefixed data).length < 2 ^ 64 →
      readBytes (lengthPrefixed data ++ rest) = .ok (data, rest) := by
    intro data hdata
    rw [lengthPrefixed, List.length_append] at hdata
    exact readBytes_lengthPrefixed (by omega) rest
  have htype := h.hasType
  by_cases hpackable : scalar.packable = true
  · obtain ⟨written, hwritten, -, hread⟩ := decodeScalarLike_encodeScalarPayload htype hpackable
    rw [hpayload] at hwritten
    cases hwritten
    cases scalar with
    | string | bytes => cases hpackable
    | _ => exact hread rest
  · cases scalar with
    | string =>
        cases value <;> simp only [Value.hasScalarType, Bool.false_eq_true] at htype
        cases hpayload
        simp only [readScalarField, hbytes _ hlength]
        rw [if_neg]
        simp only [Bool.and_eq_true, beq_iff_eq, Bool.not_eq_true', not_and, Bool.not_eq_false]
        exact h.verified _ rfl
    | bytes =>
        cases value <;> simp only [Value.hasScalarType, Bool.false_eq_true] at htype
        cases hpayload
        rw [readScalarField, hbytes _ hlength]
        rfl
    | _ => exact (hpackable rfl).elim

theorem exists_payload (h : ValueRestorable file field kind value) :
    ∃ payload, encodeScalarPayload kind value = .ok payload := by
  cases kind with
  | scalar scalar =>
      obtain ⟨payload, hpayload, -⟩ :=
        @encodeScalarPayload_ok none none file field scalar value h { name := [] }
      exact ⟨payload, hpayload⟩
  | enumeration name =>
      obtain ⟨v, rfl, -⟩ := h
      exact ⟨_, rfl⟩
  | _ => cases h

theorem readOne_payload (h : ValueRestorable file field field.kind value)
    (hpayload : encodeScalarPayload field.kind value = .ok payload)
    (hlength : payload.length < 2 ^ 64) (rest : Bytes) :
    readOne file field (payload ++ rest) = .ok (value, rest) := by
  unfold readOne
  cases hkind : field.kind with
  | scalar scalar =>
      rw [hkind] at h hpayload
      exact readScalarField_payload h hpayload hlength rest
  | enumeration name =>
      rw [hkind] at h hpayload
      obtain ⟨v, rfl, -⟩ := h
      cases hpayload
      simp only [readInt32_writeVarintInt32, ReadResult.map]
  | _ => rw [hkind] at h; cases h

end

end Codegen

/-! ## One field of the input -/

/-- The fields of a struct have numbers of their own, and the members of its oneofs are neither
repeated nor maps. -/
structure GeneratedStruct.WellDeclared (s : GeneratedStruct) : Prop where
  valid : ∀ field ∈ s.message.fields, ValidNumber field.number
  unique : (s.message.fields.map FieldDescriptor.number).Nodup
  declared : ∀ field ∈ s.message.fields, ∀ name, field.oneofName = some name →
    ∃ oneof ∈ s.message.oneofs, oneof.name = name
  single : ∀ field ∈ s.message.fields, field.oneofName.isSome = true →
    field.cardinality ≠ .repeated ∧ field.kind.isMap = false

namespace Codegen

section

variable {explicitDefault : FieldKind → OptionValue → Option Value} {s : GeneratedStruct}
  {below : List EmittedDecoder} {field : FieldDescriptor} {payload : Bytes}

/-- The decoders that dispatch on raw tags are those of flat messages. -/
theorem flatMessage_of_fast (hs : s.WellDeclared)
    (hfast : messageCanFastRawTagDecode s.file s.message = true) :
    FlatMessage s.file s.message where
  unique := hs.unique
  flat := by
    intro field hmem
    rw [messageCanFastRawTagDecode, Bool.and_eq_true, Bool.and_eq_true, List.all_eq_true] at hfast
    obtain ⟨⟨honeofs, hkinds⟩, -⟩ := hfast
    have hnone : field.oneofName.isNone = true := by
      cases hname : field.oneofName with
      | none => rfl
      | some name =>
          obtain ⟨oneof, honeof, -⟩ := hs.declared field hmem name hname
          rw [List.isEmpty_iff.mp honeofs] at honeof
          cases honeof
    rw [isFlat, hnone, Bool.true_and]
    exact hkinds field hmem

theorem findFieldByNumber_of_mem (hs : s.WellDeclared) (hmem : field ∈ s.message.fields) :
    s.message.findFieldByNumber field.number = some field := by
  unfold MessageDescriptor.findFieldByNumber
  cases hfind : s.message.fields.find? (fun other => other.number == field.number) with
  | none =>
      have hne := List.find?_eq_none.mp hfind field hmem
      simp at hne
  | some other =>
      have hnumber := List.find?_some hfind
      rw [List.inj_on_of_nodup_map hs.unique (List.mem_of_find?_eq_some hfind) hmem
        (by simpa using hnumber)]

/-- The wire types that an encoder writes for a field without messages. -/
def Encodes (file : FileDescriptor) (field : FieldDescriptor) (wireType : WireType) : Prop :=
  wireType = field.kind.wireType ∨ wireType = .lengthDelimited ∧ field.resolvedPacked file = true

theorem isPackable_of_resolvedPacked {file : FileDescriptor}
    (h : field.resolvedPacked file = true) : field.isPackable = true := by
  rw [FieldDescriptor.resolvedPacked] at h
  split at h
  · cases h
  · next hpackable =>
    rw [Bool.not_eq_true, Bool.not_eq_false'] at hpackable
    exact hpackable

/-- The switch on raw tags takes a field for packed where the switch on numbers does. -/
theorem rawTagCase_of_encodes {file : FileDescriptor} {wireType : WireType}
    (hflat : isFlat file field = true) (h : Encodes file field wireType) :
    rawTagCase file field (rawTagValue field.number wireType)
      = some (field.isPackable && wireType == .lengthDelimited) := by
  have hsame : ∀ wt, (rawTagValue field.number wireType == rawTagValue field.number wt)
      = (wireType == wt) := by
    intro wt
    rw [Bool.eq_iff_iff, beq_iff_eq, beq_iff_eq]
    exact ⟨fun heq => (rawTagValue_injective heq).2, fun heq => by rw [heq]⟩
  rw [isFlat, Bool.and_eq_true] at hflat
  unfold rawTagCase rawFieldTag
  cases hkind : field.kind with
  | scalar scalar =>
      simp only [hsame]
      by_cases hpacked : (field.isPackable && wireType == .lengthDelimited) = true
      · rw [if_pos hpacked, hpacked]
      · rw [if_neg hpacked, Bool.eq_false_of_not_eq_true hpacked]
        rcases h with rfl | ⟨rfl, hresolved⟩
        · rw [hkind, if_pos (beq_self_eq_true _)]
        · rw [isPackable_of_resolvedPacked hresolved] at hpacked
          exact (hpacked rfl).elim
  | enumeration name =>
      simp only [hsame]
      rcases h with rfl | ⟨rfl, hresolved⟩
      · rw [hkind]
        simp [FieldKind.wireType]
      · rw [hresolved, isPackable_of_resolvedPacked hresolved]
        rfl
  | _ => rw [hkind] at hflat; cases hflat.2

/-- A field of the input with the number of a field of the struct is read as this field. -/
theorem readMember_field (hs : s.WellDeclared) (hmem : field ∈ s.message.fields)
    {wireType : WireType}
    (hwire : messageCanFastRawTagDecode s.file s.message = true →
      Encodes s.file field wireType) :
    readMember explicitDefault s below (tagBytes field.number wireType ++ payload)
      = (readField explicitDefault s below field { number := field.number, wireType }
          (tagBytes field.number wireType ++ payload) payload).map some := by
  have hvalid := hs.valid field hmem
  unfold readMember
  split
  -- The decoder of a flat message finds the case by the raw tag.
  · next hfast =>
    have hflat := flatMessage_of_fast hs hfast
    have htag := tag_lt hvalid wireType
    have hread : readVarint (tagBytes field.number wireType ++ payload)
        = .ok (rawTagValue field.number wireType, payload) :=
      readVarint_writeVarint (by omega) payload
    have hempty : (tagBytes field.number wireType ++ payload).isEmpty = false := by
      cases hinput : tagBytes field.number wireType ++ payload with
      | nil => rw [hinput] at hread; cases hread
      | cons byte rest => rfl
    have hcase := switchCase_of_field hflat (@rawTagCase_keyed s.file) hmem
      (rawTagValue_div field.number wireType)
    rw [rawTagCase_of_encodes (hflat.flat field hmem) (hwire hfast), Option.map_some] at hcase
    simp only [readMemberByRawTag, hempty, Bool.false_eq_true, if_false, readRawTag_eq, hread,
      hcase]
    have hkind := (Bool.and_eq_true_iff.mp (hflat.flat field hmem)).2
    unfold readField
    cases hk : field.kind with
    | scalar scalar => rfl
    | enumeration name =>
        rw [hk] at hkind
        simp only [Bool.not_eq_true'] at hkind
        simp only [hkind, Bool.false_eq_true, if_false]
    | _ => rw [hk] at hkind; cases hkind
  -- The others decode the tag and look for its number.
  · rw [readMemberByNumber, show nextTag (tagBytes field.number wireType ++ payload)
      = .ok (some ({ number := field.number, wireType }, payload)) from
        nextTag_tag hvalid wireType payload]
    simp only [findFieldByNumber_of_mem hs hmem]

end

/-! ## Programs that are read back -/

theorem programBytes_append {program program' : List (Command EncodeMethods)} {bytes bytes' : Bytes}
    (h : programBytes program = .ok bytes) (h' : programBytes program' = .ok bytes') :
    programBytes (program ++ program') = .ok (bytes ++ bytes') := by
  induction program generalizing bytes with
  | nil =>
      cases h
      exact h'
  | cons command rest ih =>
      obtain ⟨first, hfirst, h⟩ := Check.of_bind_eq_ok h
      obtain ⟨others, hothers, h⟩ := Check.of_bind_eq_ok h
      cases h
      rw [List.cons_append, programBytes, hfirst, ih hothers, List.append_assoc]
      rfl

section

variable (explicitDefault : FieldKind → OptionValue → Option Value) (s : GeneratedStruct)
  (below : List EmittedDecoder)

/-- The bytes of the program are read as the actions, and can be skipped as fields. -/
def ReadAs (program : List (Command EncodeMethods)) (actions : List MemberAction) : Prop :=
  ∃ bytes, programBytes program = .ok bytes ∧ (bytes.length < 2 ^ 64 →
    Reads explicitDefault s below bytes actions ∧ IsFields below.length bytes)

end

section

variable {explicitDefault : FieldKind → OptionValue → Option Value} {s : GeneratedStruct}
  {below : List EmittedDecoder} {field : FieldDescriptor}

theorem ReadAs.nil : ReadAs explicitDefault s below [] [] :=
  ⟨[], rfl, fun _ => ⟨.nil, .nil⟩⟩

theorem ReadAs.append {program program' : List (Command EncodeMethods)}
    {actions actions' : List MemberAction} (h : ReadAs explicitDefault s below program actions)
    (h' : ReadAs explicitDefault s below program' actions') :
    ReadAs explicitDefault s below (program ++ program') (actions ++ actions') := by
  obtain ⟨bytes, hbytes, hread⟩ := h
  obtain ⟨bytes', hbytes', hread'⟩ := h'
  refine ⟨bytes ++ bytes', programBytes_append hbytes hbytes', fun hlength => ?_⟩
  rw [List.length_append] at hlength
  obtain ⟨hactions, hfields⟩ := hread (by omega)
  obtain ⟨hactions', hfields'⟩ := hread' (by omega)
  exact ⟨hactions.append hactions', Fields.append hfields hfields'⟩

theorem ReadAs.flatMap {α : Type} {write : α → List (Command EncodeMethods)}
    {action : α → MemberAction} {xs : List α}
    (h : ∀ x ∈ xs, ReadAs explicitDefault s below (write x) [action x]) :
    ReadAs explicitDefault s below (xs.flatMap write) (xs.map action) := by
  induction xs with
  | nil => exact .nil
  | cons x xs ih =>
      rw [List.flatMap_cons, List.map_cons]
      exact (h x List.mem_cons_self).append (ih fun y hy => h y (List.mem_cons_of_mem _ hy))

/-- One field of the input. -/
theorem ReadAs.single (hs : s.WellDeclared) (hmem : field ∈ s.message.fields)
    {wireType : WireType}
    (hwire : messageCanFastRawTagDecode s.file s.message = true → Encodes s.file field wireType)
    {program : List (Command EncodeMethods)} {payload : Bytes} {action : MemberAction}
    (hbytes : programBytes program = .ok (tagBytes field.number wireType ++ payload))
    (hread : payload.length < 2 ^ 64 →
      readField explicitDefault s below field { number := field.number, wireType }
          (tagBytes field.number wireType ++ payload) payload = .ok (action, [])
        ∧ IsValue (IsGroup below.length) { number := field.number, wireType } payload) :
    ReadAs explicitDefault s below program [action] := by
  refine ⟨_, hbytes, fun hlength => ?_⟩
  rw [List.length_append] at hlength
  obtain ⟨hfield, hvalue⟩ := hread (by omega)
  constructor
  · refine .cons ?_ .nil
    rw [readMember_field hs hmem hwire, hfield]
    rfl
  · exact Fields.single (isTag_tagBytes (hs.valid field hmem) wireType) hvalue

/-! ### Scalars and enums -/

theorem programBytes_utf8Check {kind : FieldKind} {value : Value}
    (h : ValueRestorable s.file field kind value) :
    programBytes (utf8Check s field kind value) = .ok [] := by
  unfold utf8Check
  split
  · split
    · next hverify =>
      have hvalid := h.verified _ rfl (beq_iff_eq.mp hverify)
      simp only [programBytes, commandBytes, hvalid, if_true]
      rfl
    · rfl
  · rfl

/-- Tag and payload of a value, as an encoder writes them in a message or a map entry. -/
theorem programBytes_value {number : Nat} {wireType : WireType} {kind : FieldKind} {value : Value}
    {payload : Bytes} (hvalid : ValidNumber number)
    (h : encodeScalarPayload kind value = .ok payload) :
    programBytes [.tag number wireType, .payload kind value]
      = .ok (tagBytes number wireType ++ payload) := by
  simp only [programBytes, commandBytes, writeTag_eq hvalid, h, ok_bind, pure, Except.pure,
    List.append_nil]
  rfl

theorem not_isPacked (kind : FieldKind) (h : kind.packable = true) :
    (kind.wireType == .lengthDelimited) = false := by
  cases kind with
  | scalar scalar => cases scalar <;> first | rfl | cases h
  | enumeration name => rfl
  | _ => cases h

theorem isPacked_wireType (field : FieldDescriptor) :
    (field.isPackable && field.kind.wireType == .lengthDelimited) = false := by
  cases hpackable : field.isPackable with
  | false => rfl
  | true =>
      rw [FieldDescriptor.isPackable, Bool.and_eq_true] at hpackable
      rw [not_isPacked field.kind hpackable.2]
      rfl

theorem readPlain_one {value : Value} {input rest rest' : Bytes}
    (h : readOne s.file field rest = .ok (value, rest')) :
    readPlain s.file field false input rest = .ok (storeValue field value, rest') := by
  rw [readPlain, if_neg (by decide)]
  exact reading_eq_ok.mpr ⟨value, h, rfl⟩

theorem readClosedEnum_one {name : Bytes} {v : BitVec 32} {input rest rest' : Bytes}
    (h : readInt32 rest = .ok (v, rest')) (hknown : enumKnown s.file name v = true) :
    readClosedEnum s.file field name false input rest
      = .ok (storeValue field (.enumeration v), rest') := by
  rw [readClosedEnum, if_neg (by decide)]
  exact reading_eq_ok.mpr ⟨v, h, by rw [if_pos hknown]⟩

/-- One value of a field is read back. -/
theorem writeValue_readAs (hs : s.WellDeclared) (hmem : field ∈ s.message.fields) {value : Value}
    (h : ValueRestorable s.file field field.kind value) :
    ReadAs explicitDefault s below (writeValue s field value) [storeValue field value] := by
  obtain ⟨payload, hpayload⟩ := exists_payload h
  have hbytes := programBytes_append (programBytes_utf8Check h)
    (@programBytes_value _ field.kind.wireType _ _ _ (hs.valid field hmem) hpayload)
  refine .single hs hmem (fun _ => .inl rfl) hbytes fun hlength =>
    ⟨?_, isValue_payload hpayload hlength⟩
  have hone := readOne_payload h hpayload hlength []
  rw [List.append_nil] at hone
  unfold readField
  rw [isPacked_wireType]
  cases hkind : field.kind with
  | scalar scalar => exact readPlain_one hone
  | enumeration name =>
      simp only
      split
      · next hclosed =>
        rw [hkind] at h
        obtain ⟨v, rfl, hknown⟩ := h
        rw [readOne, hkind] at hone
        obtain ⟨found, hfound, heq⟩ := readResult_map_ok hone
        cases heq
        exact readClosedEnum_one hfound (hknown hclosed)
      · exact readPlain_one hone
  | _ => rw [hkind] at h; cases h

/-! ### Packed fields -/

theorem length_payloads {kind : FieldKind} :
    ∀ {values : List Value} {payloads : Bytes},
      encodePayloads (encodeScalarPayload kind) values = .ok payloads →
        payloads.length < 2 ^ 64 → payloads.length = (values.map (payloadSize kind)).sum
  | [], _, h, _ => by cases h; rfl
  | value :: values, _, h, hlength => by
      obtain ⟨first, hfirst, h⟩ := Check.of_bind_eq_ok h
      obtain ⟨others, hothers, h⟩ := Check.of_bind_eq_ok h
      cases h
      rw [List.length_append] at hlength ⊢
      rw [length_payload hfirst (by omega), length_payloads hothers (by omega), List.map_cons,
        List.sum_cons]

/-- The payloads of an open packed field are taken apart again. -/
theorem packedAppend_payloads (hpackable : field.kind.packable = true) {values : List Value}
    (h : ∀ value ∈ values, ValueRestorable s.file field field.kind value) :
    ∃ payloads, encodePayloads (encodeScalarPayload field.kind) values = .ok payloads
      ∧ packedAppend field payloads = .ok values := by
  unfold packedAppend
  cases hkind : field.kind with
  | scalar scalar =>
      rw [hkind] at h hpackable
      have htype : ∀ value ∈ values, value.hasScalarType scalar = true :=
        fun value hvalue => (h value hvalue).hasType
      obtain ⟨payloads, hpayloads, hrun⟩ := packedScalar_run hpackable htype
      refine ⟨payloads, hpayloads, ?_⟩
      simp only
      -- Words are cut out of the payload by their width, all else is read one by one.
      cases hwidth : fixedWidthPackedScalarSize scalar with
      | none => rw [packedScalarAppend_varint hwidth, packedValues, hrun]
      | some width =>
          obtain ⟨hlength, hvalues⟩ := fixedWidthValues_ok hwidth htype hpayloads
          have hpos : 0 < width := by
            cases scalar <;> simp only [fixedWidthPackedScalarSize, Option.some.injEq,
              reduceCtorEq] at hwidth <;> omega
          rw [packedScalarAppend_fixedWidth hwidth, appendPackedFixedWidth, hlength,
            Nat.mul_mod_left, Nat.mul_div_cancel _ hpos, hvalues, if_neg (by simp)]
  | enumeration name =>
      rw [hkind] at h
      have hvalues : ∀ value ∈ values, ∃ bytes,
          encodeScalarPayload (.enumeration name) value = .ok bytes
            ∧ ∀ (s : List Value) rest,
                packedPass (fun input => (readInt32 input).map .enumeration) s (bytes ++ rest)
                  = .next (s ++ [value]) rest := by
        intro value hmem
        obtain ⟨v, rfl, -⟩ := h value hmem
        refine ⟨_, rfl, fun s rest => ?_⟩
        have hread := readInt32_writeVarintInt32 v rest
        have hne : ¬ (writeVarintInt32 v ++ rest).isEmpty = true := by
          intro hempty
          rw [List.isEmpty_iff.mp hempty] at hread
          cases hread
        rw [packedPass, if_neg hne, hread]
        rfl
      have hconsumes : Consumes (fun input => (readInt32 input).map Value.enumeration) :=
        decodeScalarLike_consumes (.enumeration name)
      obtain ⟨payloads, hpayloads, hrun⟩ :=
        packed_run (packedPass_consuming hconsumes) (fun _ => rfl) hvalues
      refine ⟨payloads, hpayloads, ?_⟩
      simp only
      rw [appendPackedInt32_eq, packedValues, hrun, foldl_push]
      rfl
  | _ => rw [hkind] at hpackable; cases hpackable

theorem closedEnumPass_consuming (file : FileDescriptor) (name : Bytes) (number : Nat) :
    Loop.Consuming (closedEnumPass file name number) := by
  intro found input found' rest h
  have hconsumes : Consumes readInt32 := by
    intro bs v rest hread
    obtain ⟨_, hraw, -⟩ := readResult_map_ok hread
    exact readVarint_consumes _ _ _ hraw
  rw [closedEnumPass] at h
  split at h
  · cases h
  · split at h
    · cases h
    · next hread =>
      split at h
      · cases h
        exact hconsumes _ _ _ hread
      · split at h
        · cases h
        · cases h
          exact hconsumes _ _ _ hread

/-- The payloads of a closed enum have no numbers that it does not know. -/
theorem readClosedEnumPayload_payloads {name : Bytes} {values : List Value}
    (h : ∀ value ∈ values, ∃ v, value = .enumeration v ∧ enumKnown s.file name v = true) :
    ∃ payloads, encodePayloads (encodeScalarPayload (.enumeration name)) values = .ok payloads
      ∧ readClosedEnumPayload s.file field name payloads
          = .ok (.append field (values.map .value) []) := by
  have hvalues : ∀ value ∈ values, ∃ bytes,
      encodeScalarPayload (.enumeration name) value = .ok bytes
        ∧ ∀ (found : List Element × List Bytes) rest,
            closedEnumPass s.file name field.number found (bytes ++ rest)
              = .next (found.1 ++ [.value value], found.2) rest := by
    intro value hmem
    obtain ⟨v, rfl, hknown⟩ := h value hmem
    refine ⟨_, rfl, fun found rest => ?_⟩
    have hread := readInt32_writeVarintInt32 v rest
    have hne : ¬ (writeVarintInt32 v ++ rest).isEmpty = true := by
      intro hempty
      rw [List.isEmpty_iff.mp hempty] at hread
      cases hread
    rw [closedEnumPass, if_neg hne, hread]
    simp only [hknown, if_true]
  obtain ⟨payloads, hpayloads, hrun⟩ :=
    packed_run (closedEnumPass_consuming s.file name field.number) (fun _ => rfl) hvalues
  refine ⟨payloads, hpayloads, ?_⟩
  have hpush : ∀ (values : List Value) (found : List Element × List Bytes),
      values.foldl (fun found value => (found.1 ++ [Element.value value], found.2)) found
        = (found.1 ++ values.map .value, found.2) := by
    intro values
    induction values with
    | nil => intro found; simp
    | cons value rest ih => intro found; rw [List.foldl_cons, ih]; simp
  rw [readClosedEnumPayload, hrun, hpush]
  rfl

/-- The payloads of a packed field, behind their length. -/
theorem writePacked_readAs (hs : s.WellDeclared) (hmem : field ∈ s.message.fields)
    (hpacked : field.resolvedPacked s.file = true) {values : List Value}
    (h : ∀ value ∈ values, ValueRestorable s.file field field.kind value) :
    ReadAs explicitDefault s below (writePacked s field hpacked values)
      [.append field (values.map .value) []] := by
  have hpackable := isPackable_of_resolvedPacked hpacked
  have hkindPackable := packable_of_resolvedPacked hpacked
  -- What is behind the length, and what the decoder makes of it.
  obtain ⟨payloads, hpayloads, hread⟩ :
      ∃ payloads, encodePayloads (encodeScalarPayload field.kind) values = .ok payloads
        ∧ ∀ input rest, readBytes rest = .ok (payloads, []) →
            readField explicitDefault s below field
              { number := field.number, wireType := .lengthDelimited } input rest
              = .ok (.append field (values.map .value) [], []) := by
    unfold readField
    rw [hpackable]
    -- Only the payload of a closed enum is taken apart into elements and raw fields.
    by_cases hclosed : ∃ name, field.kind = .enumeration name ∧ enumIsClosed s.file name = true
    · obtain ⟨name, hkind, hclosed⟩ := hclosed
      rw [hkind] at h ⊢
      obtain ⟨payloads, hpayloads, happend⟩ := @readClosedEnumPayload_payloads s field name values
        (fun value hvalue => by
          obtain ⟨v, heq, hknown⟩ := h value hvalue
          exact ⟨v, heq, hknown hclosed⟩)
      refine ⟨payloads, hpayloads, fun input rest hrest => ?_⟩
      have hkept : readClosedEnum s.file field name true input rest
          = .ok (.append field (values.map .value) [], []) := by
        rw [readClosedEnum, if_pos rfl]
        exact reading_eq_ok.mpr ⟨payloads, hrest, happend⟩
      simp only [hclosed, if_true]
      exact hkept
    · obtain ⟨payloads, hpayloads, happend⟩ := packedAppend_payloads hkindPackable h
      refine ⟨payloads, hpayloads, fun input rest hrest => ?_⟩
      have hplain : readPlain s.file field true input rest
          = .ok (.append field (values.map .value) [], []) := by
        rw [readPlain, if_pos rfl]
        exact reading_eq_ok.mpr ⟨payloads, hrest, by rw [happend]; rfl⟩
      cases hkind : field.kind with
      | scalar scalar => exact hplain
      | enumeration name =>
          have hopen : enumIsClosed s.file name = false :=
            Bool.eq_false_of_not_eq_true fun hclosed' => hclosed ⟨name, hkind, hclosed'⟩
          simp only [hopen, Bool.false_eq_true, if_false]
          exact hplain
      | _ => rw [hkind] at hkindPackable; cases hkindPackable
  have hbytes : programBytes (writePacked s field hpacked values)
      = .ok (tagBytes field.number .lengthDelimited
          ++ (writeVarint (packedLength field.kind values) ++ payloads)) := by
    simp only [writePacked, programBytes, commandBytes, packedBytes,
      writeTag_eq (hs.valid field hmem), hpayloads, ok_bind, pure, Except.pure, List.append_nil,
      List.append_assoc]
    rfl
  refine .single hs hmem (fun _ => .inr ⟨rfl, hpacked⟩) hbytes fun hlength => ?_
  rw [List.length_append] at hlength
  have hsize : packedLength field.kind values = payloads.length := by
    rw [packedLength_eq, length_payloads hpayloads (by omega)]
  have hvarint := isVarint_writeVarint (show payloads.length < 2 ^ 64 by omega)
  rw [hsize]
  constructor
  · apply hread
    have hbytes := hvarint.readBytes_append []
    rwa [List.append_nil] at hbytes
  · exact ⟨_, payloads, rfl, hvarint⟩

end

end Codegen

end Pbz
