import Pbz.Codegen.EmittedReadBack

set_option autoImplicit false

/-! # Reading back messages and map entries

What an emitted encoder writes for a message inside a message, or for a map entry, is read back if
the message is read back by the decoders of the next level. What is asked of these messages is a
parameter (`Demand`), one for each level (`Upheld`).
-/

namespace Pbz

namespace Codegen

/-! ## Messages -/

/-- What is required of a message that is held as a struct. -/
abbrev Demand := GeneratedStruct → EmittedMessage → Prop

section

variable (spare : Nat → Nat)

/-- The encoder of a struct writes the message, and the decoder reads it again. -/
def MessageRestored (decode : EmittedDecoder) (levels : Nat) : Demand := fun t message =>
  ∃ bytes, message.writeTo spare t = .ok bytes ∧
    (bytes.length < 2 ^ 64 → decode t bytes = .ok message ∧ IsFields levels bytes)

/-- What meets the demand of a level is read back by the decoder of this level. -/
inductive Upheld : List EmittedDecoder → List Demand → Prop
  | nil : Upheld [] []
  | cons {decode : EmittedDecoder} {decoders : List EmittedDecoder} {demand : Demand}
      {demands : List Demand}
      (h : ∀ t message, demand t message → MessageRestored spare decode decoders.length t message)
      (hrest : Upheld decoders demands) : Upheld (decode :: decoders) (demand :: demands)

end

/-- A message of the next level. -/
def NestedRestorable (demands : List Demand) : Demand :=
  match demands with
  | [] => fun _ _ => False
  | demand :: _ => demand

/-- `encodedSize` counts as many bytes for the message as are written for it. -/
def HasExactSize (t : GeneratedStruct) (message : EmittedMessage) : Prop :=
  (message.encodeSpec t).inRange = true
    ∧ (message.encodeSpec t).lengths = (message.encodeSpec t).endTags

theorem encodedSize_of_exact {spare : Nat → Nat} {t : GeneratedStruct} {message : EmittedMessage}
    {bytes : Bytes} (h : HasExactSize t message) (hbytes : message.writeTo spare t = .ok bytes) :
    message.encodedSize spare t = bytes.length := by
  have hmethods := message.methods_hasSize spare t
  have hlength := hmethods.length h.1 bytes hbytes
  have hsize : message.encodedSize spare t = (message.encodeSpec t).size := hmethods.size
  have hexact := h.2
  omega

/-- The field is written between two tags. -/
def isDelimited (file : FileDescriptor) (field : FieldDescriptor) : Bool :=
  field.kind.isGroup || fieldMessageEncoding file field == .delimited

/-- A message field that is no map. -/
def IsMessageField (field : FieldDescriptor) : Prop :=
  ∃ name, field.kind = .message name ∨ field.kind = .group name

/-- What is kept of a message that is written between two tags can be read up to the end tag. -/
def KeptRestorable (file : FileDescriptor) (levels : Nat) (field : FieldDescriptor)
    (bytes : Bytes) : Prop :=
  isDelimited file field = true → ∃ below, levels = below + 1 ∧ IsFields below bytes

/-- What a slice or a oneof may hold; `struct` is the struct of the messages in it. -/
def ElementRestorable (demands : List Demand) (file : FileDescriptor) (field : FieldDescriptor)
    (struct : Option GeneratedStruct) : Element → Prop
  | .value value => ValueRestorable file field field.kind value
  | .payload bytes =>
      IsMessageField field ∧ struct = none ∧ KeptRestorable file demands.length field bytes
  | .message message =>
      ∃ t, struct = some t ∧ NestedRestorable demands t message
        ∧ (field.kind.isGroup = false → HasExactSize t message)

section

variable {explicitDefault : FieldKind → OptionValue → Option Value} {s : GeneratedStruct}
  {below : List EmittedDecoder} {field : FieldDescriptor} {spare : Nat → Nat}
  {demands : List Demand}

theorem Upheld.length_eq (h : Upheld spare below demands) : below.length = demands.length := by
  induction h with
  | nil => rfl
  | cons _ _ ih => rw [List.length_cons, List.length_cons, ih]

/-- A message of the next level is read by the next decoder. -/
theorem Upheld.nested (h : Upheld spare below demands) {t : GeneratedStruct}
    {message : EmittedMessage} (hfits : NestedRestorable demands t message) :
    ∃ bytes, message.writeTo spare t = .ok bytes ∧ (bytes.length < 2 ^ 64 →
      decodeNested below t bytes = .ok message
        ∧ ∃ levels, below.length = levels + 1 ∧ IsFields levels bytes) := by
  cases h with
  | nil => exact hfits.elim
  | cons hdecode _ =>
      obtain ⟨bytes, hbytes, hread⟩ := hdecode t message hfits
      refine ⟨bytes, hbytes, fun hlength => ?_⟩
      obtain ⟨hmessage, hfields⟩ := hread hlength
      exact ⟨hmessage, _, rfl, hfields⟩

theorem not_fast (hs : s.WellDeclared) (hmem : field ∈ s.message.fields)
    (h : isFlat s.file field = false) : messageCanFastRawTagDecode s.file s.message ≠ true := by
  intro hfast
  rw [(flatMessage_of_fast hs hfast).flat field hmem] at h
  cases h

theorem IsMessageField.not_flat {file : FileDescriptor} (h : IsMessageField field) :
    isFlat file field = false := by
  obtain ⟨name, hkind | hkind⟩ := h
  · rw [isFlat, hkind, Bool.and_false]
  · rw [isFlat, hkind, Bool.and_false]

theorem readGroupBytes_fields {number levels : Nat} (hvalid : ValidNumber number) {body : Bytes}
    (h : IsFields levels body) :
    readGroupBytes (levels + 1) number (body ++ tagBytes number .endGroup) = .ok (body, [])
      ∧ IsGroup (levels + 1) number (body ++ tagBytes number .endGroup) := by
  have hgroup : IsGroup (levels + 1) number (body ++ tagBytes number .endGroup) :=
    ⟨body, _, rfl, h, isTag_tagBytes hvalid .endGroup⟩
  refine ⟨?_, hgroup⟩
  have hskip := (skipGroup_skips (levels + 1) number).append hgroup []
  rw [List.append_nil] at hskip
  have hsize : tagSize number .endGroup = (tagBytes number .endGroup).length := rfl
  simp only [readGroupBytes, hskip, hsize, List.length_append, List.length_nil, Nat.sub_zero,
    Nat.add_sub_cancel, List.take_left']

/-- The bytes of a message field are read back, whatever is stored of them. -/
theorem message_readAs (hs : s.WellDeclared) (hmem : field ∈ s.message.fields)
    (hkind : IsMessageField field) {program : List (Command EncodeMethods)} {body : Bytes}
    {action : MemberAction}
    (hbytes : programBytes program = .ok (if isDelimited s.file field then
        tagBytes field.number .startGroup ++ (body ++ tagBytes field.number .endGroup)
      else tagBytes field.number .lengthDelimited ++ (writeVarint body.length ++ body)))
    (hbody : body.length < 2 ^ 64 → KeptRestorable s.file below.length field body
      ∧ storeMessage s below field body = .ok action) :
    ReadAs explicitDefault s below program [action] := by
  have hwire : ∀ wireType, messageCanFastRawTagDecode s.file s.message = true →
      Encodes s.file field wireType :=
    fun _ hfast => (not_fast hs hmem hkind.not_flat hfast).elim
  have hread : ∀ {tag : Tag} {input rest : Bytes},
      readMessagePayload s.file field below.length rest = .ok (body, []) →
        storeMessage s below field body = .ok action →
          readField explicitDefault s below field tag input rest = .ok (action, []) := by
    intro tag input rest hpayload hstore
    have hreading : reading (readMessagePayload s.file field below.length)
        (fun payload _ => storeMessage s below field payload) input rest = .ok (action, []) :=
      reading_eq_ok.mpr ⟨body, hpayload, hstore⟩
    unfold readField
    obtain ⟨name, hkind | hkind⟩ := hkind
    · rw [hkind]
      exact hreading
    · rw [hkind]
      exact hreading
  by_cases hdelimited : isDelimited s.file field = true
  -- The payload ends in front of the end tag, which is found by skipping the fields of the group.
  · rw [if_pos hdelimited] at hbytes
    refine .single hs hmem (hwire .startGroup) hbytes fun hlength => ?_
    rw [List.length_append] at hlength
    obtain ⟨hkept, hstore⟩ := hbody (by omega)
    obtain ⟨levels, hlevels, hfields⟩ := hkept hdelimited
    obtain ⟨hgroup, hvalue⟩ := readGroupBytes_fields (hs.valid field hmem) hfields
    rw [← hlevels] at hgroup hvalue
    refine ⟨hread ?_ hstore, hvalue⟩
    rw [isDelimited] at hdelimited
    rw [readMessagePayload, if_pos hdelimited, hgroup]
  -- The payload is as long as the varint in front of it says.
  · rw [if_neg hdelimited] at hbytes
    refine .single hs hmem (hwire .lengthDelimited) hbytes fun hlength => ?_
    rw [List.length_append] at hlength
    have hvarint := isVarint_writeVarint (show body.length < 2 ^ 64 by omega)
    have hpayload := hvarint.readBytes_append []
    rw [List.append_nil] at hpayload
    refine ⟨hread ?_ (hbody (by omega)).2, ⟨_, body, rfl, hvarint⟩⟩
    rw [isDelimited] at hdelimited
    rw [readMessagePayload, if_neg hdelimited, hpayload]

/-- A message that is kept as bytes. -/
theorem writeKept_readAs (hs : s.WellDeclared) (hmem : field ∈ s.message.fields)
    (hkind : IsMessageField field) {grows : Bool} {bytes : Bytes} {action : MemberAction}
    (hkept : KeptRestorable s.file below.length field bytes)
    (hstore : storeMessage s below field bytes = .ok action) :
    ReadAs explicitDefault s below (writeKept s field grows bytes) [action] := by
  refine message_readAs hs hmem hkind ?_ (fun _ => ⟨hkept, hstore⟩)
  have hvalid := hs.valid field hmem
  simp only [writeKept, programBytes, commandBytes, keptBytes, keptForm, isDelimited]
  by_cases hgroup : field.kind.isGroup = true
  · simp only [hgroup, if_true, Bool.true_or, writeGroup_ok hvalid, ok_bind, pure, Except.pure,
      List.append_nil]
  · by_cases hdelimited : (fieldMessageEncoding s.file field == .delimited) = true
    · simp only [hgroup, hdelimited, if_true, Bool.or_true, Bool.false_eq_true, if_false,
        writeGroup_ok hvalid, ok_bind, pure, Except.pure, List.append_nil]
    · simp only [hgroup, hdelimited, Bool.or_self, Bool.false_eq_true, if_false, writeMessage,
        writeBytes_ok hvalid, ok_bind, pure, Except.pure, List.append_nil, lengthPrefixed]

/-- The fields with a struct are message fields, and those that are no groups have a length in
front. -/
theorem of_nestedTypeName {name : Bytes} (h : nestedTypeName s.file field = some name) :
    IsMessageField field ∧ isDelimited s.file field = field.kind.isGroup := by
  unfold nestedTypeName at h
  unfold isDelimited
  cases hkind : field.kind with
  | message typeName =>
      rw [hkind] at h
      simp only at h
      split at h
      · cases h
      · next hencoding =>
        refine ⟨⟨typeName, .inl hkind⟩, ?_⟩
        cases hdelimited : fieldMessageEncoding s.file field with
        | lengthPrefixed => rfl
        | delimited => rw [hdelimited] at hencoding; exact (hencoding rfl).elim
  | group typeName => exact ⟨⟨typeName, .inr hkind⟩, rfl⟩
  | _ => rw [hkind] at h; cases h

/-- A message that is held as a struct. -/
theorem writeTyped_readAs (hs : s.WellDeclared) (hmem : field ∈ s.message.fields)
    (hup : Upheld spare below demands) {name : Bytes}
    (hname : nestedTypeName s.file field = some name) {t : GeneratedStruct}
    {message : EmittedMessage} (hfits : NestedRestorable demands t message)
    (hexact : field.kind.isGroup = false → HasExactSize t message) {action : MemberAction}
    (hstore : ∀ body, decodeNested below t body = .ok message →
      storeMessage s below field body = .ok action) :
    ReadAs explicitDefault s below
      (writeTyped EncodeMethods.encodedSize field (message.methods spare t)) [action] := by
  obtain ⟨hkind, hdelimited⟩ := of_nestedTypeName hname
  obtain ⟨body, hbody, hread⟩ := hup.nested hfits
  have hwritten : (message.methods spare t).writeTo = .ok body := hbody
  have hvalid := hs.valid field hmem
  refine @message_readAs _ _ _ _ hs hmem hkind _ body action ?_ (fun hlength => ?_)
  · rw [hdelimited, writeTyped]
    by_cases hgroup : field.kind.isGroup = true
    · simp only [hgroup, if_true, programBytes, commandBytes, writeTag_eq hvalid, hwritten, ok_bind,
        pure, Except.pure, List.append_nil]
      rfl
    -- The length in front is `encodedSize`; only an exact one ends where the message does.
    · have hsize : (message.methods spare t).encodedSize = body.length :=
        encodedSize_of_exact (hexact (Bool.eq_false_of_not_eq_true hgroup)) hbody
      simp only [hgroup, Bool.false_eq_true, if_false, programBytes, commandBytes, hsize,
        writeTag_eq hvalid, hwritten, ok_bind, pure, Except.pure, List.append_nil]
      rfl
  · obtain ⟨hmessage, hlevels⟩ := hread hlength
    exact ⟨fun _ => hlevels, hstore body hmessage⟩

/-- An element of a slice, or the member of a oneof; `make` is how the decoder stores it. -/
theorem writeElement_readAs (hs : s.WellDeclared) (hmem : field ∈ s.message.fields)
    (hup : Upheld spare below demands) {struct : Option GeneratedStruct}
    (htyped : struct.isSome = true → ∃ name, nestedTypeName s.file field = some name)
    {make : Element → MemberAction}
    (hvalue : ∀ value, storeValue field value = make (.value value))
    (hmake : ∀ payload, storeMessage s below field payload
      = (messageElement below struct payload).map make)
    {grows : Bool} {element : Element}
    (hfits : ElementRestorable demands s.file field struct element) :
    ReadAs explicitDefault s below
      (writeElement EncodeMethods.encodedSize s field struct grows
        (element.fold (encodeMethods spare))) [make element] := by
  cases element with
  | value value =>
      rw [← hvalue]
      exact writeValue_readAs hs hmem hfits
  | payload bytes =>
      obtain ⟨hkind, rfl, hkept⟩ := hfits
      refine writeKept_readAs hs hmem hkind (by rw [hup.length_eq]; exact hkept) ?_
      rw [hmake]
      rfl
  | message message =>
      obtain ⟨t, rfl, hnested, hexact⟩ := hfits
      obtain ⟨name, hname⟩ := htyped rfl
      refine writeTyped_readAs hs hmem hup hname hnested hexact fun body hbody => ?_
      rw [hmake, messageElement, hbody]
      rfl

end

/-! ## Map entries -/

/-- What a map may hold as a value; the demands are those below the reader of the entry. -/
def MapValueRestorable (demands : List Demand) (s : GeneratedStruct) (field : FieldDescriptor)
    (kind : FieldKind) : Element → Prop
  | .value value => ValueRestorable s.file field kind value
  | .payload _ => s.typedMapValue field = none ∧ ∃ name, kind = .message name
  | .message message =>
      ∃ t, s.typedMapValue field = some t ∧ (∃ name, kind = .message name)
        ∧ NestedRestorable demands t message ∧ HasExactSize t message

/-- What a map may hold as an entry. -/
def EntryRestorable (demands : List Demand) (s : GeneratedStruct) (field : FieldDescriptor)
    (key : ScalarType) (kind : FieldKind) (entry : Value × Element) : Prop :=
  match demands with
  | [] => False
  | _ :: demands =>
      ScalarTyped s.file field key entry.1 ∧ MapValueRestorable demands s field kind entry.2

section

variable {explicitDefault : FieldKind → OptionValue → Option Value} {s : GeneratedStruct}
  {below : List EmittedDecoder} {field : FieldDescriptor} {spare : Nat → Nat}
  {demands : List Demand}

theorem length_tagBytes {number : Nat} (h : ValidNumber number) (wireType : WireType) :
    (tagBytes number wireType).length = tagWidth number wireType :=
  length_writeTag h (writeTag_eq h wireType)

/-- The value of an entry is written with the number two, and is read back. -/
theorem writeMapValue_reads (hup : Upheld spare below demands) {kind : FieldKind}
    {element : Element} (h : MapValueRestorable demands s field kind element) :
    ∃ wireType payload,
      programBytes (writeMapValue EncodeMethods.encodedSize s field kind
          (element.fold (encodeMethods spare))) = .ok (tagBytes 2 wireType ++ payload)
        ∧ (payload.length < 2 ^ 64 →
          mapValueSize EncodeMethods.encodedSize s field kind (element.fold (encodeMethods spare))
              = (tagBytes 2 wireType ++ payload).length
            ∧ readEntryValue s below field kind payload = .ok (some element, [])) := by
  have htwo : ValidNumber 2 := by decide
  cases element with
  | value value =>
      obtain ⟨payload, hpayload⟩ := exists_payload h
      refine ⟨kind.wireType, payload, programBytes_value htwo hpayload, fun hlength => ⟨?_, ?_⟩⟩
      · rw [List.length_append, length_tagBytes htwo, length_payload hpayload hlength]
        rfl
      · cases kind with
        | scalar scalar =>
            have hread := readScalarField_payload h hpayload hlength []
            rw [List.append_nil] at hread
            simp only [readEntryValue, hread, ReadResult.map]
        | enumeration name =>
            obtain ⟨v, rfl, hknown⟩ := h
            cases hpayload
            have hread := readInt32_writeVarintInt32 v []
            rw [List.append_nil] at hread
            have hskip : ¬ (enumIsClosed s.file name && !enumKnown s.file name v) = true := by
              intro hboth
              rw [Bool.and_eq_true, Bool.not_eq_true'] at hboth
              rw [hknown hboth.1] at hboth
              cases hboth.2
            simp only [readEntryValue, hread, ReadResult.map, if_neg hskip]
        | _ => cases h
  | payload bytes =>
      obtain ⟨htyped, name, rfl⟩ := h
      refine ⟨.lengthDelimited, lengthPrefixed bytes, ?_, fun hlength => ?_⟩
      · simp only [Element.fold, writeMapValue, programBytes, commandBytes, keptBytes, writeMessage,
          writeBytes_ok htwo, ok_bind, pure, Except.pure, List.append_nil]
      · rw [lengthPrefixed, List.length_append] at hlength
        have hread := readBytes_lengthPrefixed (show bytes.length < 2 ^ 64 by omega) []
        rw [List.append_nil] at hread
        constructor
        · rw [List.length_append, length_tagBytes htwo, lengthPrefixed, List.length_append,
            writeVarint_length (by omega)]
          rfl
        · simp only [readEntryValue, hread, htyped, messageElement]
  | message message =>
      obtain ⟨t, htyped, ⟨name, rfl⟩, hnested, hexact⟩ := h
      obtain ⟨body, hbody, hread⟩ := hup.nested hnested
      have hwritten : (message.methods spare t).writeTo = .ok body := hbody
      have hsize : (message.methods spare t).encodedSize = body.length :=
        encodedSize_of_exact hexact hbody
      refine ⟨.lengthDelimited, lengthPrefixed body, ?_, fun hlength => ?_⟩
      · have hmethods : message.fold (encodeMethods spare) t = message.methods spare t := rfl
        simp only [Element.fold, writeMapValue, htyped, hmethods, programBytes, commandBytes, hsize,
          writeTag_eq htwo, hwritten, ok_bind, pure, Except.pure, List.append_nil]
        rfl
      · rw [lengthPrefixed, List.length_append] at hlength
        have hprefixed := readBytes_lengthPrefixed (show body.length < 2 ^ 64 by omega) []
        rw [List.append_nil] at hprefixed
        constructor
        · have hmethods : message.fold (encodeMethods spare) t = message.methods spare t := rfl
          have hone : (tagBytes 2 .lengthDelimited).length = 1 := by decide
          simp only [Element.fold, mapValueSize, htyped, hmethods, hsize]
          rw [List.length_append, hone, lengthPrefixed, List.length_append,
            writeVarint_length (by omega), Nat.add_assoc]
        · simp only [readEntryValue, hprefixed, htyped, messageElement,
            (hread (by omega)).1, Except.map]

/-- The loop over an entry reads its key and its value. -/
theorem run_mapEntryPass {key : ScalarType} {kind : FieldKind} {entry : EmittedEntry}
    {keyPayload valuePayload : Bytes} {wireType : WireType} {found : Value} {element : Element}
    (hkey : ∀ rest, readScalarField s.file field key (keyPayload ++ rest) = .ok (found, rest))
    (hvalue : readEntryValue s below field kind valuePayload = .ok (some element, [])) :
    Loop.run (mapEntryPass s below field key kind) entry
        (tagBytes 1 key.wireType ++ (keyPayload ++ (tagBytes 2 wireType ++ valuePayload)))
      = ({ entry with key := found, value := element }, .ok []) := by
  have hfirst : mapEntryPass s below field key kind entry
      (tagBytes 1 key.wireType ++ (keyPayload ++ (tagBytes 2 wireType ++ valuePayload)))
        = .next { entry with key := found } (tagBytes 2 wireType ++ valuePayload) := by
    rw [mapEntryPass, show nextTag (tagBytes 1 key.wireType
      ++ (keyPayload ++ (tagBytes 2 wireType ++ valuePayload))) = _ from
        nextTag_tag (by decide) key.wireType _]
    simp only [if_true, hkey]
  have hsecond : mapEntryPass s below field key kind { entry with key := found }
      (tagBytes 2 wireType ++ valuePayload)
        = .next { entry with key := found, value := element } [] := by
    rw [mapEntryPass, show nextTag (tagBytes 2 wireType ++ valuePayload) = _ from
      nextTag_tag (by decide) wireType _]
    simp only [hvalue, if_true, if_false, OfNat.ofNat_ne_one]
  have hend : mapEntryPass s below field key kind { entry with key := found, value := element } []
      = .done { entry with key := found, value := element } [] := rfl
  -- Each of the two fields takes a pass, and each has at least the byte of its tag.
  have hone : 0 < (tagBytes 1 key.wireType).length := writeVarint_length_pos _
  have htwo : 0 < (tagBytes 2 wireType).length := writeVarint_length_pos _
  obtain ⟨passes, hpasses⟩ : ∃ passes,
      (tagBytes 1 key.wireType
        ++ (keyPayload ++ (tagBytes 2 wireType ++ valuePayload))).length + 1 = passes + 3 := by
    simp only [List.length_append]
    exact ⟨_, (Nat.sub_add_cancel (by omega)).symm⟩
  rw [Loop.run_eq_iterate, hpasses, Loop.iterate_succ, hfirst]
  simp only [Loop.iterate_succ, hsecond, hend]

/-- An entry is read back. -/
theorem writeMapEntry_readAs (hs : s.WellDeclared) (hmem : field ∈ s.message.fields)
    (hup : Upheld spare below demands) {key : ScalarType} {kind : FieldKind}
    (hkind : field.kind = .map key kind) {entry : Value × Element}
    (h : EntryRestorable demands s field key kind entry) :
    ReadAs explicitDefault s below
      (writeMapEntry EncodeMethods.encodedSize s field key kind
        (entry.1, entry.2.fold (encodeMethods spare))) [.put field entry] := by
  obtain ⟨found, element⟩ := entry
  cases hup with
  | nil => exact h.elim
  | cons _ hrest =>
      obtain ⟨hkey, hvalue⟩ := h
      have hkeyFits : ValueRestorable s.file field (.scalar key) found := hkey
      obtain ⟨keyPayload, hkeyPayload⟩ := exists_payload hkeyFits
      obtain ⟨wireType, valuePayload, hvalueBytes, hread⟩ := writeMapValue_reads hrest hvalue
      have hvalueCheck : programBytes (mapValueCheck s field kind
          (element.fold (encodeMethods spare))) = .ok [] := by
        cases element with
        | value value => exact programBytes_utf8Check hvalue
        | _ => rfl
      have hvalid := hs.valid field hmem
      have hone : ValidNumber 1 := by decide
      generalize hentry : mapKeySize key found + mapValueSize EncodeMethods.encodedSize s field kind
        (element.fold (encodeMethods spare)) = entryLen
      have hbytes := programBytes_append
        (programBytes_append (programBytes_append (programBytes_utf8Check hkeyFits) hvalueCheck)
          (show programBytes [.tag field.number .lengthDelimited, .varint entryLen,
              .tag 1 key.wireType, .payload (.scalar key) found]
            = .ok (tagBytes field.number .lengthDelimited
                ++ (writeVarint entryLen ++ (tagBytes 1 key.wireType ++ keyPayload))) by
            simp only [programBytes, commandBytes, writeTag_eq hvalid, writeTag_eq hone,
              hkeyPayload, ok_bind, pure, Except.pure, List.append_nil]
            rfl))
        hvalueBytes
      rw [← hentry] at hbytes
      simp only [List.nil_append, List.append_assoc] at hbytes
      have hwire : messageCanFastRawTagDecode s.file s.message = true →
          Encodes s.file field .lengthDelimited :=
        fun hfast => (not_fast hs hmem (by rw [isFlat, hkind, Bool.and_false]) hfast).elim
      refine .single hs hmem hwire
        (show programBytes (writeMapEntry EncodeMethods.encodedSize s field key kind
          (found, element.fold (encodeMethods spare))) = _ by
            rw [writeMapEntry]
            simp only [List.append_assoc]
            exact hbytes) fun hlength => ?_
      simp only [List.length_append] at hlength
      obtain ⟨hsize, helement⟩ := hread (by omega)
      have hentryLen : mapKeySize key found + mapValueSize EncodeMethods.encodedSize s field kind
          (element.fold (encodeMethods spare))
            = (tagBytes 1 key.wireType
                ++ (keyPayload ++ (tagBytes 2 wireType ++ valuePayload))).length := by
        rw [hsize, mapKeySize, ← length_tagBytes hone, ← length_payload hkeyPayload (by omega)]
        simp only [List.length_append]
        omega
      rw [hentryLen]
      have hvarint := isVarint_writeVarint (show (tagBytes 1 key.wireType
        ++ (keyPayload ++ (tagBytes 2 wireType ++ valuePayload))).length < 2 ^ 64 by
          simp only [List.length_append]; omega)
      have hpayload := hvarint.readBytes_append []
      rw [List.append_nil] at hpayload
      refine ⟨?_, ⟨_, _, rfl, hvarint⟩⟩
      unfold readField
      rw [hkind]
      refine reading_eq_ok.mpr ⟨_, hpayload, ?_⟩
      rw [storeMapEntry, run_mapEntryPass
        (fun rest => readScalarField_payload hkey hkeyPayload (by omega) rest) helement]
      rfl

end

end Codegen

end Pbz
