import Pbz.Dynamic.Consume
import Pbz.Dynamic.Typed

set_option autoImplicit false

/-! # Fields are read back

Each function of the encoder that writes one occurrence of a field has a lemma here: on typed
input it succeeds, and a pass of the decoder over its bytes has certain actions (`FieldReads`).
The codec of nested messages is a parameter that is assumed to read them back.
-/

namespace Pbz

/-- The bytes of a tag. -/
def tagBytes (number : Nat) (wireType : WireType) : Bytes :=
  writeVarint (number * 8 + wireType.toNat)

/-! ## Scalars, enums and payloads -/

theorem validateScalarUtf8_ok {file : FileDescriptor} {field : FieldDescriptor}
    {scalar : ScalarType} {value : Value} (h : ScalarTyped file field scalar value) :
    validateScalarUtf8 file field (.scalar scalar) value = .ok () := by
  unfold validateScalarUtf8
  by_cases hv : field.utf8Validation file = .verify
  · rw [if_neg (by simp [hv])]
    split
    · next s hk => rw [if_pos (h.verified s rfl hv)]
    · rfl
  · rw [if_pos (by simp [hv])]

section

variable {registry : Option Registry} {nested : Option StreamDecoder}

/-- The payload of a typed scalar is written and read back. -/
theorem encodeScalarPayload_ok {file : FileDescriptor} {field : FieldDescriptor}
    {scalar : ScalarType} {value : Value} (h : ScalarTyped file field scalar value)
    (current : MessageDescriptor) :
    ∃ payload, encodeScalarPayload (.scalar scalar) value = .ok payload
      ∧ (payload.length < 2 ^ 64 → ∀ rest,
          decodeValue registry nested file current field (.scalar scalar) (payload ++ rest)
            = .ok (value, rest)) := by
  have hbytes : ∀ s : Bytes, (lengthPrefixed s).length < 2 ^ 64 → ∀ rest,
      readBytes (lengthPrefixed s ++ rest) = .ok (s, rest) := by
    intro s hl rest
    refine readBytes_lengthPrefixed ?_ rest
    rw [lengthPrefixed, List.length_append] at hl
    omega
  by_cases hp : scalar.packable = true
  · obtain ⟨payload, he, -, hd⟩ := decodeScalarLike_encodeScalarPayload h.hasType hp
    exact ⟨payload, he, fun _ rest => by rw [decodeValue_packable hp]; exact hd rest⟩
  · have ht := h.hasType
    cases scalar with
    | string =>
        cases value <;> simp only [Value.hasScalarType, Bool.false_eq_true] at ht
        next s =>
          refine ⟨_, rfl, fun hl rest => ?_⟩
          have hutf : decodeStringValue file field s = .ok s := by
            rw [decodeStringValue, if_neg]
            intro hc
            simp only [Bool.and_eq_true, beq_iff_eq, Bool.not_eq_true'] at hc
            rw [h.verified s rfl hc.1] at hc
            simp at hc
          rw [decodeValue, hbytes s hl rest]
          simp only [hutf]
    | bytes =>
        cases value <;> simp only [Value.hasScalarType, Bool.false_eq_true] at ht
        next s =>
          refine ⟨_, rfl, fun hl rest => ?_⟩
          rw [decodeValue, hbytes s hl rest]
          rfl
    | _ => simp [ScalarType.packable] at hp

theorem encodeScalar_ok {file : FileDescriptor} {field : FieldDescriptor} {number : Nat}
    {scalar : ScalarType} {value : Value} (hn : ValidNumber number)
    (h : ScalarTyped file field scalar value) (current : MessageDescriptor) :
    ∃ payload, encodeScalar file field number scalar value
        = .ok (tagBytes number scalar.wireType ++ payload)
      ∧ (payload.length < 2 ^ 64 → ∀ rest,
          decodeValue registry nested file current field (.scalar scalar) (payload ++ rest)
            = .ok (value, rest)) := by
  obtain ⟨payload, he, hd⟩ := @encodeScalarPayload_ok registry nested _ _ _ _ h current
  refine ⟨payload, ?_, hd⟩
  rw [encodeScalar, validateScalarUtf8_ok h, writeTag_eq hn, he]
  rfl

theorem encodeEnumeration_ok {number : Nat} (hn : ValidNumber number) (v : BitVec 32) :
    encodeEnumeration number v = .ok (tagBytes number .varint ++ writeVarintInt32 v) := by
  rw [encodeEnumeration, writeTag_eq hn]
  rfl

theorem writeBytes_ok {number : Nat} (hn : ValidNumber number) (body : Bytes) :
    writeBytes number body = .ok (tagBytes number .lengthDelimited ++ lengthPrefixed body) := by
  rw [writeBytes, writeTag_eq hn]
  rfl

theorem writeGroup_ok {number : Nat} (hn : ValidNumber number) (body : Bytes) :
    writeGroup number (.ok body)
      = .ok (tagBytes number .startGroup ++ (body ++ tagBytes number .endGroup)) := by
  rw [writeGroup, writeTag_eq hn, writeTag_eq hn]
  simp only [ok_bind, List.append_assoc]
  rfl

end

/-- A number that is declared if the enum is closed is not kept as unknown. -/
theorem declared_of_closed {closed : Bool} {enumeration : EnumDescriptor} {v : BitVec 32}
    (h : closed = true → enumHasNumber enumeration v = true) :
    ¬ (closed && !enumHasNumber enumeration v) = true := by
  intro hb
  simp only [Bool.and_eq_true, Bool.not_eq_true'] at hb
  rw [h hb.1] at hb
  simp at hb

/-! ## Nested messages -/

/-- The message is encoded, and a reader that can still descend reads it back, as a payload of its
own and up to the end tag of a group. The file is the one that defines the message. -/
def ReadsBack (registry : Option Registry) (nested : Option StreamDecoder) (file : FileDescriptor)
    (message : DynamicMessage) : Prop :=
  ∃ bytes, message.encodeWithRegistry registry file = .ok bytes
    ∧ (message.pruneWith registry file).deduplicateDecodedMapFields
        = message.pruneWith registry file
    ∧ (bytes.length < 2 ^ 64 → ∃ stream, nested = some stream
      ∧ stream file (.init message.descriptor) none bytes
          = (message.pruneWith registry file, .ok [])
      ∧ ∀ number rest, ValidNumber number →
          stream file (.init message.descriptor) (some number)
            (bytes ++ (tagBytes number .endGroup ++ rest))
              = (message.pruneWith registry file, .ok rest))

/-- The key and the value are encoded as the elements of a map entry, and a reader that can still
descend reads the entry back. -/
def EntryReadsBack (registry : Option Registry) (nestedEntry : Option MapEntryDecoder)
    (file : FileDescriptor) (current : MessageDescriptor) (field : FieldDescriptor)
    (keyType : ScalarType) (valueKind : FieldKind) (key value : Value) : Prop :=
  ∃ keyBytes valueBytes,
    encodeMapElement registry file current field 1 (.scalar keyType) key = .ok keyBytes
    ∧ encodeMapElement registry file current field 2 valueKind value = .ok valueBytes
    ∧ ((keyBytes ++ valueBytes).length < 2 ^ 64 → ∃ decodeEntry, nestedEntry = some decodeEntry
      ∧ decodeEntry file current field keyType valueKind (keyBytes ++ valueBytes)
          = .ok (some (.mapEntry key (value.pruneWith registry file))))

section

variable {registry : Option Registry} {file : FileDescriptor} {nested : Option StreamDecoder}

theorem decodeMessagePayload_ok {current : MessageDescriptor} {name bytes : Bytes}
    {message : DynamicMessage} {stream : StreamDecoder}
    (hr : resolveMessageDescriptorWithRegistry file registry current name
      = some message.descriptor)
    (hs : stream (messageDefiningFile file registry message.descriptor)
      (.init message.descriptor) none bytes
        = (message.pruneWith registry (messageDefiningFile file registry message.descriptor),
            .ok []))
    (hd : (message.pruneWith registry
        (messageDefiningFile file registry message.descriptor)).deduplicateDecodedMapFields
      = message.pruneWith registry (messageDefiningFile file registry message.descriptor)) :
    decodeMessagePayload registry stream file current name bytes
      = .ok ((Value.message message).pruneWith registry file) := by
  rw [decodeMessagePayload, hr]
  simp only [hs, hd, Value.pruneWith]

/-- A message as a length-prefixed payload. -/
theorem decodeValue_message {current : MessageDescriptor} {field : FieldDescriptor}
    {name bytes : Bytes} {message : DynamicMessage}
    (h : ReadsBack registry nested (messageDefiningFile file registry message.descriptor) message)
    (hr : resolveMessageDescriptorWithRegistry file registry current name
      = some message.descriptor)
    (he : message.encodeWithRegistry registry
      (messageDefiningFile file registry message.descriptor) = .ok bytes)
    (hl : (lengthPrefixed bytes).length < 2 ^ 64) (rest : Bytes) :
    decodeValue registry nested file current field (.message name) (lengthPrefixed bytes ++ rest)
      = .ok ((Value.message message).pruneWith registry file, rest) := by
  obtain ⟨bytes', he', hd, hread⟩ := h
  rw [he, Except.ok.injEq] at he'
  subst he'
  have hb : bytes.length < 2 ^ 64 := by
    rw [lengthPrefixed, List.length_append] at hl
    omega
  obtain ⟨stream, rfl, hs, -⟩ := hread hb
  rw [decodeValue, readBytes_lengthPrefixed hb]
  simp only [decodeMessagePayload_ok hr hs hd]

/-- A message up to its end tag. -/
theorem decodeGroupBody_ok {current : MessageDescriptor} {number : Nat} {name bytes : Bytes}
    {message : DynamicMessage} (hn : ValidNumber number)
    (h : ReadsBack registry nested (messageDefiningFile file registry message.descriptor) message)
    (hr : resolveMessageDescriptorWithRegistry file registry current name
      = some message.descriptor)
    (he : message.encodeWithRegistry registry
      (messageDefiningFile file registry message.descriptor) = .ok bytes)
    (hl : bytes.length < 2 ^ 64) (rest : Bytes) :
    decodeGroupBody registry nested file current number name
        (bytes ++ (tagBytes number .endGroup ++ rest))
      = .ok (message.pruneWith registry
          (messageDefiningFile file registry message.descriptor), rest) := by
  obtain ⟨bytes', he', hd, hread⟩ := h
  rw [he, Except.ok.injEq] at he'
  subst he'
  obtain ⟨stream, rfl, -, hs⟩ := hread hl
  rw [decodeGroupBody, hr]
  simp only [hs number rest hn, hd]

/-! ## Map entries -/

theorem mapEntryPass_consuming (levels : Nat) (current : MessageDescriptor)
    (field : FieldDescriptor) (keyType : ScalarType) (valueKind : FieldKind) :
    Loop.Consuming (mapEntryPass registry nested levels file current field keyType valueKind) := by
  intro state input state' rest h
  rw [mapEntryPass] at h
  cases ht : nextTag input with
  | error e => rw [ht] at h; simp at h
  | ok next =>
      rw [ht] at h
      cases next with
      | none => simp at h
      | some p =>
          obtain ⟨tag, r⟩ := p
          have hlt := nextTag_length ht
          have hvalue : ∀ kind v r', decodeValue registry nested file current field kind r = .ok (v, r') →
              r'.length ≤ r.length :=
            fun kind v r' hv => (decodeValue_bounded _ _ _ _).shrinks _ _ _ hv
          simp only at h
          split at h
          · split at h
            · simp at h
            · split at h
              · simp at h
              · next v r' hv =>
                simp only [Loop.Step.next.injEq] at h
                have hle := hvalue _ _ _ hv
                rw [← h.2]
                omega
          · split at h
            · split at h
              · split at h
                · simp at h
                · split at h
                  · simp at h
                  · next v r' hv =>
                    have hle := readInt32_bounded.shrinks _ _ _ hv
                    split at h
                    · simp at h
                    · simp only [Loop.Step.next.injEq] at h
                      rw [← h.2]
                      omega
              · split at h
                · simp at h
                · split at h
                  · simp at h
                  · next v r' hv =>
                    simp only [Loop.Step.next.injEq] at h
                    have hle := hvalue _ _ _ hv
                    rw [← h.2]
                    omega
            · split at h
              · simp at h
              · next r' hv =>
                simp only [Loop.Step.next.injEq] at h
                have hle := skipValue_shrinks levels tag _ _ hv
                rw [← h.2]
                omega

/-- The key of a map entry: its bytes, and the pass that reads them. -/
theorem mapKey_ok {current : MessageDescriptor} {field : FieldDescriptor} {keyType : ScalarType}
    {key : Value} (h : ScalarTyped file field keyType key) :
    ∃ bytes, encodeMapElement registry file current field 1 (.scalar keyType) key = .ok bytes
      ∧ (bytes.length < 2 ^ 64 → ∀ levels valueKind state rest,
          mapEntryPass registry nested levels file current field keyType valueKind state
              (bytes ++ rest)
            = .next { state with key := some key } rest) := by
  obtain ⟨payload, he, hd⟩ := @encodeScalar_ok registry nested _ _ 1 _ _ (by decide) h current
  refine ⟨_, by rw [encodeMapElement]; exact he, fun hl levels valueKind state rest => ?_⟩
  rw [List.length_append] at hl
  rw [mapEntryPass, List.append_assoc, tagBytes, nextTag_tag (by decide)]
  simp only [if_true, ne_eq, not_true_eq_false, if_false, hd (by omega) rest]

/-- The value of a map entry: its bytes, and the pass that reads them. -/
theorem mapValue_ok {current : MessageDescriptor} {field : FieldDescriptor} {N : MessageDemand}
    (hN : ∀ file m, N file m → ReadsBack registry nested file m) {kind : FieldKind}
    {value : Value} (h : ElementTypedWith registry N file current field kind value) :
    ∃ bytes, encodeMapElement registry file current field 2 kind value = .ok bytes
      ∧ (bytes.length < 2 ^ 64 → ∀ keyType levels state rest,
          mapEntryPass registry nested levels file current field keyType kind state
              (bytes ++ rest)
            = .next { state with value := some (value.pruneWith registry file) } rest) := by
  have hvalid : ValidNumber 2 := by decide
  have henum : ∀ kind v, EnumTypedWith registry file current kind v → ∀ keyType levels state rest,
      mapEntryPass registry nested levels file current field keyType kind state
          (tagBytes 2 .varint ++ writeVarintInt32 v ++ rest)
        = .next { state with value := some (.enumeration v) } rest := by
    intro kind v hv keyType levels state rest
    obtain ⟨enumeration, hr, hc⟩ := hv
    rw [mapEntryPass, List.append_assoc, tagBytes, nextTag_tag hvalid]
    simp only [show ¬ (2 : Nat) = 1 by decide, if_false, if_true, hr, ne_eq, not_true_eq_false,
      readInt32_writeVarintInt32, if_neg (declared_of_closed hc)]
  cases kind with
  | scalar scalar =>
      obtain ⟨payload, he, hd⟩ := @encodeScalar_ok registry nested _ _ _ _ _ hvalid h current
      refine ⟨_, by rw [encodeMapElement]; exact he, fun hl keyType levels state rest => ?_⟩
      rw [List.length_append] at hl
      rw [mapEntryPass, List.append_assoc, tagBytes, nextTag_tag hvalid]
      simp only [show ¬ (2 : Nat) = 1 by decide, if_false, if_true, registryEnumDescriptor,
        FieldKind.enumName, FieldKind.wireType, ne_eq, not_true_eq_false, hd (by omega) rest,
        pruneWith_of_scalar h.hasType]
  | enumeration name =>
      cases value <;> simp only [ElementTypedWith] at h
      next v =>
        exact ⟨_, by rw [encodeMapElement]; exact encodeEnumeration_ok hvalid v,
          fun _ keyType levels state rest => henum _ v h keyType levels state rest⟩
  | message name =>
      cases value <;> simp only [ElementTypedWith] at h
      next v =>
        refine ⟨_, ?_, fun _ keyType levels state rest => henum _ v h keyType levels state rest⟩
        obtain ⟨enumeration, hr, -⟩ := h
        rw [encodeMapElement, hr]
        exact encodeEnumeration_ok hvalid v
      next message =>
        obtain ⟨href, hm⟩ := h
        obtain ⟨body, he, -⟩ := id (hN _ message hm)
        refine ⟨tagBytes 2 .lengthDelimited ++ lengthPrefixed body, ?_,
          fun hl keyType levels state rest => ?_⟩
        · rw [encodeMapElement, href.noEnum]
          simp only [Option.isSome_none, Bool.false_eq_true, if_false, he, ok_bind]
          exact writeBytes_ok hvalid body
        · rw [List.length_append] at hl
          rw [mapEntryPass, List.append_assoc, tagBytes, nextTag_tag hvalid]
          simp only [show ¬ (2 : Nat) = 1 by decide, if_false, if_true, href.noEnum,
            FieldKind.wireType, ne_eq, not_true_eq_false,
            decodeValue_message (hN _ message hm) href.resolves he (by omega) rest]
  | group name => cases value <;> simp only [ElementTypedWith] at h
  | map keyType valueKind => cases value <;> simp only [ElementTypedWith] at h

/-- A typed key and value are an entry that is read back. -/
theorem entryReadsBack {N : MessageDemand}
    (hN : ∀ file m, N file m → ReadsBack registry nested file m) (levels : Nat)
    {current : MessageDescriptor} {field : FieldDescriptor} {keyType : ScalarType}
    {valueKind : FieldKind} {key value : Value}
    (h : MapElementsTypedWith registry N file current field keyType valueKind key value) :
    EntryReadsBack registry (some (decodeMapEntryValue registry nested levels)) file current field
      keyType valueKind key value := by
  obtain ⟨keyBytes, hk, hkey⟩ := @mapKey_ok registry _ nested current _ _ _ h.1
  obtain ⟨valueBytes, hv, hvalue⟩ := mapValue_ok hN h.2
  refine ⟨keyBytes, valueBytes, hk, hv, fun hl => ⟨_, rfl, ?_⟩⟩
  rw [List.length_append] at hl
  have hc := @mapEntryPass_consuming registry file nested levels current field keyType valueKind
  have hlast := hvalue (by omega) keyType levels { key := some key } []
  rw [List.append_nil] at hlast
  rw [decodeMapEntryValue, Loop.run_of_next hc (hkey (by omega) levels valueKind {} valueBytes),
    Loop.run_of_next hc hlast]
  rfl

/-! ## One value of a field -/

/-- What the decoder does with one value of a field: entries of a map are appended and
deduplicated later, other values are added. -/
def storeAction (field : FieldDescriptor) (value : Value) : Action :=
  if field.kind.isMap then .append field [value] else .add field value

section

variable {nestedEntry : Option MapEntryDecoder}

/-- Bytes that are one occurrence of a field and are read as the actions. -/
def FieldReads (registry : Option Registry) (nested : Option StreamDecoder)
    (nestedEntry : Option MapEntryDecoder) (file : FileDescriptor) (current : MessageDescriptor)
    (field : FieldDescriptor) (bytes : Bytes) (actions : List Action) : Prop :=
  ∃ wireType payload, bytes = tagBytes field.number wireType ++ payload ∧ wireType ≠ .endGroup
    ∧ (bytes.length < 2 ^ 64 → ∀ input rest,
        readKnownField registry nested nestedEntry file current field
            { number := field.number, wireType } input (payload ++ rest)
          = { actions, ending := .next rest })

theorem isDelimitedField_scalar {current : MessageDescriptor} {field : FieldDescriptor}
    (h : field.kind.isMessage = false) :
    isDelimitedField registry file current field = false := by
  simp [isDelimitedField, h]

theorem enum_reads {current : MessageDescriptor} {field : FieldDescriptor} {v : BitVec 32}
    (hk : field.kind.enumName.isSome = true)
    (h : EnumTypedWith registry (fieldDefiningFile file registry field) current field.kind v) :
    FieldReads registry nested nestedEntry file current field
      (tagBytes field.number .varint ++ writeVarintInt32 v)
      [storeAction field (.enumeration v)] := by
  obtain ⟨enumeration, hr, hc⟩ := h
  have hdel : isDelimitedField registry (fieldDefiningFile file registry field) current field
      = false := by
    simp [isDelimitedField, hr]
  refine ⟨.varint, _, rfl, by decide, fun _ input rest => ?_⟩
  rw [readKnownField, hdel]
  cases hkind : field.kind with
  | enumeration name =>
      rw [hkind] at hr
      simp only [Bool.false_eq_true, if_false, hr, readEnumField, reduceCtorEq, false_and, ne_eq,
        not_true_eq_false, readInt32_writeVarintInt32, if_neg (declared_of_closed hc),
        storeAction, hkind, FieldKind.isMap]
  | message name =>
      rw [hkind] at hr
      simp only [Bool.false_eq_true, if_false, hr, readEnumField, reduceCtorEq, false_and, ne_eq,
        not_true_eq_false, readInt32_writeVarintInt32, if_neg (declared_of_closed hc),
        storeAction, hkind, FieldKind.isMap]
  | _ => rw [hkind] at hk; simp [FieldKind.enumName] at hk

/-- The value that a field's value is read back as. -/
abbrev readBack (registry : Option Registry) (file : FileDescriptor) (field : FieldDescriptor)
    (value : Value) : Value :=
  value.pruneWith registry
    (if field.kind.isMap then file else fieldDefiningFile file registry field)

/-- One occurrence of the field is written for the value, and it is read back. -/
def ValueReadsBack (registry : Option Registry) (nested : Option StreamDecoder)
    (nestedEntry : Option MapEntryDecoder) (file : FileDescriptor) (current : MessageDescriptor)
    (field : FieldDescriptor) (value : Value) : Prop :=
  ∃ bytes, encodeField registry file current field value = .ok bytes
    ∧ FieldReads registry nested nestedEntry file current field bytes
        [storeAction field (readBack registry file field value)]

section

variable {N : MessageDemand} {E : FileEntryDemand} {current : MessageDescriptor}
  {field : FieldDescriptor}

theorem scalarField_reads (hn : ValidNumber field.number) {scalar : ScalarType} {value : Value}
    (hkind : field.kind = .scalar scalar)
    (h : ScalarTyped (fieldDefiningFile file registry field) field scalar value) :
    ValueReadsBack registry nested nestedEntry file current field value := by
  unfold ValueReadsBack encodeField
  simp only [hkind]
  obtain ⟨payload, he, hd⟩ := @encodeScalar_ok registry nested _ _ _ _ _ hn h current
  have hend : scalar.wireType ≠ .endGroup := by cases scalar <;> decide
  refine ⟨_, he, scalar.wireType, payload, rfl, hend, fun hl input rest => ?_⟩
  rw [List.length_append] at hl
  have hunpacked : ¬ (scalar.wireType = .lengthDelimited ∧ field.isPackable = true) := by
    rintro ⟨hw, hp⟩
    cases scalar <;> simp [ScalarType.wireType] at hw <;>
      simp [FieldDescriptor.isPackable, hkind, FieldKind.packable, ScalarType.packable] at hp
  rw [readKnownField, isDelimitedField_scalar (by rw [hkind]; rfl)]
  simp only [Bool.false_eq_true, if_false, hkind, registryEnumDescriptor, FieldKind.enumName,
    readOtherField, if_neg hunpacked, FieldKind.wireType, ne_eq, not_true_eq_false,
    hd (by omega) rest, Reading.ofValue, storeAction, FieldKind.isMap,
    pruneWith_of_scalar h.hasType]

theorem messageField_reads (hN : ∀ file m, N file m → ReadsBack registry nested file m)
    (hn : ValidNumber field.number) {name : Bytes} {message : DynamicMessage}
    (hkind : field.kind = .message name)
    (href : ReferenceTypedWith registry (fieldDefiningFile file registry field) current name message)
    (hm : N (messageDefiningFile (fieldDefiningFile file registry field) registry
      message.descriptor) message) :
    ValueReadsBack registry nested nestedEntry file current field (.message message) := by
  unfold ValueReadsBack encodeField
  obtain ⟨body, he, -⟩ := id (hN _ message hm)
  simp only [hkind, href.noEnum, Option.isSome_none, Bool.false_eq_true, if_false, he, ok_bind]
  by_cases hdel : field.messageEncoding (fieldDefiningFile file registry field) = .delimited
  · have hdelimited : isDelimitedField registry (fieldDefiningFile file registry field)
        current field = true := by
      simp [isDelimitedField, hkind, FieldKind.isMessage, href.noEnum, hdel]
    refine ⟨_, by rw [if_pos hdel]; exact writeGroup_ok hn body, _, _, rfl, by decide,
      fun hl input rest => ?_⟩
    simp only [List.length_append] at hl
    rw [readKnownField, hdelimited, List.append_assoc]
    simp only [if_true, ne_eq, not_true_eq_false, if_false, decodeDelimitedMessageValue,
      hkind, decodeGroupBody_ok hn (hN _ message hm) href.resolves he (by omega) rest,
      ReadResult.map, Reading.ofValue, storeAction, FieldKind.isMap, Bool.false_eq_true,
      Value.pruneWith]
  · have hdelimited : isDelimitedField registry (fieldDefiningFile file registry field)
        current field = false := by
      simp [isDelimitedField, hdel]
    refine ⟨_, by rw [if_neg hdel]; exact writeBytes_ok hn body, _, _, rfl, by decide,
      fun hl input rest => ?_⟩
    rw [List.length_append] at hl
    have hpack : field.isPackable = false := by
      simp [FieldDescriptor.isPackable, hkind, FieldKind.packable]
    rw [readKnownField, hdelimited]
    simp only [Bool.false_eq_true, if_false, hkind, href.noEnum, readOtherField, hpack,
      and_false, FieldKind.wireType, ne_eq, not_true_eq_false,
      decodeValue_message (hN _ message hm) href.resolves he (by omega) rest,
      Reading.ofValue, storeAction, readBack, FieldKind.isMap]

theorem groupField_reads (hN : ∀ file m, N file m → ReadsBack registry nested file m)
    (hn : ValidNumber field.number) {name : Bytes} {message : DynamicMessage}
    (hkind : field.kind = .group name)
    (h : GroupTypedWith registry N file current field name message) :
    ValueReadsBack registry nested nestedEntry file current field (.group message) := by
  unfold ValueReadsBack encodeField
  obtain ⟨body, he, -⟩ := id (hN _ message h.nested)
  simp only [hkind, h.oneFile, he]
  refine ⟨_, writeGroup_ok hn body, _, _, rfl, by decide, fun hl input rest => ?_⟩
  simp only [List.length_append] at hl
  rw [readKnownField, isDelimitedField_scalar (by rw [hkind]; rfl), List.append_assoc]
  simp only [Bool.false_eq_true, if_false, hkind, ne_eq, not_true_eq_false, decodeGroupValue,
    decodeGroupBody_ok hn (hN _ message h.nested) h.resolves he (by omega) rest,
    ReadResult.map, Reading.ofValue, storeAction, FieldKind.isMap, Value.pruneWith, h.oneFile]

theorem mapField_reads (hn : ValidNumber field.number) {keyType : ScalarType}
    {valueKind : FieldKind} {k v : Value} (hkind : field.kind = .map keyType valueKind)
    (h : EntryReadsBack registry nestedEntry file current field keyType valueKind k v) :
    ValueReadsBack registry nested nestedEntry file current field (.mapEntry k v) := by
  unfold ValueReadsBack encodeField
  obtain ⟨keyBytes, valueBytes, hk, hv, hread⟩ := h
  simp only [hkind, hk, hv, ok_bind]
  refine ⟨_, writeBytes_ok hn _, _, _, rfl, by decide, fun hl input rest => ?_⟩
  have hl' : (keyBytes ++ valueBytes).length < 2 ^ 64 := by
    rw [List.length_append, lengthPrefixed, List.length_append] at hl
    omega
  obtain ⟨decodeEntry, hsome, hdec⟩ := hread hl'
  rw [readKnownField, isDelimitedField_scalar (by rw [hkind]; rfl)]
  simp only [Bool.false_eq_true, if_false, hkind, readMapField, ne_eq, not_true_eq_false,
    readBytes_lengthPrefixed hl', hsome, hdec, storeAction, FieldKind.isMap, if_true,
    Value.pruneWith]

theorem encodeField_reads (hN : ∀ file m, N file m → ReadsBack registry nested file m)
    (hE : ∀ file current field keyType valueKind k v,
      E file current field keyType valueKind k v →
        EntryReadsBack registry nestedEntry file current field keyType valueKind k v)
    (hn : ValidNumber field.number) {value : Value}
    (h : ValueTypedWith registry N E file current field value) :
    ValueReadsBack registry nested nestedEntry file current field value := by
  unfold ValueTypedWith at h
  cases hkind : field.kind with
  | scalar scalar =>
      simp only [hkind, ElementTypedWith] at h
      exact scalarField_reads hn hkind h
  | enumeration name =>
      simp only [hkind] at h
      cases value <;> simp only [ElementTypedWith] at h
      next v =>
        unfold ValueReadsBack encodeField
        simp only [hkind]
        refine ⟨_, encodeEnumeration_ok hn v, ?_⟩
        exact enum_reads (by rw [hkind]; rfl) (by rw [hkind]; exact h)
  | message name =>
      simp only [hkind] at h
      cases value <;> simp only [ElementTypedWith] at h
      next v =>
        obtain ⟨enumeration, hr, hc⟩ := id h
        unfold ValueReadsBack encodeField
        refine ⟨_, ?_, enum_reads (by rw [hkind]; rfl) (by rw [hkind]; exact h)⟩
        simp only [hkind, hr, Option.isNone_some, Bool.false_eq_true, if_false]
        exact encodeEnumeration_ok hn v
      next message => exact messageField_reads hN hn hkind h.1 h.2
  | group name =>
      cases value <;> simp only [hkind, ElementTypedWith] at h
      next message => exact groupField_reads hN hn hkind h
  | map keyType valueKind =>
      cases value <;> simp only [hkind, ElementTypedWith] at h
      next k v => exact mapField_reads hn hkind (hE _ _ _ _ _ _ _ h)

end

end

/-! ## Packed fields -/

/-- A loop that pushes one value for each payload reads packed payloads back. -/
theorem packed_run {σ : Type} {body : σ → Bytes → Loop.Step UInt8 σ Error}
    (hc : Loop.Consuming body) (hdone : ∀ s, body s [] = .done s []) {push : σ → Value → σ}
    {payload : Value → Except Error Bytes} {values : List Value}
    (h : ∀ value ∈ values, ∃ bytes, payload value = .ok bytes
      ∧ ∀ s rest, body s (bytes ++ rest) = .next (push s value) rest) :
    ∃ payloads, encodePayloads payload values = .ok payloads
      ∧ ∀ s, Loop.run body s payloads = (values.foldl push s, .ok []) := by
  induction values with
  | nil => exact ⟨[], rfl, fun s => Loop.run_of_done (hdone s)⟩
  | cons value rest ih =>
      obtain ⟨bytes, he, hb⟩ := h value List.mem_cons_self
      obtain ⟨payloads, hp, hrun⟩ := ih (fun v hv => h v (List.mem_cons_of_mem _ hv))
      refine ⟨bytes ++ payloads, ?_, fun s => ?_⟩
      · rw [encodePayloads, he, hp]
        rfl
      · rw [Loop.run_of_next hc (hb s payloads), hrun, List.foldl_cons]

theorem decodeScalarLike_consumes (kind : FieldKind) : Consumes (decodeScalarLike kind) := by
  have hmap : ∀ {α : Type} {p : Bytes → ReadResult α} (f : α → Value), Consumes p →
      Consumes (fun bs => (p bs).map f) := by
    intro α p f hp bs v rest h
    obtain ⟨a, ha, -⟩ := readResult_map_ok h
    exact hp _ _ _ ha
  have hv := fun f : Nat → Value => hmap f readVarint_consumes
  have hi : Consumes readInt32 := by
    intro bs v rest h
    obtain ⟨a, ha, -⟩ := readResult_map_ok h
    exact readVarint_consumes _ _ _ ha
  have hr : ∀ n, 0 < n → Consumes (readRawLittle n) := by
    intro n hn bs v rest h
    have := readRawLittle_length h
    omega
  have herr : ∀ e : Error, Consumes (fun _ => (.error e : ReadResult Value)) := by
    intro e bs v rest h
    simp at h
  cases kind with
  | scalar scalar =>
      cases scalar <;>
        first
        | exact hv _
        | exact hmap _ hi
        | exact hmap _ (hr 4 (by decide))
        | exact hmap _ (hr 8 (by decide))
        | exact herr _
  | enumeration name => exact hmap _ hi
  | _ => exact herr _

theorem packedPass_consuming {read : Bytes → ReadResult Value} (h : Consumes read) :
    Loop.Consuming (packedPass read) := by
  intro values payload values' rest hb
  rw [packedPass] at hb
  split at hb
  · simp at hb
  · split at hb
    · simp at hb
    · next v r hr =>
      simp only [Loop.Step.next.injEq] at hb
      rw [← hb.2]
      exact h _ _ _ hr

theorem packedEnumPass_consuming (number : Nat) (enumeration : EnumDescriptor) (closed : Bool) :
    Loop.Consuming (packedEnumPass number enumeration closed) := by
  intro state payload state' rest hb
  rw [packedEnumPass] at hb
  split at hb
  · simp at hb
  · split at hb
    · simp at hb
    · next v r hr =>
      obtain ⟨raw, hraw, -⟩ := readResult_map_ok hr
      have hlt := readVarint_consumes _ _ _ hraw
      split at hb
      · split at hb
        · simp at hb
        · simp only [Loop.Step.next.injEq] at hb
          rw [← hb.2]
          exact hlt
      · simp only [Loop.Step.next.injEq] at hb
        rw [← hb.2]
        exact hlt

theorem foldl_push (values : List Value) : ∀ acc : List Value,
    values.foldl (fun vs v => vs ++ [v]) acc = acc ++ values := by
  induction values with
  | nil => intro acc; simp
  | cons v rest ih => intro acc; rw [List.foldl_cons, ih]; simp

theorem foldl_pushEnum (values : List Value) : ∀ state : PackedEnum,
    values.foldl (fun s v => { s with values := s.values ++ [v] }) state
      = { state with values := state.values ++ values } := by
  induction values with
  | nil => intro state; simp
  | cons v rest ih => intro state; rw [List.foldl_cons, ih]; simp

/-- Packed scalars that are not strings are written and read one by one. -/
theorem packedScalar_run {scalar : ScalarType} (hp : scalar.packable = true)
    {values : List Value} (h : ∀ value ∈ values, value.hasScalarType scalar = true) :
    ∃ payloads, encodePayloads (encodeScalarPayload (.scalar scalar)) values = .ok payloads
      ∧ Loop.run (packedPass (decodeScalarLike (.scalar scalar))) [] payloads
          = (values, .ok []) := by
  have hvalues : ∀ value ∈ values, ∃ bytes,
      encodeScalarPayload (.scalar scalar) value = .ok bytes
        ∧ ∀ (s : List Value) rest, packedPass (decodeScalarLike (.scalar scalar)) s (bytes ++ rest)
            = .next (s ++ [value]) rest := by
    intro value hv
    obtain ⟨bytes, he, hpos, hd⟩ := decodeScalarLike_encodeScalarPayload (h value hv) hp
    refine ⟨bytes, he, fun s rest => ?_⟩
    have hne : ¬ (bytes ++ rest).isEmpty = true := by
      rw [List.isEmpty_iff, List.append_eq_nil_iff]
      rintro ⟨rfl, -⟩
      simp at hpos
    rw [packedPass, if_neg hne, hd rest]
  obtain ⟨payloads, he, hrun⟩ := packed_run (packedPass_consuming (decodeScalarLike_consumes _))
    (fun _ => rfl) hvalues
  exact ⟨payloads, he, by rw [hrun, foldl_push, List.nil_append]⟩

theorem packedEnum_run {field : FieldDescriptor} {enumeration : EnumDescriptor} {closed : Bool}
    {payload : Value → Except Error Bytes} {values : List Value}
    (h : ∀ value ∈ values, ∃ v, value = .enumeration v ∧ payload value = .ok (writeVarintInt32 v)
      ∧ (closed = true → enumHasNumber enumeration v = true)) :
    ∃ payloads, encodePayloads payload values = .ok payloads
      ∧ Loop.run (packedEnumPass field.number enumeration closed) {} payloads
          = ({ values, unknown := [] }, .ok []) := by
  have hvalues : ∀ value ∈ values, ∃ bytes, payload value = .ok bytes
      ∧ ∀ (s : PackedEnum) rest,
          packedEnumPass field.number enumeration closed s (bytes ++ rest)
            = .next { s with values := s.values ++ [value] } rest := by
    intro value hv
    obtain ⟨v, rfl, he, hc⟩ := h value hv
    refine ⟨_, he, fun s rest => ?_⟩
    have hne : ¬ (writeVarintInt32 v ++ rest).isEmpty = true := by
      rw [List.isEmpty_iff, List.append_eq_nil_iff]
      rintro ⟨hnil, -⟩
      have := writeVarint_length_pos (v.signExtend 64).toNat
      rw [show writeVarint (v.signExtend 64).toNat = writeVarintInt32 v from rfl, hnil] at this
      simp at this
    have hdeclared : ¬ (closed && !enumHasNumber enumeration v) = true := by
      intro hb
      simp only [Bool.and_eq_true, Bool.not_eq_true'] at hb
      rw [hc hb.1] at hb
      simp at hb
    rw [packedEnumPass, if_neg hne, readInt32_writeVarintInt32]
    simp only [if_neg hdeclared]
  obtain ⟨payloads, he, hrun⟩ := packed_run (packedEnumPass_consuming _ _ _) (fun _ => rfl) hvalues
  refine ⟨payloads, he, ?_⟩
  rw [hrun, foldl_pushEnum]
  rfl

/-- The size that is summed up for packed `int32` values is the size of their payloads. -/
theorem packedInt32Length_ok {values : List Value}
    (h : ∀ value ∈ values, value.hasScalarType .int32 = true) {payloads : Bytes}
    (he : encodePayloads (encodeScalarPayload (.scalar .int32)) values = .ok payloads) :
    packedInt32Length values = .ok payloads.length := by
  induction values generalizing payloads with
  | nil =>
      simp only [encodePayloads, Except.ok.injEq] at he
      rw [← he]
      rfl
  | cons value rest ih =>
      have hv := h value List.mem_cons_self
      cases value <;> simp only [Value.hasScalarType, Bool.false_eq_true] at hv
      next v =>
        rw [encodePayloads, encodeScalarPayload, ok_bind] at he
        cases hr : encodePayloads (encodeScalarPayload (.scalar .int32)) rest with
        | error e => rw [hr] at he; simp at he
        | ok others =>
            rw [hr] at he
            simp only [ok_bind, pure, Except.pure, Except.ok.injEq] at he
            rw [packedInt32Length, ih (fun w hw => h w (List.mem_cons_of_mem _ hw)) hr, ← he,
              List.length_append, writeVarintInt32, writeVarint_length (BitVec.isLt _)]
            rfl

theorem decodeScalarLike_fixed {scalar : ScalarType} {width : Nat}
    (h : fixedWidthPackedScalarSize scalar = some width) (input : Bytes) :
    decodeScalarLike (.scalar scalar) input
      = (readRawLittle width input).map (fixedWidthValue scalar) := by
  cases scalar <;> simp only [fixedWidthPackedScalarSize, Option.some.injEq, reduceCtorEq] at h <;>
    subst h <;> rfl

/-- Packed fixed-width scalars take their width each, and are cut apart again. -/
theorem fixedWidthValues_ok {scalar : ScalarType} {width : Nat}
    (hw : fixedWidthPackedScalarSize scalar = some width) {values : List Value}
    (h : ∀ value ∈ values, value.hasScalarType scalar = true) {payloads : Bytes}
    (he : encodePayloads (encodeScalarPayload (.scalar scalar)) values = .ok payloads) :
    payloads.length = values.length * width
      ∧ fixedWidthValues scalar width values.length payloads = values := by
  have hp : scalar.packable = true := by
    cases scalar <;> simp [fixedWidthPackedScalarSize] at hw <;> rfl
  induction values generalizing payloads with
  | nil =>
      simp only [encodePayloads, Except.ok.injEq] at he
      rw [← he]
      exact ⟨by simp, rfl⟩
  | cons value rest ih =>
      obtain ⟨bytes, hb, -, hd⟩ := decodeScalarLike_encodeScalarPayload
        (h value List.mem_cons_self) hp
      rw [encodePayloads, hb, ok_bind] at he
      cases hr : encodePayloads (encodeScalarPayload (.scalar scalar)) rest with
      | error e => rw [hr] at he; simp at he
      | ok others =>
          rw [hr] at he
          simp only [ok_bind, pure, Except.pure, Except.ok.injEq] at he
          obtain ⟨hlen, hvalues⟩ := ih (fun w hw' => h w (List.mem_cons_of_mem _ hw')) hr
          have hnil := hd []
          rw [List.append_nil, decodeScalarLike_fixed hw] at hnil
          obtain ⟨raw, hraw, hval⟩ := readResult_map_ok hnil
          have hbl : bytes.length = width := by
            have := readRawLittle_length hraw
            simpa using this.symm
          have hr2 : raw = ofLittleBytes bytes := by
            rw [readRawLittle, takeBytes, if_neg (by omega)] at hraw
            simp only [Except.ok.injEq, Prod.mk.injEq] at hraw
            rw [← hraw.1, List.take_of_length_le (by omega)]
          rw [← he]
          constructor
          · rw [List.length_append, hlen, hbl, List.length_cons, Nat.succ_mul, Nat.add_comm]
          · have htake : (bytes ++ others).take width = bytes := by
              rw [← hbl, List.take_left]
            have hdrop : (bytes ++ others).drop width = others := by
              rw [← hbl, List.drop_left]
            rw [List.length_cons, fixedWidthValues, htake, hdrop, ← hr2, hval, hvalues]

/-- The actions a packed field is read as: its values appended, and no unknown values. -/
def PackedActions (field : FieldDescriptor) (values : List Value) (actions : List Action) : Prop :=
  actions = [.append field values] ∨ actions = [.append field values, .unknown []]

theorem encodePayloads_congr {f g : Value → Except Error Bytes} {values : List Value}
    (h : ∀ value ∈ values, f value = g value) :
    encodePayloads f values = encodePayloads g values := by
  induction values with
  | nil => rfl
  | cons value rest ih =>
      rw [encodePayloads, encodePayloads, h value List.mem_cons_self,
        ih (fun v hv => h v (List.mem_cons_of_mem _ hv))]

section

variable {nestedEntry : Option MapEntryDecoder}

/-- A packed scalar field, its payload and the actions it is read as. -/
theorem packedScalar_reads {current : MessageDescriptor} {field : FieldDescriptor}
    (hn : ValidNumber field.number) (hrep : field.cardinality = .repeated) {scalar : ScalarType}
    (hkind : field.kind = .scalar scalar) (hp : scalar.packable = true) {values : List Value}
    (h : ∀ value ∈ values, ScalarTyped (fieldDefiningFile file registry field) field scalar value) :
    ∃ bytes, encodePackedWithRegistry registry file current field values = .ok bytes
      ∧ FieldReads registry nested nestedEntry file current field bytes
          [.append field values] := by
  have htype : ∀ value ∈ values, value.hasScalarType scalar = true := fun v hv => (h v hv).hasType
  obtain ⟨payloads, he, hrun⟩ := packedScalar_run hp htype
  have hlike : scalarLikeKindForEncoding file registry current field.kind = .scalar scalar := by
    rw [hkind]; rfl
  have hwrite : encodePackedWithRegistry registry file current field values
      = .ok (tagBytes field.number .lengthDelimited ++ lengthPrefixed payloads) := by
    rw [encodePackedWithRegistry, hlike]
    by_cases hi : scalar = .int32
    · subst hi
      simp only [if_true]
      rw [encodePackedInt32, packedInt32Length_ok htype he, writeTag_eq hn, he]
      simp only [ok_bind, lengthPrefixed, List.append_assoc]
      rfl
    · simp only [if_neg hi]
      cases hw : fixedWidthPackedScalarSize scalar with
      | some width =>
          obtain ⟨hlen, -⟩ := fixedWidthValues_ok hw htype he
          simp only [encodePackedFixedWidth, writeTag_eq hn, he, ok_bind, lengthPrefixed,
            List.append_assoc, hlen]
          rfl
      | none =>
          have hpay : encodePayloads (encodeScalarPayloadWithValidation
              (fieldDefiningFile file registry field) field (.scalar scalar)) values
                = .ok payloads := by
            rw [← he]
            refine encodePayloads_congr (fun v hv => ?_)
            rw [encodeScalarPayloadWithValidation, validateScalarUtf8_ok (h v hv)]
            rfl
          simp only [hpay, ok_bind]
          exact writeBytes_ok hn payloads
  have hpackable : field.isPackable = true := by
    simp [FieldDescriptor.isPackable, hrep, hkind, FieldKind.packable, hp]
  refine ⟨_, hwrite, .lengthDelimited, _, rfl, by decide, fun hl input rest => ?_⟩
  have hl' : payloads.length < 2 ^ 64 := by
    rw [List.length_append, lengthPrefixed, List.length_append] at hl
    omega
  rw [readKnownField, isDelimitedField_scalar (by rw [hkind]; rfl)]
  simp only [Bool.false_eq_true, if_false, hkind, registryEnumDescriptor, FieldKind.enumName,
    readOtherField, hpackable, true_and, if_true, Reading.ofPacked,
    readBytes_lengthPrefixed hl']
  cases hw : fixedWidthPackedScalarSize scalar with
  | some width =>
      obtain ⟨hlen, hvalues⟩ := fixedWidthValues_ok hw htype he
      have hpos : 0 < width := by
        cases scalar <;> simp [fixedWidthPackedScalarSize] at hw <;> omega
      have hmod : ¬ payloads.length % width ≠ 0 := by rw [hlen]; simp
      have hdiv : payloads.length / width = values.length := by
        rw [hlen, Nat.mul_div_cancel _ hpos]
      simp only [Option.isSome_some, if_true, readPackedFixedWidth, hw, if_neg hmod, hdiv, hvalues]
  | none =>
      have hvar : packsAsVarint scalar = true := by
        cases scalar <;> simp [fixedWidthPackedScalarSize, ScalarType.packable] at hw hp <;> rfl
      simp only [Option.isSome_none, Bool.false_eq_true, if_false, readPackedVarintScalar, hvar,
        if_true, hrun]

/-- A packed enum field, its payload and the actions it is read as. -/
theorem packedEnum_reads {current : MessageDescriptor} {field : FieldDescriptor}
    (hn : ValidNumber field.number) (hrep : field.cardinality = .repeated)
    {enumeration : EnumDescriptor}
    (hr : registryEnumDescriptor (fieldDefiningFile file registry field) registry current
      field.kind = some enumeration)
    (hpacks : scalarLikeKindForEncoding file registry current field.kind
      = scalarLikeKindForEncoding (fieldDefiningFile file registry field) registry current
          field.kind)
    {values : List Value}
    (h : ∀ value ∈ values, ∃ v, value = .enumeration v
      ∧ (enumIsClosed (fieldDefiningFile file registry field) registry enumeration = true →
          enumHasNumber enumeration v = true)) :
    ∃ bytes, encodePackedWithRegistry registry file current field values = .ok bytes
      ∧ FieldReads registry nested nestedEntry file current field bytes
          [.append field values, .unknown []] := by
  obtain ⟨name, hname⟩ : ∃ name, field.kind.enumName = some name := by
    cases hk : field.kind.enumName with
    | none => rw [registryEnumDescriptor, hk] at hr; simp at hr
    | some name => exact ⟨name, rfl⟩
  have hlike : scalarLikeKindForEncoding file registry current field.kind = .enumeration name := by
    rw [hpacks]
    simp [scalarLikeKindForEncoding, fieldKindIsRegistryEnum, hr, hname]
  have hpayload : ∀ v, encodeScalarPayloadWithValidation (fieldDefiningFile file registry field)
      field (.enumeration name) (.enumeration v) = .ok (writeVarintInt32 v) := by
    intro v
    have hutf : validateScalarUtf8 (fieldDefiningFile file registry field) field
        (.enumeration name) (.enumeration v) = .ok () := by
      unfold validateScalarUtf8
      split <;> rfl
    rw [encodeScalarPayloadWithValidation, hutf]
    rfl
  have hvalues : ∀ value ∈ values, ∃ v, value = .enumeration v
      ∧ encodeScalarPayloadWithValidation (fieldDefiningFile file registry field) field
          (.enumeration name) value = .ok (writeVarintInt32 v)
      ∧ (enumIsClosed (fieldDefiningFile file registry field) registry enumeration = true →
          enumHasNumber enumeration v = true) := by
    intro value hv
    obtain ⟨v, rfl, hc⟩ := h value hv
    exact ⟨v, rfl, hpayload v, hc⟩
  obtain ⟨payloads, he, hrun⟩ := @packedEnum_run field _ _ _ _ hvalues
  have hwrite : encodePackedWithRegistry registry file current field values
      = .ok (tagBytes field.number .lengthDelimited ++ lengthPrefixed payloads) := by
    rw [encodePackedWithRegistry, hlike]
    simp only [he, ok_bind]
    exact writeBytes_ok hn payloads
  have hdel : isDelimitedField registry (fieldDefiningFile file registry field) current field
      = false := by
    simp [isDelimitedField, hr]
  refine ⟨_, hwrite, .lengthDelimited, _, rfl, by decide, fun hl input rest => ?_⟩
  have hl' : payloads.length < 2 ^ 64 := by
    rw [List.length_append, lengthPrefixed, List.length_append] at hl
    omega
  rw [readKnownField, hdel]
  cases hkind : field.kind with
  | enumeration other =>
      rw [hkind] at hr
      simp only [Bool.false_eq_true, if_false, hr, readEnumField, hrep, and_self, if_true,
        Reading.ofPacked, readBytes_lengthPrefixed hl', readPackedEnum, hrun]
  | message other =>
      rw [hkind] at hr
      simp only [Bool.false_eq_true, if_false, hr, readEnumField, hrep, and_self, if_true,
        Reading.ofPacked, readBytes_lengthPrefixed hl', readPackedEnum, hrun]
  | _ => rw [hkind] at hname; simp [FieldKind.enumName] at hname

section

variable {N : MessageDemand} {E : FileEntryDemand} {current : MessageDescriptor}
  {field : FieldDescriptor}

/-- Under a kind that names an enum the values are those of the enum. -/
theorem enumeration_of_typed {enumeration : EnumDescriptor} {value : Value}
    (hr : registryEnumDescriptor (fieldDefiningFile file registry field) registry current field.kind
      = some enumeration)
    (h : ValueTypedWith registry N E file current field value) :
    ∃ v, value = .enumeration v
      ∧ (enumIsClosed (fieldDefiningFile file registry field) registry enumeration = true →
          enumHasNumber enumeration v = true) := by
  unfold ValueTypedWith at h
  have hof (v : BitVec 32) (hv : EnumTypedWith registry (fieldDefiningFile file registry field)
      current field.kind v) :
      enumIsClosed (fieldDefiningFile file registry field) registry enumeration = true →
        enumHasNumber enumeration v = true := by
    obtain ⟨other, hr', hc⟩ := hv
    rw [hr, Option.some.injEq] at hr'
    exact hr' ▸ hc
  cases hkind : field.kind with
  | enumeration name =>
      simp only [hkind] at h hof
      cases value <;> simp only [ElementTypedWith] at h
      next v => exact ⟨v, rfl, hof v h⟩
  | message name =>
      simp only [hkind] at h hof
      cases value <;> simp only [ElementTypedWith] at h
      next v => exact ⟨v, rfl, hof v h⟩
      next message =>
        rw [hkind, h.1.noEnum] at hr
        cases hr
  | _ =>
      rw [hkind] at hr
      simp [registryEnumDescriptor, FieldKind.enumName] at hr

/-- A packable kind without an enum is a scalar, if it has a value. -/
theorem scalar_of_typed {value : Value}
    (hpack : (scalarLikeKindForEncoding (fieldDefiningFile file registry field) registry current
      field.kind).packable = true)
    (hr : registryEnumDescriptor (fieldDefiningFile file registry field) registry current field.kind
      = none)
    (h : ValueTypedWith registry N E file current field value) :
    ∃ scalar, field.kind = .scalar scalar ∧ scalar.packable = true := by
  rw [scalarLikeKindForEncoding, fieldKindIsRegistryEnum, hr] at hpack
  unfold ValueTypedWith at h
  cases hkind : field.kind with
  | scalar scalar =>
      rw [hkind] at hpack
      exact ⟨scalar, rfl, hpack⟩
  | enumeration name =>
      simp only [hkind] at h
      cases value <;> simp only [ElementTypedWith] at h
      next v =>
        obtain ⟨enumeration, hr', -⟩ := h
        rw [hkind, hr'] at hr
        cases hr
  | _ =>
      rw [hkind] at hpack
      simp [FieldKind.packable] at hpack

/-- A packed field of any kind. -/
theorem encodePacked_reads (hn : ValidNumber field.number)
    (hpacked : resolvedPackedForEncoding file registry current field = true)
    (hpacks : scalarLikeKindForEncoding file registry current field.kind
      = scalarLikeKindForEncoding (fieldDefiningFile file registry field) registry current
          field.kind)
    {values : List Value} (hne : values ≠ [])
    (h : ∀ value ∈ values, ValueTypedWith registry N E file current field value) :
    ∃ bytes actions, encodePackedWithRegistry registry file current field values = .ok bytes
      ∧ PackedActions field (values.map (readBack registry file field)) actions
      ∧ FieldReads registry nested nestedEntry file current field bytes actions := by
  have hrep : field.cardinality = .repeated := by
    by_contra hne
    simp [resolvedPackedForEncoding, hne] at hpacked
  have hpack : (scalarLikeKindForEncoding (fieldDefiningFile file registry field) registry current
      field.kind).packable = true := by
    by_contra hne
    simp [resolvedPackedForEncoding, hrep, hne] at hpacked
  have hprune : (∀ v ∈ values, readBack registry file field v = v) →
      values.map (readBack registry file field) = values := by
    intro hvs
    exact List.map_congr_left hvs |>.trans (List.map_id _)
  cases hr : registryEnumDescriptor (fieldDefiningFile file registry field) registry current
      field.kind with
  | some enumeration =>
      have hv := fun value hm => enumeration_of_typed hr (h value hm)
      obtain ⟨bytes, he, hread⟩ := @packedEnum_reads registry file nested nestedEntry _ _
        hn hrep _ hr hpacks _ hv
      refine ⟨bytes, _, he, Or.inr ?_, hread⟩
      rw [hprune]
      intro v hm
      obtain ⟨w, rfl, -⟩ := hv v hm
      rfl
  | none =>
      obtain ⟨first, hfirst⟩ := List.exists_mem_of_ne_nil values hne
      obtain ⟨scalar, hkind, hp⟩ := scalar_of_typed hpack hr (h first hfirst)
      unfold ValueTypedWith at h
      simp only [hkind, ElementTypedWith] at h
      obtain ⟨bytes, he, hread⟩ := @packedScalar_reads registry file nested nestedEntry
        current _ hn hrep _ hkind hp _ h
      refine ⟨bytes, _, he, Or.inl ?_, hread⟩
      rw [hprune (fun v hv => pruneWith_of_scalar (h v hv).hasType)]

end

end

end

end Pbz
