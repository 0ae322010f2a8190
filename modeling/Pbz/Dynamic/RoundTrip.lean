import Pbz.Dynamic.FieldRoundTrip

set_option autoImplicit false

/-! # The dynamic round trip

Decoding undoes encoding. The entries of a message are read one after the other (`StreamReads`),
each into an entry of its own, and the levels of nesting are an induction. `decode_encode` is the
whole trip for a message that is well typed at the reader's recursion limit.
-/

namespace Pbz

/-! ## Streams -/

/-- Bytes that a stream turns into a change of the message, whatever follows them. -/
def StreamReads (registry : Option Registry) (levels : Nat) (file : FileDescriptor)
    (message : DynamicMessage) (bytes : Bytes) (message' : DynamicMessage) : Prop :=
  ∀ endGroup rest, decodeStream registry levels file message endGroup (bytes ++ rest)
    = decodeStream registry levels file message' endGroup rest

section

variable {registry : Option Registry} {levels : Nat} {file : FileDescriptor}

theorem StreamReads.nil (message : DynamicMessage) :
    StreamReads registry levels file message [] message :=
  fun _ _ => rfl

theorem StreamReads.append {m₁ m₂ m₃ : DynamicMessage} {a b : Bytes}
    (h₁ : StreamReads registry levels file m₁ a m₂)
    (h₂ : StreamReads registry levels file m₂ b m₃) :
    StreamReads registry levels file m₁ (a ++ b) m₃ := by
  intro endGroup rest
  rw [List.append_assoc, h₁, h₂]

theorem findFieldByNumber_of_mem {descriptor : MessageDescriptor} (hv : descriptor.Valid)
    {field : FieldDescriptor} (h : field ∈ descriptor.fields) :
    descriptor.findFieldByNumber field.number = some field := by
  have key : ∀ fields : List FieldDescriptor, (fields.map FieldDescriptor.number).Nodup →
      field ∈ fields → fields.find? (fun f => f.number == field.number) = some field := by
    intro fields
    induction fields with
    | nil => intro _ hm; simp at hm
    | cons f rest ih =>
        intro hnd hm
        rw [List.map_cons, List.nodup_cons] at hnd
        rcases List.mem_cons.mp hm with rfl | hm'
        · simp
        · have hne : f.number ≠ field.number := by
            intro he
            exact hnd.1 (he ▸ List.mem_map_of_mem hm')
          rw [List.find?_cons_of_neg (by simpa using hne), ih hnd.2 hm']
  exact key _ hv.unique h

/-- An occurrence of a field of the message is read with its actions. -/
theorem streamReads_of_field {message : DynamicMessage} {field : FieldDescriptor}
    (hset : message.descriptor.messageSetWireFormat = false) (hn : ValidNumber field.number)
    (hf : fieldForNumber registry message.descriptor field.number = some field) {bytes : Bytes}
    {actions : List Action}
    (h : FieldReads registry (nestedStream registry levels) (nestedMapEntry registry levels) file
      message.descriptor field bytes actions) (hl : bytes.length < 2 ^ 64) :
    StreamReads registry levels file message bytes (message.actAll actions) := by
  obtain ⟨wireType, payload, rfl, hend, hread⟩ := h
  intro endGroup rest
  refine decodeStream_of_next ?_
  rw [readFieldAt, readField, List.append_assoc, tagBytes, nextTag_tag hn]
  simp only [if_neg hend, hset, Bool.false_and, Bool.false_eq_true, if_false, hf, hread hl]

end

/-! ## What the actions store -/

/-- No entry for the field's number, and no other member of its oneof. -/
structure Fresh (fields : List FieldValue) (field : FieldDescriptor) : Prop where
  number : ∀ entry ∈ fields, entry.descriptor.number ≠ field.number
  oneof : ∀ entry ∈ fields, ∀ name, field.oneofName = some name →
    entry.descriptor.oneofName ≠ some name

/-- Some entries, and an entry of the field behind them if it has values. -/
def withValues (fields : List FieldValue) (field : FieldDescriptor) (values : List Value) :
    List FieldValue :=
  match values with
  | [] => fields
  | _ :: _ => fields ++ [{ descriptor := field, values }]

theorem withValues_of_ne_nil {fields : List FieldValue} {field : FieldDescriptor}
    {values : List Value} (h : values ≠ []) :
    withValues fields field values = fields ++ [{ descriptor := field, values }] := by
  cases values with
  | nil => exact absurd rfl h
  | cons v vs => rfl

theorem mem_withValues {fields : List FieldValue} {field : FieldDescriptor} {values : List Value}
    {entry : FieldValue} (h : entry ∈ withValues fields field values) :
    entry ∈ fields ∨ entry.descriptor = field := by
  cases values with
  | nil => exact Or.inl h
  | cons v vs =>
      rcases List.mem_append.mp h with h | h
      · exact Or.inl h
      · rw [List.mem_singleton] at h
        exact Or.inr (by rw [h])

section

variable {current : MessageDescriptor} {fields : List FieldValue} {field : FieldDescriptor}

theorem updateOrCreate_withValues (hf : Fresh fields field) (change : List Value → List Value)
    (values : List Value) :
    updateOrCreate field change (withValues fields field values)
      = fields ++ [{ descriptor := field, values := change values }] := by
  cases values with
  | nil => exact updateOrCreate_fresh hf.number
  | cons v vs => exact updateOrCreate_last hf.number

theorem leaveOneof_withValues (hf : Fresh fields field) (values : List Value) :
    (DynamicMessage.mk current (withValues fields field values) []).leaveOneof field
      = { descriptor := current, fields := withValues fields field values,
          unknownFields := [] } := by
  refine DynamicMessage.leaveOneof_eq_self (fun entry he => ?_)
  rcases mem_withValues he with h | h
  · exact Or.inr (hf.oneof entry h)
  · exact Or.inl (by rw [h])

theorem appendValues_withValues (hf : Fresh fields field) (values added : List Value) :
    (DynamicMessage.mk current (withValues fields field values) []).appendValues field added
      = { descriptor := current,
          fields := fields ++ [{ descriptor := field, values := values ++ added }],
          unknownFields := [] } := by
  rw [DynamicMessage.appendValues, leaveOneof_withValues hf]
  simp only [updateOrCreate_withValues hf]

/-- One value of the field is stored behind those that are there. -/
theorem storeAction_withValues (hf : Fresh fields field) {values : List Value}
    (hs : field.isRepeatedLike = true ∨ values = []) (value : Value) :
    (DynamicMessage.mk current (withValues fields field values) []).act (storeAction field value)
      = { descriptor := current,
          fields := fields ++ [{ descriptor := field, values := values ++ [value] }],
          unknownFields := [] } := by
  rw [storeAction]
  by_cases hm : field.kind.isMap = true
  · rw [if_pos hm]
    exact appendValues_withValues hf values [value]
  · have htarget : (DynamicMessage.mk current (withValues fields field values) []).mergeTarget
        field = none := by
      refine DynamicMessage.mergeTarget_eq_none ?_
      rcases hs with hs | rfl
      · exact Or.inl hs
      · exact Or.inr hf.number
    have hvalues : DynamicMessage.addToValues field value values = values ++ [value] := by
      rw [DynamicMessage.addToValues_of_not_map (by simpa using hm)]
      rcases hs with hs | rfl
      · rw [hs]; rfl
      · simp
    rw [if_neg hm, DynamicMessage.act, DynamicMessage.add,
      DynamicMessage.mergeSingularMessageValue_eq_none htarget]
    simp only [DynamicMessage.insert, leaveOneof_withValues hf, updateOrCreate_withValues hf,
      hvalues]

end

/-! ## Entries and messages -/

section

variable {registry : Option Registry} {levels : Nat} {file : FileDescriptor}
variable {N : MessageDemand} {E : FileEntryDemand} {I : MessageDemand}

/-- The codec below reads back the messages, the map entries and the message set items that are
typed for it. -/
structure Below (registry : Option Registry) (levels : Nat) (N : MessageDemand)
    (E : FileEntryDemand) (I : MessageDemand) : Prop where
  message : ∀ file m, N file m → ReadsBack registry (nestedStream registry levels) file m
  entry : ∀ file current field keyType valueKind k v,
    E file current field keyType valueKind k v →
      EntryReadsBack registry (nestedMapEntry registry levels) file current field keyType
        valueKind k v
  item : ∀ file m, I file m → ∃ below, levels = below + 1
    ∧ ReadsBack registry (nestedStream registry below) file m

theorem encodeValues_reads (hb : Below registry levels N E I) {current : MessageDescriptor}
    {field : FieldDescriptor} (hset : current.messageSetWireFormat = false)
    (hn : ValidNumber field.number)
    (hf : fieldForNumber registry current field.number = some field)
    {fields : List FieldValue} (hfresh : Fresh fields field) {values : List Value}
    (ht : ∀ value ∈ values, ValueTypedWith registry N E file current field value) :
    ∀ stored : List Value, (field.isRepeatedLike = false → stored.length + values.length ≤ 1) →
      ∃ bytes, encodeValues registry file current field values = .ok bytes
        ∧ (bytes.length < 2 ^ 64 → StreamReads registry levels file
            { descriptor := current, fields := withValues fields field stored,
              unknownFields := [] } bytes
            { descriptor := current,
              fields := withValues fields field
                (stored ++ values.map (readBack registry file field)),
              unknownFields := [] }) := by
  induction values with
  | nil =>
      intro stored _
      refine ⟨[], rfl, fun _ => ?_⟩
      rw [List.map_nil, List.append_nil]
      exact StreamReads.nil _
  | cons value rest ih =>
      intro stored hs
      have hsingle : field.isRepeatedLike = true ∨ stored = [] := by
        cases hr : field.isRepeatedLike with
        | true => exact Or.inl rfl
        | false =>
            have := hs hr
            rw [List.length_cons] at this
            exact Or.inr (List.eq_nil_of_length_eq_zero (by omega))
      obtain ⟨first, he, hread⟩ := encodeField_reads hb.message hb.entry hn
        (ht value List.mem_cons_self)
      obtain ⟨others, he', hread'⟩ := ih (fun v hm => ht v (List.mem_cons_of_mem _ hm))
        (stored ++ [readBack registry file field value]) (fun hr => by
          have := hs hr
          simp only [List.length_append, List.length_cons, List.length_nil] at this ⊢
          omega)
      refine ⟨first ++ others, by rw [encodeValues, he, he']; rfl, fun hl => ?_⟩
      rw [List.length_append] at hl
      have hfirst : StreamReads registry levels file
          { descriptor := current, fields := withValues fields field stored, unknownFields := [] }
          _ _ := streamReads_of_field hset hn hf hread (by omega)
      rw [DynamicMessage.actAll_cons, DynamicMessage.actAll_nil,
        storeAction_withValues hfresh hsingle] at hfirst
      have hrest := hread' (by omega)
      rw [withValues_of_ne_nil (by simp)] at hrest
      rw [List.map_cons, List.append_cons]
      exact hfirst.append hrest

/-- An entry is encoded, and is read into an entry of its own. -/
theorem encodeEntry_reads (hb : Below registry levels N E I) {current : MessageDescriptor}
    (hset : current.messageSetWireFormat = false) {entry : FieldValue}
    (ht : EntryTypedWith registry N E file current entry) {fields : List FieldValue}
    (hfresh : entry.values ≠ [] → Fresh fields entry.descriptor) :
    ∃ bytes, encodeEntry registry file current entry = .ok bytes
      ∧ (bytes.length < 2 ^ 64 → StreamReads registry levels file
          { descriptor := current, fields, unknownFields := [] } bytes
          { descriptor := current, fields := fields ++ pruneEntryWith registry file current entry,
            unknownFields := [] }) := by
  obtain ⟨field, values⟩ := entry
  rw [encodeEntry, pruneEntryWith]
  by_cases hempty : values.isEmpty = true
  · simp only [hempty, if_true, Bool.true_or, List.append_nil]
    exact ⟨[], rfl, fun _ => StreamReads.nil _⟩
  · have hne : values ≠ [] := by simpa using hempty
    have hf := ht.found
    have hn := ht.number
    have hpruned : pruneValuesWith registry (elementFile registry file current field) values
        = values.map (readBack registry file field) := by
      rw [pruneValuesWith_eq_map, elementFile, hset, Bool.false_or]
    simp only [hempty, Bool.false_eq_true, if_false, ht.targets, ok_bind, Bool.false_or, hpruned]
    by_cases hskip : skipsDefault file registry current field values = true
    · simp only [hskip, if_true, List.append_nil]
      exact ⟨[], rfl, fun _ => StreamReads.nil _⟩
    · simp only [hskip, Bool.false_eq_true, if_false]
      by_cases hpacked : resolvedPackedForEncoding file registry current field = true
      · rw [if_pos hpacked]
        obtain ⟨bytes, actions, he, hact, hread⟩ := @encodePacked_reads registry file
          (nestedStream registry levels) (nestedMapEntry registry levels) _ _ _ _
          hn hpacked (ht.packs hpacked) _ hne ht.typed
        refine ⟨bytes, he, fun hl => ?_⟩
        have hstream : StreamReads registry levels file
            { descriptor := current, fields := withValues fields field [], unknownFields := [] }
            _ _ := streamReads_of_field hset hn hf hread hl
        have hstore := @appendValues_withValues current _ _ (hfresh hne) []
          (values.map (readBack registry file field))
        rcases hact with rfl | rfl
        · rw [DynamicMessage.actAll_cons, DynamicMessage.actAll_nil, DynamicMessage.act, hstore]
            at hstream
          exact hstream
        · simp only [DynamicMessage.actAll_cons, DynamicMessage.actAll_nil, DynamicMessage.act,
            hstore, List.append_nil] at hstream
          exact hstream
      · rw [if_neg hpacked]
        have hsingle : field.isRepeatedLike = false → ([] : List Value).length + values.length ≤ 1 :=
          fun hr => by have := ht.singular hr; simpa using this
        obtain ⟨bytes, he, hread⟩ := encodeValues_reads hb hset hn hf (hfresh hne) ht.typed []
          hsingle
        refine ⟨bytes, he, fun hl => ?_⟩
        have hstream := hread hl
        have hvalues : values.map (readBack registry file field) ≠ [] := by simpa using hne
        rw [List.nil_append, withValues_of_ne_nil hvalues] at hstream
        exact hstream

/-! ## Message sets -/

/-- A message is never passed over as a default. -/
theorem skipsDefault_message (file : FileDescriptor) (registry : Option Registry)
    (current : MessageDescriptor) (field : FieldDescriptor) (message : DynamicMessage) :
    skipsDefault file registry current field [.message message] = false := by
  have hplain : isDefaultSingularValue field (.message message) = false := by
    unfold isDefaultSingularValue
    split
    · rfl
    · cases field.kind with
      | scalar scalar => cases scalar <;> rfl
      | _ => rfl
  have hdefault : isDefaultSingularValueForEncoding file registry current field (.message message)
      = false := by
    unfold isDefaultSingularValueForEncoding
    split
    · rfl
    · split
      · exact hplain
      · rfl
  unfold skipsDefault
  simp only [hdefault, Bool.and_false]

/-- The bytes of a message set item. -/
theorem writeMessageSetItem_ok (number : Nat) (payload : Bytes) :
    writeMessageSetItem number payload
      = .ok (tagBytes 1 .startGroup ++ (tagBytes 2 .varint ++ (writeVarint number
          ++ (tagBytes 3 .lengthDelimited ++ (lengthPrefixed payload
            ++ tagBytes 1 .endGroup))))) := by
  have hwrite : writeMessage 3 payload
      = .ok (tagBytes 3 .lengthDelimited ++ lengthPrefixed payload) :=
    writeBytes_ok (by decide) payload
  rw [writeMessageSetItem, hwrite, writeTag_eq (by decide), writeTag_eq (by decide),
    writeTag_eq (by decide)]
  simp only [ok_bind, List.append_assoc]
  rfl

/-- The fields of an item are its number and its payload. -/
theorem messageSetItem_run {number : Nat} (hn : ValidNumber number) (levels : Nat)
    {payload : Bytes} (hl : payload.length < 2 ^ 64) (rest : Bytes) :
    Loop.run (messageSetItemPass levels) {}
        (tagBytes 2 .varint ++ (writeVarint number ++ (tagBytes 3 .lengthDelimited
          ++ (lengthPrefixed payload ++ (tagBytes 1 .endGroup ++ rest)))))
      = ({ typeId := some number, payload := some payload }, .ok rest) := by
  have hc := messageSetItemPass_consuming levels
  have hid : messageSetItemPass levels {} (tagBytes 2 .varint ++ (writeVarint number
      ++ (tagBytes 3 .lengthDelimited ++ (lengthPrefixed payload
        ++ (tagBytes 1 .endGroup ++ rest)))))
      = .next { typeId := some number } (tagBytes 3 .lengthDelimited ++ (lengthPrefixed payload
          ++ (tagBytes 1 .endGroup ++ rest))) := by
    have hmax := hn.2
    have hpos := hn.1
    have hlt : number < 2 ^ 32 := by
      simp only [maxFieldNumber] at hmax
      omega
    rw [messageSetItemPass, tagBytes, nextTag_tag (by decide)]
    simp only [reduceCtorEq, if_false, if_true, ne_eq, not_true_eq_false]
    rw [readVarint_writeVarint (by omega)]
    simp only [Nat.mod_eq_of_lt hlt]
    rw [if_neg (by omega)]
  have hpayload : messageSetItemPass levels { typeId := some number }
      (tagBytes 3 .lengthDelimited ++ (lengthPrefixed payload ++ (tagBytes 1 .endGroup ++ rest)))
      = .next { typeId := some number, payload := some payload } (tagBytes 1 .endGroup ++ rest) := by
    rw [messageSetItemPass, tagBytes, nextTag_tag (by decide)]
    simp only [reduceCtorEq, if_false, show ¬ (3 : Nat) = 2 by decide, if_true, ne_eq,
      not_true_eq_false, readBytes_lengthPrefixed hl]
  have hend : messageSetItemPass levels { typeId := some number, payload := some payload }
      (tagBytes 1 .endGroup ++ rest)
      = .done { typeId := some number, payload := some payload } rest := by
    rw [messageSetItemPass, tagBytes, nextTag_tag (by decide)]
    simp only [if_true, ne_eq, not_true_eq_false, if_false]
  rw [Loop.run_of_next hc hid, Loop.run_of_next hc hpayload, Loop.run_of_done hend]

/-- An item of a message set is encoded, and is read into an entry of its own. -/
theorem encodeMessageSetEntry_reads (hb : Below registry levels N E I)
    {host : MessageDescriptor} (hset : host.messageSetWireFormat = true) {entry : FieldValue}
    (ht : ItemTypedWith registry I file host entry) {fields : List FieldValue}
    (hfresh : entry.values ≠ [] → Fresh fields entry.descriptor) :
    ∃ bytes, encodeMessageSetEntry registry file host entry = .ok bytes
      ∧ (bytes.length < 2 ^ 64 → StreamReads registry levels file
          { descriptor := host, fields, unknownFields := [] } bytes
          { descriptor := host, fields := fields ++ pruneEntryWith registry file host entry,
            unknownFields := [] }) := by
  obtain ⟨field, values⟩ := entry
  rw [encodeMessageSetEntry, pruneEntryWith, if_pos ht.allowed]
  have hsingular := ht.singular
  have htyped := ht.typed
  cases values with
  | nil =>
      simp only [List.isEmpty_nil, Bool.true_or, if_true, List.append_nil]
      exact ⟨[], rfl, fun _ => StreamReads.nil _⟩
  | cons value more =>
      obtain rfl : more = [] := by
        rw [← List.length_eq_zero_iff]
        simpa using hsingular
      obtain ⟨name, message, hkind, rfl, hr, hm⟩ := htyped value List.mem_cons_self
      have hn := ht.number
      obtain ⟨below, rfl, hback⟩ := hb.item _ _ hm
      obtain ⟨body, he, hd, hread⟩ := id hback
      have hskip : skipsDefault file registry host field [.message message] = false :=
        skipsDefault_message file registry host field message
      simp only [List.isEmpty_cons, hskip, Bool.or_false, Bool.false_eq_true, if_false,
        encodeMessageSetValues, encodeMessageSetValue, he, ok_bind, writeMessageSetItem_ok,
        List.append_nil]
      refine ⟨_, rfl, fun hl => ?_⟩
      have hbody : body.length < 2 ^ 64 := by
        simp only [List.length_append, lengthPrefixed] at hl
        omega
      obtain ⟨stream, hs, hdec, -⟩ := hread hbody
      have hpayload : readMessageSetPayload registry (nestedStream registry below) file host
          field.number body
          = .ok (.add field ((Value.message message).pruneWith registry file)) := by
        have hcard : ¬ (field.cardinality = .repeated ∨ field.cardinality = .required) := by
          have hallowed := ht.allowed
          simp only [messageSetEntryAllowed, Bool.and_eq_true, bne_iff_ne, ne_eq] at hallowed
          rintro (hc | hc)
          · exact hallowed.1.1.2 hc
          · exact hallowed.1.2 hc
        simp only [readMessageSetPayload, show registryExtension registry host field.number
          = some field from ht.found, show field.kind = .message name from hkind, if_neg hcard, hs,
          decodeMessagePayload_ok hr hdec hd, ok_bind]
        rfl
      have hact : (DynamicMessage.mk host fields []).actAll
          [.add field ((Value.message message).pruneWith registry file)]
          = { descriptor := host,
              fields := fields
                ++ [{ descriptor := field,
                      values := [(Value.message message).pruneWith registry file] }],
              unknownFields := [] } := by
        have hstore := @storeAction_withValues host _ _ (hfresh (by simp)) [] (Or.inr rfl)
          ((Value.message message).pruneWith registry file)
        rw [storeAction, show field.kind = .message name from hkind] at hstore
        exact hstore
      intro endGroup rest
      rw [pruneValuesWith, pruneValuesWith, elementFile, hset, Bool.true_or, if_pos rfl, ← hact]
      refine decodeStream_of_next ?_
      simp only [List.append_assoc]
      rw [readFieldAt, readField, tagBytes, nextTag_tag (by decide)]
      simp only [reduceCtorEq, if_false, hset, beq_self_eq_true, Bool.and_self, if_true,
        nestedReadItem, readMessageSetItem, messageSetItem_run hn below hbody, hpayload]

/-! ## Whole messages -/

/-- The entries that an entry is read into belong to its field and are not empty. -/
theorem mem_pruneEntryWith {current : MessageDescriptor} {entry pruned : FieldValue}
    (h : pruned ∈ pruneEntryWith registry file current entry) :
    pruned.descriptor = entry.descriptor ∧ entry.values ≠ [] := by
  obtain ⟨field, values⟩ := entry
  rw [pruneEntryWith] at h
  split at h
  · simp at h
  · next hc =>
    rw [List.mem_singleton] at h
    refine ⟨by rw [h], fun he => hc ?_⟩
    rw [show values = [] from he]
    rfl

/-- Entries that are encoded and read one by one are encoded and read one after the other. -/
theorem entries_read {current : MessageDescriptor}
    {encode : FieldValue → Except Error Bytes} {encodeAll : List FieldValue → Except Error Bytes}
    (hnil : encodeAll [] = .ok [])
    (hcons : ∀ entry rest, encodeAll (entry :: rest) = (do
      let first ← encode entry
      let others ← encodeAll rest
      return first ++ others))
    {entries : List FieldValue}
    (hread : ∀ entry ∈ entries, ∀ fields : List FieldValue,
      (entry.values ≠ [] → Fresh fields entry.descriptor) →
      ∃ bytes, encode entry = .ok bytes
        ∧ (bytes.length < 2 ^ 64 → StreamReads registry levels file
            { descriptor := current, fields, unknownFields := [] } bytes
            { descriptor := current,
              fields := fields ++ pruneEntryWith registry file current entry,
              unknownFields := [] })) :
    (entries.map (fun entry => entry.descriptor.number)).Nodup → entries.Pairwise OneMember →
    ∀ fields : List FieldValue,
      (∀ entry ∈ entries, entry.values ≠ [] → Fresh fields entry.descriptor) →
      ∃ bytes, encodeAll entries = .ok bytes
        ∧ (bytes.length < 2 ^ 64 → StreamReads registry levels file
            { descriptor := current, fields, unknownFields := [] } bytes
            { descriptor := current,
              fields := fields ++ pruneEntriesWith registry file current entries,
              unknownFields := [] }) := by
  induction entries with
  | nil =>
      intro _ _ fields _
      refine ⟨[], hnil, fun _ => ?_⟩
      rw [pruneEntriesWith, List.append_nil]
      exact StreamReads.nil _
  | cons entry rest ih =>
      intro hnd hone fields hfresh
      rw [List.map_cons, List.nodup_cons] at hnd
      obtain ⟨hhead, htail⟩ := List.pairwise_cons.mp hone
      obtain ⟨first, he, hfirst⟩ := hread entry List.mem_cons_self fields
        (hfresh entry List.mem_cons_self)
      have hfresh' : ∀ e ∈ rest, e.values ≠ [] →
          Fresh (fields ++ pruneEntryWith registry file current entry) e.descriptor := by
        intro e hm hne
        have hold := hfresh e (List.mem_cons_of_mem _ hm) hne
        constructor
        · intro x hx
          rcases List.mem_append.mp hx with hx | hx
          · exact hold.number x hx
          · rw [(mem_pruneEntryWith hx).1]
            exact fun heq => hnd.1 (List.mem_map.mpr ⟨e, hm, heq.symm⟩)
        · intro x hx name hname
          rcases List.mem_append.mp hx with hx | hx
          · exact hold.oneof x hx name hname
          · obtain ⟨hd, hvne⟩ := mem_pruneEntryWith hx
            rw [hd]
            exact fun hc => hhead e hm hvne hne name hc hname
      obtain ⟨others, he', hothers⟩ := ih (fun e hm => hread e (List.mem_cons_of_mem _ hm)) hnd.2
        htail _ hfresh'
      refine ⟨first ++ others, by rw [hcons, he, he']; rfl, fun hl => ?_⟩
      rw [List.length_append] at hl
      rw [pruneEntriesWith, ← List.append_assoc]
      exact (hfirst (by omega)).append (hothers (by omega))

/-- An unknown field is kept behind the others. -/
theorem streamReads_unknown {message : DynamicMessage} {unknown : UnknownField} {bytes : Bytes}
    (h : ∀ endGroup rest, readFieldAt registry levels file endGroup message.descriptor
        (bytes ++ rest)
      = { actions := [.unknown [unknown]], ending := .next rest }) :
    StreamReads registry levels file message bytes
      { message with unknownFields := message.unknownFields ++ [unknown] } := by
  intro endGroup rest
  exact decodeStream_of_next (h endGroup rest)

/-- The unknown fields are written, and are read back in their order. -/
theorem encodeUnknown_reads {descriptor : MessageDescriptor} {unknownFields : List UnknownField}
    (ht : ∀ unknown ∈ unknownFields, UnknownTyped registry levels file descriptor unknown) :
    ∀ (fields : List FieldValue) (stored : List UnknownField),
      ∃ bytes, (if descriptor.messageSetWireFormat then encodeUnknownMessageSetFields unknownFields
          else .ok (unknownFields.flatMap UnknownField.data)) = .ok bytes
        ∧ StreamReads registry levels file { descriptor, fields, unknownFields := stored } bytes
            { descriptor, fields,
              unknownFields := stored ++ unknownFields.map (UnknownField.settled descriptor) } := by
  induction unknownFields with
  | nil =>
      intro fields stored
      refine ⟨[], by split <;> rfl, ?_⟩
      rw [List.map_nil, List.append_nil]
      exact StreamReads.nil _
  | cons unknown rest ih =>
      intro fields stored
      obtain ⟨first, he, hread⟩ := ht unknown List.mem_cons_self
      obtain ⟨others, he', hread'⟩ := ih (fun u hm => ht u (List.mem_cons_of_mem _ hm)) fields
        (stored ++ [unknown.settled descriptor])
      refine ⟨first ++ others, ?_, ?_⟩
      · rw [encodeUnknownField] at he
        by_cases hset : descriptor.messageSetWireFormat = true
        · rw [if_pos hset] at he he' ⊢
          rw [encodeUnknownMessageSetFields, he, he']
          rfl
        · rw [if_neg hset, Except.ok.injEq] at he he' ⊢
          rw [List.flatMap_cons, he, he']
      · have hfirst := @streamReads_unknown registry levels file
          { descriptor, fields, unknownFields := stored } _ _ hread
        rw [List.map_cons, List.append_cons]
        exact hfirst.append hread'

/-- Pruning keeps keys apart. -/
theorem pruneValuesWith_distinct {values : List Value} (h : DistinctKeys values) :
    DistinctKeys (pruneValuesWith registry file values) := by
  have hkey : ∀ (a key : Value), (a.pruneWith registry file).hasKey key = a.hasKey key := by
    intro a key
    cases a <;> rfl
  rw [pruneValuesWith_eq_map, DistinctKeys, List.pairwise_map]
  refine h.imp (fun {a b} hab k v hb => ?_)
  rw [hkey]
  cases b <;> simp only [Value.pruneWith, Value.mapEntry.injEq, reduceCtorEq] at hb
  next k' v' => exact hab k v' (by rw [hb.1])

/-- The keys of a typed message's map fields are different. -/
theorem MessageTypedWith.keys {message : DynamicMessage}
    (h : MessageTypedWith registry levels N E I file message) {entry : FieldValue}
    (hm : entry ∈ message.fields) (hmap : entry.descriptor.kind.isMap = true) :
    DistinctKeys entry.values := by
  cases hset : message.descriptor.messageSetWireFormat with
  | false => exact (h.entries hset entry hm).keys
  | true =>
      have hallowed := (h.items hset entry hm).allowed
      cases hkind : entry.descriptor.kind with
      | map keyType valueKind => simp [messageSetEntryAllowed, hkind, FieldKind.isMessage] at hallowed
      | _ => rw [hkind] at hmap; simp [FieldKind.isMap] at hmap

/-- Nothing is left to deduplicate in a typed message. -/
theorem pruneWith_deduplicate {message : DynamicMessage}
    (h : MessageTypedWith registry levels N E I file message) :
    (message.pruneWith registry file).deduplicateDecodedMapFields
      = message.pruneWith registry file := by
  have key : ∀ (current : MessageDescriptor) (entries : List FieldValue),
      (∀ entry ∈ entries, entry.descriptor.kind.isMap = true → DistinctKeys entry.values) →
      (pruneEntriesWith registry file current entries).map (fun entry =>
          if entry.descriptor.kind.isMap then
            { entry with values := deduplicateDecodedMapField entry.values }
          else entry)
        = pruneEntriesWith registry file current entries := by
    intro current entries
    induction entries with
    | nil => intro _; rfl
    | cons entry rest ih =>
        intro hk
        rw [pruneEntriesWith, List.map_append, ih (fun e hm => hk e (List.mem_cons_of_mem _ hm))]
        congr 1
        obtain ⟨field, values⟩ := entry
        rw [pruneEntryWith]
        split
        · rfl
        · by_cases hmap : field.kind.isMap = true
          · have hdistinct := @pruneValuesWith_distinct registry
              (elementFile registry file current field) _ (hk _ List.mem_cons_self hmap)
            simp only [List.map_cons, List.map_nil, hmap, if_true,
              deduplicateDecodedMapField_distinct hdistinct]
          · simp only [List.map_cons, List.map_nil, if_neg hmap]
  have hkeys : ∀ entry ∈ message.fields, entry.descriptor.kind.isMap = true →
      DistinctKeys entry.values := fun entry hm hmap => h.keys hm hmap
  obtain ⟨descriptor, fields, unknownFields⟩ := message
  rw [DynamicMessage.pruneWith, DynamicMessage.deduplicateDecodedMapFields]
  simp only [key descriptor fields hkeys]

/-- The stream ends at the end of its input. -/
theorem decodeStream_nil (message : DynamicMessage) :
    decodeStream registry levels file message none [] = (message, .ok []) :=
  Loop.run_of_done rfl

/-- The stream of a group ends with its end tag. -/
theorem decodeStream_endGroup (message : DynamicMessage) {number : Nat}
    (hn : ValidNumber number) (rest : Bytes) :
    decodeStream registry levels file message (some number) (tagBytes number .endGroup ++ rest)
      = (message, .ok rest) := by
  refine Loop.run_of_done ?_
  rw [decodePass, tagBytes, nextTag_tag hn]
  simp

/-- A typed message is read back by the codec of its level. -/
theorem readsBack_of_typed (hb : Below registry levels N E I) {message : DynamicMessage}
    (h : MessageTypedWith registry levels N E I file message) :
    ReadsBack registry (some (decodeStream registry levels)) file message := by
  have hdedup := pruneWith_deduplicate h
  obtain ⟨descriptor, fields, unknownFields⟩ := message
  have hentries : ∃ bytes,
      (if descriptor.messageSetWireFormat then encodeMessageSetEntries registry file descriptor fields
        else encodeEntries registry file descriptor fields) = .ok bytes
      ∧ (bytes.length < 2 ^ 64 → StreamReads registry levels file
          { descriptor, fields := [], unknownFields := [] } bytes
          { descriptor, fields := pruneEntriesWith registry file descriptor fields,
            unknownFields := [] }) := by
    cases hset : descriptor.messageSetWireFormat with
    | false =>
        simp only [Bool.false_eq_true, if_false]
        exact @entries_read registry levels file descriptor (encodeEntry registry file descriptor)
          (encodeEntries registry file descriptor) rfl (fun _ _ => rfl) _
          (fun entry hm fields hfresh => encodeEntry_reads hb hset (h.entries hset entry hm) hfresh)
          h.unique h.oneofs [] (fun _ _ _ => ⟨by simp, by simp⟩)
    | true =>
        simp only [if_true]
        exact @entries_read registry levels file descriptor
          (encodeMessageSetEntry registry file descriptor)
          (encodeMessageSetEntries registry file descriptor) rfl (fun _ _ => rfl) _
          (fun entry hm fields hfresh =>
            encodeMessageSetEntry_reads hb hset (h.items hset entry hm) hfresh)
          h.unique h.oneofs [] (fun _ _ _ => ⟨by simp, by simp⟩)
  obtain ⟨bytes, he, hread⟩ := hentries
  obtain ⟨unknown, hu, hunknown⟩ := encodeUnknown_reads h.unknown
    (pruneEntriesWith registry file descriptor fields) []
  have hencode : (DynamicMessage.mk descriptor fields unknownFields).encodeWithRegistry registry
      file = .ok (bytes ++ unknown) := by
    rw [DynamicMessage.encodeWithRegistry]
    cases hset : descriptor.messageSetWireFormat with
    | false =>
        simp only [hset, Bool.false_eq_true, if_false, Except.ok.injEq] at he hu ⊢
        rw [he, ok_bind, hu]
        rfl
    | true =>
        simp only [hset, if_true] at he hu ⊢
        rw [he, hu]
        rfl
  refine ⟨_, hencode, hdedup, fun hl => ⟨_, rfl, ?_, fun number rest hn => ?_⟩⟩
  · have hstream := (hread (by rw [List.length_append] at hl; omega)).append hunknown none []
    rw [List.append_nil] at hstream
    rw [DynamicMessage.init, hstream, decodeStream_nil, DynamicMessage.pruneWith]
    rfl
  · have hstream := (hread (by rw [List.length_append] at hl; omega)).append hunknown
    rw [DynamicMessage.init, hstream, decodeStream_endGroup _ hn, DynamicMessage.pruneWith]
    rfl

end

/-! ## All levels -/

/-- At every level the codec below reads back what is typed for it. -/
theorem below_typed (registry : Option Registry) (levels : Nat) :
    Below registry levels (NestedTypedWith registry levels) (NestedEntryTypedWith registry levels)
      (NestedItemTypedWith registry levels) := by
  have hmessage : ∀ levels, Below registry levels (NestedTypedWith registry levels)
      (NestedEntryTypedWith registry levels) (NestedItemTypedWith registry levels) →
      ∀ file m, NestedTypedWith registry (levels + 1) file m →
        ReadsBack registry (nestedStream registry (levels + 1)) file m := by
    intro levels hb file m h
    rw [nestedStream_succ]
    exact readsBack_of_typed hb h
  induction levels with
  | zero =>
      exact ⟨fun _ _ h => absurd h id, fun _ _ _ _ _ _ _ h => absurd h id,
        fun _ _ h => absurd h id⟩
  | succ levels ih =>
      constructor
      · exact hmessage levels ih
      · intro file current field keyType valueKind k v h
        exact entryReadsBack ih.message levels h
      · intro file m h
        exact ⟨levels, rfl, ih.message file m h⟩

/-- Encoding a message that is well typed for the file and the registry succeeds, and decoding the
bytes with them gives the message back, without the entries that the encoder passes over. -/
theorem decodeWithRegistry_encodeWithRegistry (registry : Option Registry)
    (file : FileDescriptor) (message : DynamicMessage)
    (h : WellTypedWith registry file recursionLimit message) :
    ∃ bytes, message.encodeWithRegistry registry file = .ok bytes
      ∧ (bytes.length < 2 ^ 64 → ∀ target : DynamicMessage,
          target.descriptor = message.descriptor →
            target.decodeWithRegistry file registry bytes
              = (message.pruneWith registry file, .ok ())) := by
  obtain ⟨bytes, he, hdedup, hread⟩ := readsBack_of_typed (below_typed registry recursionLimit) h
  refine ⟨bytes, he, fun hl target ht => ?_⟩
  obtain ⟨stream, hs, hdec, -⟩ := hread hl
  rw [Option.some.injEq] at hs
  subst hs
  rw [DynamicMessage.decodeWithRegistry, DynamicMessage.clear, ht, hdec]
  simp only [hdedup]

/-! ## Without a registry -/

section

variable {file : FileDescriptor} {N : DynamicMessage → Prop} {E : EntryDemand}
variable {N' : MessageDemand} {E' : FileEntryDemand} {I : MessageDemand}

/-- The demands below, with and without a registry, and what they leave of a value. -/
structure Agree (file : FileDescriptor) (N : DynamicMessage → Prop) (E : EntryDemand)
    (N' : MessageDemand) (E' : FileEntryDemand) : Prop where
  message : ∀ m, N m → N' file m ∧ m.pruneWith none file = m.prune file
  entry : ∀ current field keyType valueKind k v, E current field keyType valueKind k v →
    E' file current field keyType valueKind k v ∧ v.pruneWith none file = v.prune file

theorem Agree.element (ha : Agree file N E N' E') {current : MessageDescriptor}
    {field : FieldDescriptor} {kind : FieldKind} {value : Value}
    (h : ElementTyped N file current field kind value) :
    ElementTypedWith none N' file current field kind value
      ∧ value.pruneWith none file = value.prune file := by
  cases kind with
  | scalar scalar =>
      exact ⟨h, by rw [pruneWith_of_scalar h.hasType, prune_of_scalar h.hasType]⟩
  | enumeration name => cases value <;> simp only [ElementTyped] at h; exact ⟨h, rfl⟩
  | message name =>
      cases value <;> simp only [ElementTyped] at h
      · exact ⟨h, rfl⟩
      · next message =>
        obtain ⟨hm, hp⟩ := ha.message message h.2
        refine ⟨⟨⟨h.1.noEnum, h.1.resolves⟩, hm⟩, ?_⟩
        rw [Value.pruneWith, Value.prune, messageDefiningFile_none, hp]
  | group name => cases value <;> simp only [ElementTyped] at h
  | map keyType valueKind => cases value <;> simp only [ElementTyped] at h

theorem Agree.value (ha : Agree file N E N' E') {current : MessageDescriptor}
    {field : FieldDescriptor} {value : Value} (h : ValueTyped N E file current field value) :
    ValueTypedWith none N' E' file current field value
      ∧ value.pruneWith none file = value.prune file := by
  unfold ValueTyped at h
  unfold ValueTypedWith
  cases hkind : field.kind with
  | group name =>
      cases value <;> simp only [hkind, ElementTyped] at h
      next message =>
        obtain ⟨hm, hp⟩ := ha.message message h.2
        refine ⟨⟨h.1, rfl, hm⟩, ?_⟩
        rw [Value.pruneWith, Value.prune, messageDefiningFile_none, hp]
  | map keyType valueKind =>
      cases value <;> simp only [hkind, ElementTyped] at h
      next k v =>
        obtain ⟨he, hp⟩ := ha.entry _ _ _ _ _ _ h
        refine ⟨he, ?_⟩
        rw [Value.pruneWith, Value.prune, hp]
  | _ =>
      simp only [hkind] at h
      exact ha.element h

/-- A message that is typed without a registry is typed with none. -/
theorem Agree.typed (ha : Agree file N E N' E') {levels : Nat} {message : DynamicMessage}
    (h : MessageTyped N E file message) :
    MessageTypedWith none levels N' E' I file message
      ∧ message.pruneWith none file = message.prune file := by
  constructor
  · constructor
    · intro _ entry hm
      have he := h.entries entry hm
      have hf := findFieldByNumber_of_mem h.valid he.declared
      constructor
      · rw [fieldForNumber, hf, Option.some_or]
      · exact h.valid.numbers _ he.declared
      · rw [validateFieldTargetsMessage, he.noExtension]
        rfl
      · exact fun _ => rfl
      · exact fun value hv => (ha.value (he.typed value hv)).1
      · exact he.singular
      · exact he.keys
    · intro hset entry hm
      have hdeclared := (h.entries entry hm).declared
      rw [h.valid.messageSet hset] at hdeclared
      simp at hdeclared
    · exact h.unique
    · exact h.oneofs
    · rw [h.unknown]
      simp
  · have hentries := h.entries
    have hunknown := h.unknown
    obtain ⟨descriptor, fields, unknownFields⟩ := message
    have hvalues : ∀ {field : FieldDescriptor} {values : List Value},
        (∀ value ∈ values, ValueTyped N E file descriptor field value) →
        pruneValuesWith none file values = pruneValues file values := by
      intro field values hv
      rw [pruneValuesWith_eq_map, pruneValues_eq_map]
      exact List.map_congr_left (fun value hm => (ha.value (hv value hm)).2)
    have hfields : ∀ entries : List FieldValue,
        (∀ entry ∈ entries, EntryTyped N E file descriptor entry) →
        pruneEntriesWith none file descriptor entries = pruneEntries file descriptor entries := by
      intro entries
      induction entries with
      | nil => intro _; rfl
      | cons entry rest ih =>
          intro ht
          obtain ⟨field, values⟩ := entry
          rw [pruneEntriesWith, pruneEntries, ih (fun e hm => ht e (List.mem_cons_of_mem _ hm)),
            pruneEntryWith, pruneEntry, elementFile_none,
            hvalues (ht _ List.mem_cons_self).typed]
    have hnil : unknownFields = [] := hunknown
    subst hnil
    rw [DynamicMessage.pruneWith, DynamicMessage.prune, hfields fields hentries, List.map_nil]

end

theorem agree_typed (file : FileDescriptor) (levels : Nat) :
    Agree file (NestedTyped file levels) (NestedEntryTyped file levels)
      (NestedTypedWith none levels) (NestedEntryTypedWith none levels) := by
  induction levels with
  | zero => exact ⟨fun _ h => absurd h id, fun _ _ _ _ _ _ h => absurd h id⟩
  | succ levels ih =>
      constructor
      · intro m h
        exact ih.typed h
      · intro current field keyType valueKind k v h
        exact ⟨⟨h.1, (ih.element h.2).1⟩, (ih.element h.2).2⟩

def labelField : FieldDescriptor :=
  { name := ascii "label", number := 1, cardinality := .optional, kind := .scalar .string }

def nextField : FieldDescriptor :=
  { name := ascii "next", number := 2, cardinality := .optional,
    kind := .message (ascii "Trail") }

/-- A message type that refers to itself. -/
def trailDescriptor : MessageDescriptor :=
  { name := ascii "Trail", fields := [labelField, nextField] }

def trailFile : FileDescriptor := { messages := [trailDescriptor] }

def trailMessage (label : Bytes) (next : List Value) : DynamicMessage :=
  { descriptor := trailDescriptor,
    fields := [{ descriptor := labelField, values := [.string label] },
      { descriptor := nextField, values := next }],
    unknownFields := [] }

theorem trailMessage_typed {N : DynamicMessage → Prop} {E : EntryDemand} (label : Bytes)
    {next : List Value} (hl : next.length ≤ 1)
    (hn : ∀ value ∈ next, ∃ m : DynamicMessage, value = .message m
      ∧ m.descriptor = trailDescriptor ∧ N m) :
    MessageTyped N E trailFile (trailMessage label next) where
  valid :=
    { unique := show [labelField.number, nextField.number].Nodup by decide
      numbers := by
        intro field hf
        simp only [trailMessage, trailDescriptor, List.mem_cons, List.not_mem_nil, or_false] at hf
        rcases hf with rfl | rfl <;> exact ⟨by decide, by decide⟩
      messageSet := fun h => absurd (show trailDescriptor.messageSetWireFormat = true from h)
        (by decide) }
  entries := by
    intro entry he
    simp only [trailMessage, List.mem_cons, List.not_mem_nil, or_false] at he
    rcases he with rfl | rfl
    · refine ⟨List.mem_cons_self, rfl, ?_, fun _ => Nat.le_refl _, List.pairwise_singleton _ _⟩
      intro value hv
      rw [List.mem_singleton] at hv
      subst hv
      refine ⟨rfl, fun s _ hs => absurd hs ?_⟩
      exact show ¬ labelField.utf8Validation trailFile = .verify by decide
    · refine ⟨List.mem_cons_of_mem _ List.mem_cons_self, rfl, ?_, fun _ => hl, ?_⟩
      · intro value hv
        obtain ⟨m, rfl, hd, hm⟩ := hn value hv
        refine ⟨⟨?_, by rw [hd]; rfl⟩, hm⟩
        exact show registryEnumDescriptor trailFile none trailDescriptor
          (.message (ascii "Trail")) = none from rfl
      · match next, hl with
        | [], _ => exact List.Pairwise.nil
        | [value], _ => exact List.pairwise_singleton _ _
  unique := show [labelField.number, nextField.number].Nodup by decide
  oneofs := by
    refine List.pairwise_pair.mpr (fun _ _ name h => ?_)
    simp [labelField] at h
  unknown := rfl

end Pbz
