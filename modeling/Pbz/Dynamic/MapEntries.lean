import Pbz.Dynamic.FieldRoundTrip

set_option autoImplicit false

/-! # Map entries with values of a closed enum

The loop of `decodeMapEntryValue` ends with the first value that the enum does not declare, and
the entry becomes an unknown field. `EntryFields` is what the whole payload says: the loop that
reads every field of it. The two agree up to the first undeclared value; whether they agree on what
becomes of the entry depends on what stands behind it.
-/

namespace Pbz

open Loop

/-! ## All fields of an entry -/

/-- The last key of an entry and its values, in their order. -/
structure EntryFields where
  key : Option Value := none
  values : List (BitVec 32) := []

section

variable (registry : Option Registry) (nested : Option StreamDecoder)

/-- One field of an entry whose values are enum numbers. -/
def entryFieldPass (levels : Nat) (file : FileDescriptor) (current : MessageDescriptor)
    (field : FieldDescriptor) (keyType : ScalarType) (state : EntryFields) (input : Bytes) :
    Loop.Step UInt8 EntryFields Error :=
  match nextTag input with
  | .error e => .fail state e
  | .ok none => .done state input
  | .ok (some (tag, rest)) =>
      if tag.number = 1 then
        if tag.wireType ≠ keyType.wireType then .fail state .invalidWireType
        else match decodeValue registry nested file current field (.scalar keyType) rest with
          | .error e => .fail state e
          | .ok (key, rest) => .next { state with key := some key } rest
      else if tag.number = 2 then
        if tag.wireType ≠ .varint then .fail state .invalidWireType
        else match readInt32 rest with
          | .error e => .fail state e
          | .ok (v, rest) => .next { state with values := state.values ++ [v] } rest
      else match skipValue levels tag rest with
        | .error e => .fail state e
        | .ok rest => .next state rest

end

/-- The fields of a payload in front of its first malformed one, and that one's error. A reader
that may not descend cannot read the entry. -/
def readEntryFields (registry : Option Registry) (levels : Nat) (file : FileDescriptor)
    (current : MessageDescriptor) (field : FieldDescriptor) (keyType : ScalarType)
    (payload : Bytes) : EntryFields × Except Error Bytes :=
  match levels with
  | 0 => ({}, .error .recursionLimitExceeded)
  | levels + 1 =>
      Loop.run (entryFieldPass registry (nestedStream registry levels) levels file current field
        keyType) {} payload

namespace EntryFields

/-- The state of the loop of `decodeMapEntryValue` as long as every value is declared. -/
def seen (fields : EntryFields) : MapEntryState :=
  { key := fields.key, value := fields.values.getLast?.map .enumeration }

def allDeclared (enumeration : EnumDescriptor) (fields : EntryFields) : Bool :=
  fields.values.all (enumHasNumber enumeration)

/-- The key of the entry: the last one, or the default of its type. -/
def HasKey (registry : Option Registry) (file : FileDescriptor) (current : MessageDescriptor)
    (keyType : ScalarType) (fields : EntryFields) (key : Value) : Prop :=
  fields.key = some key ∨
    fields.key = none ∧ defaultValue registry file current (.scalar keyType) = .ok key

/-- The number of the last value. -/
def number (fields : EntryFields) : BitVec 32 := fields.values.getLast?.getD 0

/-- The last value is there and not declared. -/
def lastUndeclared (enumeration : EnumDescriptor) (fields : EntryFields) : Bool :=
  match fields.values.getLast? with
  | none => false
  | some last => !enumHasNumber enumeration last

end EntryFields

section

variable {registry : Option Registry} {nested : Option StreamDecoder} {levels : Nat}
  {file : FileDescriptor} {current : MessageDescriptor} {field : FieldDescriptor}
  {keyType : ScalarType} {valueKind : FieldKind} {enumeration : EnumDescriptor}

theorem entryFieldPass_consuming (levels : Nat) (file : FileDescriptor)
    (current : MessageDescriptor) (field : FieldDescriptor) (keyType : ScalarType) :
    Loop.Consuming (entryFieldPass registry nested levels file current field keyType) := by
  intro state input state' rest h
  rw [entryFieldPass] at h
  cases ht : nextTag input with
  | error e => simp [ht] at h
  | ok next =>
      cases next with
      | none => simp [ht] at h
      | some p =>
          obtain ⟨tag, after⟩ := p
          have hlt := nextTag_length ht
          suffices hle : rest.length ≤ after.length by omega
          simp only [ht] at h
          split at h
          · split at h
            · cases h
            · split at h
              · cases h
              · next key r hkey =>
                cases h
                exact (decodeValue_bounded _ _ _ _).shrinks _ _ _ hkey
          · split at h
            · split at h
              · cases h
              · split at h
                · cases h
                · next v r hv =>
                  cases h
                  exact readInt32_bounded.shrinks _ _ _ hv
            · split at h
              · cases h
              · next r hskip =>
                cases h
                exact skipValue_shrinks levels tag _ _ hskip

/-! ## The two loops -/

theorem allDeclared_append (enumeration : EnumDescriptor) (state : EntryFields) (v : BitVec 32) :
    EntryFields.allDeclared enumeration { state with values := state.values ++ [v] }
      = (state.allDeclared enumeration && enumHasNumber enumeration v) := by
  simp [EntryFields.allDeclared, List.all_append]

theorem passesAgree (henum : registryEnumDescriptor file registry current valueKind
      = some enumeration) (hclosed : enumIsClosed file registry enumeration = true)
    {state : EntryFields} (hstate : state.allDeclared enumeration = true) (input : Bytes) :
    AgreeUntil EntryFields.seen (fun fields => fields.allDeclared enumeration = true)
      (fun stopped => stopped.undeclared = true)
      (entryFieldPass registry nested levels file current field keyType state input)
      (mapEntryPass registry nested levels file current field keyType valueKind state.seen
        input) := by
  rw [entryFieldPass, mapEntryPass]
  cases nextTag input with
  | error e => exact .fail hstate
  | ok next =>
      cases next with
      | none => exact .done hstate
      | some p =>
          obtain ⟨tag, rest⟩ := p
          simp only [henum, hclosed, Bool.true_and]
          by_cases hkey : tag.number = 1
          · rw [if_pos hkey, if_pos hkey]
            split
            · exact .fail hstate
            · cases decodeValue registry nested file current field (.scalar keyType) rest with
              | error e => exact .fail hstate
              | ok read => exact .next hstate
          · rw [if_neg hkey, if_neg hkey]
            by_cases hvalue : tag.number = 2
            · rw [if_pos hvalue, if_pos hvalue]
              split
              · exact .fail hstate
              · cases readInt32 rest with
                | error e => exact .fail hstate
                | ok read =>
                    obtain ⟨v, after⟩ := read
                    have happend := allDeclared_append enumeration state v
                    rw [hstate, Bool.true_and] at happend
                    cases hv : enumHasNumber enumeration v with
                    | false =>
                        rw [hv] at happend
                        simp only [hv]
                        exact .stop (by simp [happend]) rfl
                    | true =>
                        rw [hv] at happend
                        have hseen : EntryFields.seen { state with values := state.values ++ [v] }
                            = { state.seen with value := some (.enumeration v) } := by
                          simp [EntryFields.seen]
                        simp only [hv, Bool.not_true, Bool.false_eq_true, if_false]
                        rw [← hseen]
                        exact .next happend
            · rw [if_neg hvalue, if_neg hvalue]
              cases skipValue levels tag rest with
              | error e => exact .fail hstate
              | ok after => exact .next hstate

/-- A pass only adds values. -/
theorem entryFieldPass_values (state : EntryFields) (input : Bytes) :
    state.values ⊆ (entryFieldPass registry nested levels file current field keyType state
      input).state.values := by
  rw [entryFieldPass]
  cases nextTag input with
  | error e => exact List.Subset.refl _
  | ok next =>
      cases next with
      | none => exact List.Subset.refl _
      | some p =>
          obtain ⟨tag, rest⟩ := p
          simp only
          split
          · split
            · exact List.Subset.refl _
            · cases decodeValue registry nested file current field (.scalar keyType) rest <;>
                exact List.Subset.refl _
          · split
            · split
              · exact List.Subset.refl _
              · cases readInt32 rest with
                | error e => exact List.Subset.refl _
                | ok read => exact List.subset_append_left _ _
            · cases skipValue levels tag rest <;> exact List.Subset.refl _

theorem allDeclared_of_pass (state : EntryFields) (input : Bytes)
    (h : (entryFieldPass registry nested levels file current field keyType state
      input).state.allDeclared enumeration = true) : state.allDeclared enumeration = true := by
  rw [EntryFields.allDeclared, List.all_eq_true] at h ⊢
  exact fun v hv => h v (entryFieldPass_values state input hv)

/-- What `decodeMapEntryValue` makes of a payload, by what the whole payload says. -/
theorem decodeMapEntryValue_eq (henum : registryEnumDescriptor file registry current valueKind
      = some enumeration) (hclosed : enumIsClosed file registry enumeration = true)
    (payload : Bytes) {fields : EntryFields} {result : Except Error Bytes}
    (hread : Loop.run (entryFieldPass registry nested levels file current field keyType) {} payload
      = (fields, result)) :
    (fields.allDeclared enumeration = false →
      decodeMapEntryValue registry nested levels file current field keyType valueKind payload
        = .ok none) ∧
    (fields.allDeclared enumeration = true →
      (∀ e, result = .error e →
        decodeMapEntryValue registry nested levels file current field keyType valueKind payload
          = .error e) ∧
      ∀ rest, result = .ok rest →
        decodeMapEntryValue registry nested levels file current field keyType valueKind payload
          = (mapEntryOf registry file current keyType valueKind fields.seen).map some) := by
  have hrun := run_until
    (@entryFieldPass_consuming registry nested levels file current field keyType)
    (@mapEntryPass_consuming registry file nested levels current field keyType valueKind)
    (@allDeclared_of_pass registry nested levels file current field keyType enumeration)
    (fun _ xs hstate => passesAgree henum hclosed hstate xs) {} payload rfl
  rw [hread] at hrun
  rw [decodeMapEntryValue]
  constructor
  · intro hundeclared
    obtain ⟨stopped, rest, hstopped, hloop⟩ := hrun.2 (by simp [hundeclared])
    have hstart : EntryFields.seen {} = {} := rfl
    rw [hstart] at hloop
    rw [hloop]
    simp [hstopped]
  · intro hdeclared
    have hloop := hrun.1 hdeclared
    have hstart : EntryFields.seen {} = {} := rfl
    rw [hstart] at hloop
    constructor
    · rintro e rfl
      rw [hloop]
    · rintro rest rfl
      rw [hloop]
      simp only [EntryFields.seen, Bool.false_eq_true, if_false]
      cases mapEntryOf registry file current keyType valueKind _ <;> rfl

end

/-! ## What the decoder does with an entry -/

/-- One pass of the loop of `decodeStream`. -/
def streamPass (registry : Option Registry) (levels : Nat) (file : FileDescriptor)
    (endGroup : Option Nat) : DynamicMessage → Bytes → Pass :=
  decodePass registry levels (nestedStream registry levels) (nestedMapEntry registry levels)
    (nestedMessageSetItem registry levels) file endGroup

theorem decodeStream_eq_run (registry : Option Registry) (levels : Nat) (file : FileDescriptor)
    (message : DynamicMessage) (endGroup : Option Nat) (input : Bytes) :
    decodeStream registry levels file message endGroup input
      = Loop.run (streamPass registry levels file endGroup) message input := rfl

/-- The input starts with an entry of a map field whose values are of a closed enum. -/
structure ClosedEntryAt (registry : Option Registry) (file : FileDescriptor)
    (descriptor : MessageDescriptor) (field : FieldDescriptor) (keyType : ScalarType)
    (enumeration : EnumDescriptor) (input payload rest : Bytes) : Prop where
  found : fieldForNumber registry descriptor field.number = some field
  kind : ∃ valueKind, field.kind = .map keyType valueKind ∧
    registryEnumDescriptor file registry descriptor valueKind = some enumeration
  closed : enumIsClosed file registry enumeration = true
  entry : ∃ afterTag, nextTag input
      = .ok (some ({ number := field.number, wireType := .lengthDelimited }, afterTag)) ∧
    readBytes afterTag = .ok (payload, rest)

section

variable {registry : Option Registry} {levels : Nat} {file : FileDescriptor}
  {message : DynamicMessage} {endGroup : Option Nat} {field : FieldDescriptor}
  {keyType : ScalarType} {enumeration : EnumDescriptor} {input payload rest : Bytes}

theorem ClosedEntryAt.streamPass_eq
    (h : ClosedEntryAt registry file message.descriptor field keyType enumeration input payload
      rest) (levels : Nat) (endGroup : Option Nat) :
    ∃ valueKind, registryEnumDescriptor file registry message.descriptor valueKind
        = some enumeration ∧
      ∃ afterTag, readBytes afterTag = .ok (payload, rest) ∧
        streamPass registry levels file endGroup message input
          = decodeMapField (nestedMapEntry registry levels) file message field keyType valueKind
              { number := field.number, wireType := .lengthDelimited } input afterTag := by
  obtain ⟨valueKind, hkind, henum⟩ := h.kind
  obtain ⟨afterTag, htag, hpayload⟩ := h.entry
  refine ⟨valueKind, henum, afterTag, hpayload, ?_⟩
  have hdelimited : ∀ fieldFile,
      isDelimitedField registry fieldFile message.descriptor field = false := by
    intro fieldFile
    rw [isDelimitedField, hkind]
    rfl
  have hgroup : (WireType.lengthDelimited == WireType.startGroup) = false := rfl
  rw [streamPass, decodePass, htag]
  simp only [reduceCtorEq, if_false, hgroup, Bool.and_false, Bool.false_eq_true, h.found]
  rw [decodeKnownField]
  simp only [hdelimited, Bool.false_eq_true, if_false, hkind]

/-- The state at the end of a payload always gives an entry. -/
theorem EntryFields.mapEntryOf_seen {current : MessageDescriptor} {valueKind : FieldKind}
    (henum : registryEnumDescriptor file registry current valueKind = some enumeration)
    (fields : EntryFields) (keyType : ScalarType) :
    ∃ key, fields.HasKey registry file current keyType key ∧
      mapEntryOf registry file current keyType valueKind fields.seen
        = .ok (.mapEntry key (.enumeration fields.number)) := by
  cases hk : fields.key with
  | some key =>
      refine ⟨key, .inl hk, ?_⟩
      rw [mapEntryOf, EntryFields.seen, EntryFields.number, hk]
      cases fields.values.getLast? <;> simp [henum]
  | none =>
      obtain ⟨key, hdefault⟩ :
          ∃ key, defaultValue registry file current (.scalar keyType) = .ok key := by
        cases keyType <;> exact ⟨_, rfl⟩
      refine ⟨key, .inr ⟨hk, hdefault⟩, ?_⟩
      rw [mapEntryOf, EntryFields.seen, EntryFields.number, hk]
      cases fields.values.getLast? <;> simp [henum, hdefault]

/-- An entry in the stream, by what its whole payload says. -/
theorem ClosedEntryAt.outcome
    (h : ClosedEntryAt registry file message.descriptor field keyType enumeration input payload
      rest) (endGroup : Option Nat) {fields : EntryFields} {result : Except Error Bytes}
    (hread : readEntryFields registry levels file message.descriptor field keyType payload
      = (fields, result)) :
    (fields.allDeclared enumeration = false →
      streamPass registry levels file endGroup message input
        = .next (message.addUnknownRaw field.number .lengthDelimited (consumed input rest)) rest) ∧
    (fields.allDeclared enumeration = true → ∀ e, result = .error e →
      streamPass registry levels file endGroup message input = .fail message e) ∧
    (fields.allDeclared enumeration = true → ∀ last, result = .ok last →
      ∃ key, fields.HasKey registry file message.descriptor keyType key ∧
        streamPass registry levels file endGroup message input
          = .next (message.addDecodedMapEntry field (.mapEntry key (.enumeration fields.number)))
              rest) := by
  obtain ⟨valueKind, henum, afterTag, hpayload, hpass⟩ := h.streamPass_eq levels endGroup
  rw [hpass]
  cases levels with
  | zero =>
      have hnone : nestedMapEntry registry 0 = none := rfl
      obtain ⟨rfl, rfl⟩ := Prod.mk.inj hread
      simp only [decodeMapField, hpayload, hnone, ne_eq, not_true_eq_false, if_false]
      refine ⟨fun hundeclared => ?_, fun _ e he => ?_, fun _ last hlast => ?_⟩
      · cases hundeclared
      · cases he
        rfl
      · cases hlast
  | succ levels =>
      have hsome : nestedMapEntry registry (levels + 1)
          = some (decodeMapEntryValue registry (nestedStream registry levels) levels) := rfl
      obtain ⟨hundeclared, hdeclared⟩ := decodeMapEntryValue_eq henum h.closed payload hread
      simp only [decodeMapField, hpayload, hsome, ne_eq, not_true_eq_false, if_false]
      refine ⟨fun hbad => ?_, fun hgood e he => ?_, fun hgood last hlast => ?_⟩
      · rw [hundeclared hbad]
      · rw [(hdeclared hgood).1 e he]
      · obtain ⟨key, hkey, hentry⟩ := fields.mapEntryOf_seen henum keyType
        refine ⟨key, hkey, ?_⟩
        rw [(hdeclared hgood).2 last hlast, hentry]
        rfl

variable (registry levels file message endGroup field keyType enumeration input payload rest)

/-- The entry becomes an unknown field. -/
def KeptAsUnknown : Prop :=
  streamPass registry levels file endGroup message input
    = .next (message.addUnknownRaw field.number .lengthDelimited (consumed input rest)) rest

/-- The last value decides: an entry is kept as an unknown field if its payload is well formed and
its last value is not declared, stored if that is declared, and an error if the payload is
malformed. -/
structure LastValueWins : Prop where
  unknown : KeptAsUnknown registry levels file message endGroup field input rest ↔
    ∃ fields last, readEntryFields registry levels file message.descriptor field keyType payload
        = (fields, .ok last) ∧ fields.lastUndeclared enumeration = true
  stored : ∀ fields last,
    readEntryFields registry levels file message.descriptor field keyType payload
        = (fields, .ok last) →
      fields.lastUndeclared enumeration = false →
        ∃ key, fields.HasKey registry file message.descriptor keyType key ∧
          streamPass registry levels file endGroup message input
            = .next (message.addDecodedMapEntry field
                (.mapEntry key (.enumeration fields.number))) rest
  malformed : ∀ fields e,
    readEntryFields registry levels file message.descriptor field keyType payload
        = (fields, .error e) →
      ∃ e, streamPass registry levels file endGroup message input = .fail message e

/-- No value in front of the first malformed field is undeclared, or the payload is well formed and
its last value is undeclared as well. -/
def UndeclaredOnlyAtEnd : Prop :=
  let read := readEntryFields registry levels file message.descriptor field keyType payload
  read.1.allDeclared enumeration = true ∨
    (∃ last, read.2 = .ok last) ∧ read.1.lastUndeclared enumeration = true

variable {registry levels file message endGroup field keyType enumeration input payload rest}

theorem EntryFields.lastUndeclared_of_allDeclared {fields : EntryFields}
    (h : fields.allDeclared enumeration = true) : fields.lastUndeclared enumeration = false := by
  rw [EntryFields.lastUndeclared]
  cases hlast : fields.values.getLast? with
  | none => rfl
  | some last =>
      rw [EntryFields.allDeclared, List.all_eq_true] at h
      simpa using h last (List.mem_of_getLast? hlast)

/-- An unknown field is not an entry. -/
theorem addUnknownRaw_ne_addDecodedMapEntry (message : DynamicMessage) (field : FieldDescriptor)
    (value : Value) (raw : Bytes) :
    message.addUnknownRaw field.number .lengthDelimited raw
      ≠ message.addDecodedMapEntry field value := by
  intro h
  have hlength := congrArg (fun m : DynamicMessage => m.unknownFields.length) h
  have hleave : (message.leaveOneof field).unknownFields = message.unknownFields := by
    rw [DynamicMessage.leaveOneof]
    split <;> rfl
  rw [DynamicMessage.addUnknownRaw, DynamicMessage.addDecodedMapEntry,
    DynamicMessage.appendValues] at hlength
  simp only [hleave, List.length_append, List.length_singleton] at hlength
  omega

/-- The last value wins exactly where no undeclared value hides what follows it. -/
theorem lastValueWins_iff
    (h : ClosedEntryAt registry file message.descriptor field keyType enumeration input payload
      rest) :
    LastValueWins registry levels file message endGroup field keyType enumeration input payload rest
      ↔ UndeclaredOnlyAtEnd registry levels file message field keyType enumeration payload := by
  rw [UndeclaredOnlyAtEnd]
  generalize hread : readEntryFields registry levels file message.descriptor field keyType payload
    = read
  obtain ⟨fields, result⟩ := read
  obtain ⟨hunknown, hfail, hstored⟩ := h.outcome endGroup hread
  constructor
  · intro hwins
    by_cases hdeclared : fields.allDeclared enumeration = true
    · exact .inl hdeclared
    · -- the loop has stopped, so the entry is kept whatever the payload says
      have hkept := hunknown (by simpa using hdeclared)
      obtain ⟨_, last, hok, hundeclared⟩ := hwins.unknown.mp hkept
      rw [hread] at hok
      cases hok
      exact .inr ⟨⟨last, rfl⟩, hundeclared⟩
  · rintro (hdeclared | ⟨⟨last, rfl⟩, hundeclared⟩)
    · have hlast := EntryFields.lastUndeclared_of_allDeclared hdeclared
      constructor
      case unknown =>
        constructor
        · intro hkept
          rw [KeptAsUnknown] at hkept
          cases result with
          | error e =>
              rw [hfail hdeclared e rfl] at hkept
              cases hkept
          | ok last =>
              obtain ⟨key, -, hpass⟩ := hstored hdeclared last rfl
              rw [hpass] at hkept
              injection hkept with hmessage
              exact absurd hmessage.symm (addUnknownRaw_ne_addDecodedMapEntry _ _ _ _)
        · rintro ⟨_, last, hok, hundeclared⟩
          rw [hread] at hok
          cases hok
          rw [hlast] at hundeclared
          cases hundeclared
      case stored =>
        intro _ last hok _
        rw [hread] at hok
        cases hok
        exact hstored hdeclared last rfl
      case malformed =>
        intro _ e herror
        rw [hread] at herror
        cases herror
        exact ⟨e, hfail hdeclared e rfl⟩
    · have hbad : fields.allDeclared enumeration = false := by
        rw [← Bool.not_eq_true]
        intro hdeclared
        rw [EntryFields.lastUndeclared_of_allDeclared hdeclared] at hundeclared
        cases hundeclared
      constructor
      case unknown => exact ⟨fun _ => ⟨fields, last, hread, hundeclared⟩, fun _ => hunknown hbad⟩
      case stored =>
        intro _ last hok hlast
        rw [hread] at hok
        cases hok
        rw [hlast] at hundeclared
        cases hundeclared
      case malformed =>
        intro _ e herror
        rw [hread] at herror
        cases herror

end

/-! ## A declared value behind an undeclared one -/

def shadeEnum : EnumDescriptor :=
  { name := ascii "Shade", values := [{ name := ascii "DARK", number := 0 },
      { name := ascii "LIGHT", number := 1 }] }

def shadesField : FieldDescriptor :=
  { name := ascii "shades", number := 7, cardinality := .repeated,
    kind := .map .int32 (.enumeration (ascii "Shade")) }

def paletteDescriptor : MessageDescriptor := { name := ascii "Palette", fields := [shadesField] }

/-- The enums of a proto2 file are closed. -/
def paletteFile : FileDescriptor := { messages := [paletteDescriptor], enums := [shadeEnum] }

/-- The tag of the field, the length of the payload and the payload. -/
def shadesEntry (payload : Bytes) : Bytes := 0x3a :: UInt8.ofNat payload.length :: payload

theorem shadesEntry_closed {payload : Bytes}
    (h : readBytes (UInt8.ofNat payload.length :: payload) = .ok (payload, [])) :
    ClosedEntryAt none paletteFile paletteDescriptor shadesField .int32 shadeEnum
      (shadesEntry payload) payload [] where
  found := by decide
  kind := ⟨.enumeration (ascii "Shade"), rfl, by decide⟩
  closed := by decide
  entry := by
    have htag := nextTag_tag (by decide : ValidNumber 7) .lengthDelimited
      (UInt8.ofNat payload.length :: payload)
    have hbytes : writeVarint (7 * 8 + WireType.lengthDelimited.toNat) = [0x3a] := by
      decide
    rw [hbytes] at htag
    exact ⟨UInt8.ofNat payload.length :: payload, htag, h⟩

/-- The key 5 with the declared number 1. -/
def lightPayload : Bytes := [0x08, 0x05, 0x10, 0x01]

/-- The key 5 with the number 9, which is not declared, and then with the number 1. -/
def replacedPayload : Bytes := [0x08, 0x05, 0x10, 0x09, 0x10, 0x01]

theorem lastValueWins_light :
    LastValueWins none recursionLimit paletteFile (.init paletteDescriptor) none shadesField .int32
      shadeEnum (shadesEntry lightPayload) lightPayload [] :=
  (lastValueWins_iff (shadesEntry_closed rfl)).mpr (.inl (by decide))

/-- The last value is declared, but the entry is kept as an unknown field. -/
theorem replaced_not_lastValueWins :
    ClosedEntryAt none paletteFile paletteDescriptor shadesField .int32 shadeEnum
        (shadesEntry replacedPayload) replacedPayload [] ∧
      ¬ LastValueWins none recursionLimit paletteFile (.init paletteDescriptor) none shadesField
        .int32 shadeEnum (shadesEntry replacedPayload) replacedPayload [] := by
  have hentry : ClosedEntryAt none paletteFile (DynamicMessage.init paletteDescriptor).descriptor
      shadesField .int32 shadeEnum (shadesEntry replacedPayload) replacedPayload [] :=
    shadesEntry_closed rfl
  refine ⟨hentry, fun hwins => ?_⟩
  obtain ⟨fields, result, hread⟩ : ∃ fields result, readEntryFields none recursionLimit paletteFile
      (DynamicMessage.init paletteDescriptor).descriptor shadesField .int32 replacedPayload
        = (fields, result) := ⟨_, _, rfl⟩
  have hdeclared : fields.allDeclared shadeEnum = false := by
    have hfields : (readEntryFields none recursionLimit paletteFile
        (DynamicMessage.init paletteDescriptor).descriptor shadesField .int32
        replacedPayload).1.allDeclared shadeEnum = false := by decide
    rwa [hread] at hfields
  have hlast : fields.lastUndeclared shadeEnum = false := by
    have hfields : (readEntryFields none recursionLimit paletteFile
        (DynamicMessage.init paletteDescriptor).descriptor shadesField .int32
        replacedPayload).1.lastUndeclared shadeEnum = false := by decide
    rwa [hread] at hfields
  have hkept := (hentry.outcome none hread).1 hdeclared
  obtain ⟨_, last, hok, hundeclared⟩ := hwins.unknown.mp hkept
  rw [hread] at hok
  cases hok
  rw [hlast] at hundeclared
  cases hundeclared

end Pbz
