import Pbz.Codegen.EmittedEncode
import Pbz.Dynamic.FieldRoundTrip
import Pbz.Lib.Check

set_option autoImplicit false

/-! # Encoded sizes

What the emitted encoders write and need, without the bytes themselves (`EncodeSpec`). The emitted
`encodedSize` takes a message that is kept as bytes for length-prefixed, also where it is written
between two tags (`keptForm`); up to these it is the number of bytes that `writeTo` writes.
-/

namespace Pbz

/-! ## Sizes of varints -/

theorem encodedVarintSize_le_iff {v k : Nat} (hk : 0 < k) :
    encodedVarintSize v ≤ k ↔ v < 2 ^ (7 * k) := by
  have hpow : ∀ {a b : Nat}, a ≤ b → 2 ^ (7 * a) ≤ 2 ^ (7 * b) := fun h =>
    Nat.pow_le_pow_right (by decide) (Nat.mul_le_mul_left 7 h)
  rw [encodedVarintSize]
  split
  · next h => exact iff_of_true hk (Nat.lt_of_lt_of_le h (hpow hk))
  · next h1 =>
    split
    · next h2 =>
      constructor
      · exact fun hle => Nat.lt_of_lt_of_le h2 (hpow hle)
      · intro hlt
        by_contra hgt
        obtain rfl : k = 1 := by omega
        exact h1 hlt
    · next h2 =>
      split
      · next h3 =>
        constructor
        · exact fun hle => Nat.lt_of_lt_of_le h3 (hpow hle)
        · intro hlt
          by_contra hgt
          have htwo := Nat.lt_of_lt_of_le hlt (hpow (show k ≤ 2 by omega))
          exact h2 htwo
      · next h3 =>
        have h0 : v ≠ 0 := by omega
        rw [← Nat.log2_lt h0]
        omega

theorem encodedVarintSize_pos (v : Nat) : 0 < encodedVarintSize v := by
  rw [encodedVarintSize]
  split
  · decide
  · split
    · decide
    · split
      · decide
      · omega

/-- Varints are as long if the same powers of 128 are above their values. -/
theorem encodedVarintSize_congr {v w : Nat}
    (h : ∀ k, 0 < k → (v < 2 ^ (7 * k) ↔ w < 2 ^ (7 * k))) :
    encodedVarintSize v = encodedVarintSize w := by
  apply Nat.le_antisymm
  · rw [encodedVarintSize_le_iff (encodedVarintSize_pos w), h _ (encodedVarintSize_pos w)]
    exact (encodedVarintSize_le_iff (encodedVarintSize_pos w)).mp le_rfl
  · rw [encodedVarintSize_le_iff (encodedVarintSize_pos v), ← h _ (encodedVarintSize_pos v)]
    exact (encodedVarintSize_le_iff (encodedVarintSize_pos v)).mp le_rfl

namespace Codegen

/-- The wire type of a tag does not change its width. -/
theorem tagWidth_wireType (number : Nat) (wt wt' : WireType) :
    tagWidth number wt = tagWidth number wt' := by
  have hless : ∀ wt : WireType, wt.toNat < 8 := by intro wt; cases wt <;> decide
  apply encodedVarintSize_congr
  intro k hk
  obtain ⟨k, rfl⟩ : ∃ j, k = j + 1 := ⟨k - 1, by omega⟩
  have hpow : 2 ^ (7 * (k + 1)) = 2 ^ (7 * k + 4) * 8 := by
    rw [show 7 * (k + 1) = (7 * k + 4) + 3 by omega, Nat.pow_add _ _ 3]
  have h1 := hless wt
  have h2 := hless wt'
  rw [rawTagValue, rawTagValue, hpow]
  omega

/-! ## Sizes of programs -/

/-- What `encodedSize` counts for a command. -/
def commandSize {ρ : Type} (size : ρ → Nat) : Command ρ → Nat
  | .check _ => 0
  | .tag number wireType => tagWidth number wireType
  | .varint value => encodedVarintSize value
  | .slice data => data.length
  | .payload kind value => payloadSize kind value
  | .packed number kind _ values =>
      tagWidth number .lengthDelimited + encodedVarintSize (packedLength kind values)
        + packedLength kind values
  | .kept _ .group number bytes =>
      tagWidth number .startGroup + tagWidth number .endGroup + bytes.length
  | .kept _ _ number bytes =>
      tagWidth number .lengthDelimited + (encodedVarintSize bytes.length + bytes.length)
  | .body _ message => size message

def programSize {ρ : Type} (size : ρ → Nat) (program : List (Command ρ)) : Nat :=
  (program.map (commandSize size)).sum

section

variable {ρ : Type} (size : ρ → Nat)

@[simp] theorem programSize_nil : programSize size [] = 0 := rfl

@[simp] theorem programSize_cons (command : Command ρ) (program : List (Command ρ)) :
    programSize size (command :: program) = commandSize size command + programSize size program :=
  rfl

@[simp] theorem programSize_append (program program' : List (Command ρ)) :
    programSize size (program ++ program') = programSize size program + programSize size program' :=
  by rw [programSize, List.map_append, List.sum_append]; rfl

theorem programSize_flatMap {α : Type} (write : α → List (Command ρ)) (xs : List α) :
    programSize size (xs.flatMap write) = (xs.map (fun x => programSize size (write x))).sum := by
  induction xs with
  | nil => rfl
  | cons x xs ih => rw [List.flatMap_cons, programSize_append, ih, List.map_cons, List.sum_cons]

variable (s : GeneratedStruct) (field : FieldDescriptor)

/-- A check writes nothing. -/
theorem programSize_utf8Check (kind : FieldKind) (value : Value) :
    programSize size (utf8Check s field kind value) = 0 := by
  unfold utf8Check
  split
  · split <;> rfl
  · rfl

theorem programSize_writeValue (value : Value) :
    programSize size (writeValue s field value)
      = tagWidth field.number field.kind.wireType + payloadSize field.kind value := by
  rw [writeValue, programSize_append, programSize_utf8Check, Nat.zero_add]
  rfl

theorem programSize_writeKept (grows : Bool) (bytes : Bytes) :
    programSize size (writeKept s field grows bytes)
      = elementSize size field none (.payload bytes) := by
  rw [writeKept, programSize_cons, programSize_nil, Nat.add_zero, keptForm, elementSize]
  by_cases hgroup : field.kind.isGroup = true
  · rw [if_pos hgroup, if_pos hgroup]
    rfl
  · rw [if_neg hgroup, if_neg hgroup]
    split <;> rfl

theorem programSize_writeTyped (message : ρ) :
    programSize size (writeTyped size field message)
      = if field.kind.isGroup then
          tagWidth field.number .startGroup + tagWidth field.number .endGroup + size message
        else
          tagWidth field.number .lengthDelimited + encodedVarintSize (size message)
            + size message := by
  rw [writeTyped]
  split
  · show tagWidth field.number .startGroup + (size message
      + (tagWidth field.number .endGroup + 0)) = _
    omega
  · show tagWidth field.number .lengthDelimited + (encodedVarintSize (size message)
      + (size message + 0)) = _
    omega

theorem programSize_writeElement (struct : Option GeneratedStruct) (grows : Bool)
    (held : Held (GeneratedStruct → ρ)) :
    programSize size (writeElement size s field struct grows held)
      = elementSize size field struct held := by
  cases held with
  | value value => exact programSize_writeValue size s field value
  | payload bytes => exact programSize_writeKept size s field grows bytes
  | message message =>
      cases struct with
      | none => rfl
      | some t => exact programSize_writeTyped size field (message t)

theorem programSize_writeMapValue (kind : FieldKind) (held : Held (GeneratedStruct → ρ)) :
    programSize size (writeMapValue size s field kind held) = mapValueSize size s field kind held := by
  cases held with
  | value value => rfl
  | payload bytes =>
      show tagWidth 2 .lengthDelimited + _ + 0 = tagWidth 2 kind.wireType + _
      rw [tagWidth_wireType 2 .lengthDelimited kind.wireType, Nat.add_zero]
  | message message =>
      rw [writeMapValue, mapValueSize]
      cases s.typedMapValue field with
      | none => rfl
      | some t =>
          show 1 + (encodedVarintSize (size (message t)) + (size (message t) + 0))
            = 1 + encodedVarintSize (size (message t)) + size (message t)
          omega

theorem programSize_writeMapEntry (key : ScalarType) (kind : FieldKind)
    (entry : Value × Held (GeneratedStruct → ρ)) :
    programSize size (writeMapEntry size s field key kind entry)
      = mapEntrySize size s field key kind entry := by
  have hcheck : programSize size (mapValueCheck s field kind entry.2) = 0 := by
    cases entry.2 with
    | value value => exact programSize_utf8Check size s field kind value
    | payload bytes => rfl
    | message message => rfl
  rw [writeMapEntry, programSize_append, programSize_append, programSize_append,
    programSize_utf8Check, hcheck, programSize_writeMapValue, mapEntrySize]
  show 0 + 0 + (tagWidth field.number .lengthDelimited + (encodedVarintSize _
    + (tagWidth 1 key.wireType + (payloadSize (.scalar key) entry.1 + 0)))) + _ = _
  rw [show mapKeySize key entry.1
    = tagWidth 1 key.wireType + payloadSize (.scalar key) entry.1 from rfl]
  omega

theorem programSize_writeEncodeField (slot : MemberLayer (GeneratedStruct → ρ)) :
    programSize size (writeEncodeField size s field slot) = encodedSizeField size s field slot := by
  rw [writeEncodeField, encodedSizeField]
  cases hkind : field.kind with
  | map key kind =>
      simp only [programSize_flatMap, programSize_writeMapEntry]
  | message typeName | group typeName =>
      simp only
      split
      · simp only [programSize_flatMap, programSize_writeElement]
      · split
        · simp only [programSize_flatMap, programSize_writeTyped, elementSize]
        · split
          · exact programSize_writeKept size s field true slot.payload
          · rfl
  | scalar scalar | enumeration typeName =>
      simp only
      split
      · split
        · split
          · rfl
          · rw [← hkind]
            rfl
        · simp only [programSize_flatMap, programSize_writeElement]
      · split
        · exact programSize_writeValue size s field slot.value
        · rfl

theorem programSize_writeEncodeOneof (layer : Layer (GeneratedStruct → ρ))
    (oneof : OneofDescriptor) :
    programSize size (writeEncodeOneof size s layer oneof) = encodedSizeOneof size s layer oneof := by
  rw [writeEncodeOneof, encodedSizeOneof]
  split
  · rfl
  · split
    · rfl
    · exact programSize_writeElement size s _ _ false _

/-- `encodedSize` adds up what the commands count for. -/
theorem programSize_writeProgram (layer : Layer (GeneratedStruct → ρ)) :
    programSize size (writeProgram size s layer) = encodedSizeOf size s layer := by
  have hraws : programSize size (layer.unknownFields.map Command.slice)
      = (layer.unknownFields.map List.length).sum := by
    rw [programSize, List.map_map]
    rfl
  rw [writeProgram, programSize_append, programSize_append, programSize_flatMap,
    programSize_flatMap, hraws, encodedSizeOf]
  simp only [programSize_writeEncodeField, programSize_writeEncodeOneof]

end

/-! ## Two programs -/

/-- The same command, of related messages. -/
inductive Command.Related {ρ σ : Type} (R : ρ → σ → Prop) : Command ρ → Command σ → Prop where
  | check (valid : Bool) : Command.Related R (.check valid) (.check valid)
  | tag (number : Nat) (wireType : WireType) :
      Command.Related R (.tag number wireType) (.tag number wireType)
  | varint (value : Nat) : Command.Related R (.varint value) (.varint value)
  | slice (data : Bytes) : Command.Related R (.slice data) (.slice data)
  | payload (kind : FieldKind) (value : Value) :
      Command.Related R (.payload kind value) (.payload kind value)
  | packed (number : Nat) (kind : FieldKind) (hkind : kind.packable = true)
      (values : List Value) :
      Command.Related R (.packed number kind hkind values) (.packed number kind hkind values)
  | kept (grows : Bool) (form : KeptForm) (number : Nat) (bytes : Bytes) :
      Command.Related R (.kept grows form number bytes) (.kept grows form number bytes)
  | body (delimited : Bool) {m : ρ} {m' : σ} (h : R m m') :
      Command.Related R (.body delimited m) (.body delimited m')

/-- Programs of the same commands, of related messages. -/
abbrev ProgramRelated {ρ σ : Type} (R : ρ → σ → Prop) : List (Command ρ) → List (Command σ) → Prop :=
  List.Forall₂ (Command.Related R)

theorem Command.Related.mono {ρ σ : Type} {R R' : ρ → σ → Prop} (hR : ∀ m m', R m m' → R' m m')
    {command : Command ρ} {command' : Command σ} (h : Command.Related R command command') :
    Command.Related R' command command' := by
  cases h with
  | check valid => exact .check valid
  | tag number wt => exact .tag number wt
  | varint value => exact .varint value
  | slice data => exact .slice data
  | payload kind value => exact .payload kind value
  | packed number kind hkind values => exact .packed number kind hkind values
  | kept grows form number bytes => exact .kept grows form number bytes
  | body delimited h => exact .body delimited (hR _ _ h)

theorem ProgramRelated.mono {ρ σ : Type} {R R' : ρ → σ → Prop} (hR : ∀ m m', R m m' → R' m m')
    {program : List (Command ρ)} {program' : List (Command σ)}
    (h : ProgramRelated R program program') : ProgramRelated R' program program' :=
  h.imp fun _ _ hcommand => hcommand.mono hR

section

variable {ρ σ : Type} {R : ρ → σ → Prop} {size : ρ → Nat} {size' : σ → Nat}
  (hsize : ∀ m m', R m m' → size m = size' m') (s : GeneratedStruct) (field : FieldDescriptor)

/-- The methods are related for every struct. -/
abbrev ByStruct (R : ρ → σ → Prop) (m : GeneratedStruct → ρ) (m' : GeneratedStruct → σ) : Prop :=
  ∀ t, R (m t) (m' t)

/-- The same loop on both sides. -/
theorem forall₂_flatMap_same {α β γ : Type} {P : β → γ → Prop} {f : α → List β} {g : α → List γ}
    (xs : List α) (h : ∀ x, List.Forall₂ P (f x) (g x)) :
    List.Forall₂ P (xs.flatMap f) (xs.flatMap g) := by
  induction xs with
  | nil => exact .nil
  | cons x xs ih => exact List.rel_append (h x) ih

theorem utf8Check_related (kind : FieldKind) (value : Value) :
    ProgramRelated R (utf8Check s field kind value) (utf8Check s field kind value) := by
  unfold utf8Check
  split
  · split
    · exact .cons (.check _) .nil
    · exact .nil
  · exact .nil

theorem writeValue_related (value : Value) :
    ProgramRelated R (writeValue s field value) (writeValue s field value) :=
  List.rel_append (utf8Check_related s field field.kind value)
    (.cons (.tag _ _) (.cons (.payload _ _) .nil))

include hsize

theorem writeTyped_related {m : ρ} {m' : σ} (h : R m m') :
    ProgramRelated R (writeTyped size field m) (writeTyped size' field m') := by
  rw [writeTyped, writeTyped, hsize m m' h]
  split
  · exact .cons (.tag _ _) (.cons (.body true h) (.cons (.tag _ _) .nil))
  · exact .cons (.tag _ _) (.cons (.varint _) (.cons (.body false h) .nil))

theorem writeElement_related (struct : Option GeneratedStruct) (grows : Bool)
    {held : Held (GeneratedStruct → ρ)} {held' : Held (GeneratedStruct → σ)}
    (h : Held.Related (ByStruct R) held held') :
    ProgramRelated R (writeElement size s field struct grows held)
      (writeElement size' s field struct grows held') := by
  cases h with
  | value value => exact writeValue_related s field value
  | payload bytes => exact .cons (.kept _ _ _ _) .nil
  | message h =>
      cases struct with
      | none => exact .nil
      | some t => exact writeTyped_related hsize field (h t)

theorem mapValueSize_related (kind : FieldKind)
    {held : Held (GeneratedStruct → ρ)} {held' : Held (GeneratedStruct → σ)}
    (h : Held.Related (ByStruct R) held held') :
    mapValueSize size s field kind held = mapValueSize size' s field kind held' := by
  cases h with
  | value value => rfl
  | payload bytes => rfl
  | message h =>
      rw [mapValueSize, mapValueSize]
      cases s.typedMapValue field with
      | none => rfl
      | some t => simp only [hsize _ _ (h t)]

theorem writeMapValue_related (kind : FieldKind)
    {held : Held (GeneratedStruct → ρ)} {held' : Held (GeneratedStruct → σ)}
    (h : Held.Related (ByStruct R) held held') :
    ProgramRelated R (writeMapValue size s field kind held)
      (writeMapValue size' s field kind held') := by
  cases h with
  | value value => exact .cons (.tag _ _) (.cons (.payload _ _) .nil)
  | payload bytes => exact .cons (.kept _ _ _ _) .nil
  | message h =>
      rw [writeMapValue, writeMapValue]
      cases s.typedMapValue field with
      | none => exact .nil
      | some t =>
          simp only [hsize _ _ (h t)]
          exact .cons (.tag _ _) (.cons (.varint _) (.cons (.body false (h t)) .nil))

theorem writeMapEntry_related (key : ScalarType) (kind : FieldKind)
    {entry : Value × Held (GeneratedStruct → ρ)} {entry' : Value × Held (GeneratedStruct → σ)}
    (h : EntryRelated (ByStruct R) entry entry') :
    ProgramRelated R (writeMapEntry size s field key kind entry)
      (writeMapEntry size' s field key kind entry') := by
  obtain ⟨k, held⟩ := entry
  obtain ⟨k', held'⟩ := entry'
  obtain ⟨hkey, hheld⟩ := h
  simp only at hkey hheld
  have hcheck : ProgramRelated R (mapValueCheck s field kind held)
      (mapValueCheck s field kind held') := by
    rcases hheld with ⟨value⟩ | ⟨bytes⟩ | ⟨hmessage⟩
    · exact utf8Check_related s field kind value
    · exact .nil
    · exact .nil
  rw [writeMapEntry, writeMapEntry, hkey, mapValueSize_related hsize s field kind hheld]
  exact List.rel_append
    (List.rel_append (List.rel_append (utf8Check_related s field _ _) hcheck)
      (.cons (.tag _ _) (.cons (.varint _) (.cons (.tag _ _) (.cons (.payload _ _) .nil)))))
    (writeMapValue_related hsize s field kind hheld)

theorem writeNested_related (t : GeneratedStruct) {nested : Option (GeneratedStruct → ρ)}
    {nested' : Option (GeneratedStruct → σ)} (h : Option.Rel (ByStruct R) nested nested') :
    ProgramRelated R (nested.toList.flatMap (fun message => writeTyped size field (message t)))
      (nested'.toList.flatMap (fun message => writeTyped size' field (message t))) := by
  cases h with
  | some h => exact List.rel_append (writeTyped_related hsize field (h t)) .nil
  | none => exact .nil

theorem writeEncodeField_related {slot : MemberLayer (GeneratedStruct → ρ)}
    {slot' : MemberLayer (GeneratedStruct → σ)} (h : MemberLayer.Related (ByStruct R) slot slot') :
    ProgramRelated R (writeEncodeField size s field slot) (writeEncodeField size' s field slot') := by
  obtain ⟨hvalue, hhas, hpayload, hnested, hitems, hentries⟩ := h
  have hwritten : isWritten s field slot = isWritten s field slot' := by
    rw [isWritten, isWritten, hhas, hvalue]
  have helements : ∀ struct grows, ProgramRelated R
      (slot.items.flatMap (writeElement size s field struct grows))
      (slot'.items.flatMap (writeElement size' s field struct grows)) := fun struct grows =>
    List.rel_flatMap hitems (fun _ _ h => writeElement_related hsize s field struct grows h)
  have hempty : slot.items.isEmpty = slot'.items.isEmpty := by
    rw [Bool.eq_iff_iff, List.isEmpty_iff_length_eq_zero, List.isEmpty_iff_length_eq_zero,
      hitems.length_eq]
  have hvalues : slot.items.filterMap itemValue = slot'.items.filterMap itemValue := by
    rw [← List.forall₂_eq_eq_eq]
    refine List.rel_filterMap (R := Held.Related (ByStruct R)) (fun _ _ hheld => ?_) hitems
    rcases hheld with ⟨value⟩ | ⟨bytes⟩ | ⟨hmessage⟩
    · exact .some rfl
    · exact .none
    · exact .none
  rw [writeEncodeField, writeEncodeField]
  cases field.kind with
  | map key kind =>
      exact List.rel_flatMap hentries (fun _ _ h => writeMapEntry_related hsize s field key kind h)
  | message typeName | group typeName =>
      simp only
      split
      · exact helements _ _
      · split
        · exact writeNested_related hsize field _ hnested
        · rw [hhas, hpayload]
          split
          · exact .cons (.kept _ _ _ _) .nil
          · exact .nil
  | scalar scalar | enumeration typeName =>
      simp only [hempty, hvalues, hwritten, hvalue]
      split
      · split
        · split
          · exact .nil
          · exact .cons (.packed _ _ _ _) .nil
        · exact helements _ _
      · split
        · exact writeValue_related s field _
        · exact .nil

theorem writeEncodeOneof_related {layer : Layer (GeneratedStruct → ρ)}
    {layer' : Layer (GeneratedStruct → σ)} (h : Layer.Related (ByStruct R) layer layer')
    (oneof : OneofDescriptor) :
    ProgramRelated R (writeEncodeOneof size s layer oneof)
      (writeEncodeOneof size' s layer' oneof) := by
  rw [writeEncodeOneof, writeEncodeOneof]
  have hchoice := h.oneof oneof.name
  rcases hl : layer.oneof oneof.name with _ | ⟨number, held⟩
  all_goals rcases hl' : layer'.oneof oneof.name with _ | ⟨number', held'⟩
  all_goals rw [hl, hl'] at hchoice
  all_goals cases hchoice
  · exact .nil
  · next hchoice =>
    obtain ⟨hnumber, hheld⟩ := hchoice
    simp only at hnumber hheld ⊢
    rw [hnumber]
    cases oneofField s oneof number' with
    | none => exact .nil
    | some field => exact writeElement_related hsize s field _ false hheld

/-- The programs of two layers, with related methods for the messages in them. -/
theorem writeProgram_related {layer : Layer (GeneratedStruct → ρ)}
    {layer' : Layer (GeneratedStruct → σ)} (h : Layer.Related (ByStruct R) layer layer') :
    ProgramRelated R (writeProgram size s layer) (writeProgram size' s layer') := by
  have hraws : ProgramRelated R (layer.unknownFields.map .slice)
      (layer'.unknownFields.map .slice) := by
    rw [h.unknownFields]
    induction layer'.unknownFields with
    | nil => exact .nil
    | cons raw raws ih => exact .cons (.slice raw) ih
  exact List.rel_append
    (List.rel_append
      (forall₂_flatMap_same _ (fun field => writeEncodeField_related hsize s field (h.member _)))
      (forall₂_flatMap_same _ (writeEncodeOneof_related hsize s h)))
    hraws

end

end Codegen

/-! ## What encoders need -/

/-- What the encoders of a value write and need. -/
structure EncodeSpec where
  /-- What `encodedSize` returns. -/
  size : Nat
  /-- The part of it for length prefixes that are not written. -/
  lengths : Nat
  /-- The tags behind messages that `encodedSize` does not count. -/
  endTags : Nat
  /-- Every tag has the number of a field, and every length is a `usize`. -/
  inRange : Bool
  /-- Structs that are encoded directly keep no message as bytes but the values of maps. -/
  prefixed : Bool
  /-- The number of tags that the struct itself writes and that take two bytes and are less than
  256. -/
  narrowTags : Nat

namespace Codegen

def commandLengths : Command EncodeSpec → Nat
  | .kept _ .delimited _ bytes => encodedVarintSize bytes.length
  | .body _ message => message.lengths
  | _ => 0

def commandEndTags : Command EncodeSpec → Nat
  | .kept _ .delimited number _ => tagWidth number .endGroup
  | .body _ message => message.endTags
  | _ => 0

def commandInRange : Command EncodeSpec → Bool
  | .check _ => true
  | .tag number _ => decide (ValidNumber number)
  | .varint value => decide (value < 2 ^ 64)
  | .slice _ => true
  | .payload kind value => decide (payloadSize kind value < 2 ^ 64)
  | .packed number kind _ values =>
      decide (ValidNumber number) && decide (packedLength kind values < 2 ^ 64)
        && decide (values.length * maxPackedWidth kind < 2 ^ 64)
  | .kept _ _ number bytes => decide (ValidNumber number) && decide (bytes.length < 2 ^ 64)
  | .body _ message => message.inRange

/-- The tag of a field with this number is more than 127 and less than 256. -/
def isNarrowTag (number : Nat) : Bool := decide (16 ≤ number) && decide (number < 32)

def commandPrefixed : Command EncodeSpec → Bool
  | .kept _ form _ _ => form == .lengthPrefixed
  | .body _ message => message.prefixed
  | _ => true

def commandNarrowTags : Command EncodeSpec → Nat
  | .tag number _ | .packed number _ _ _ | .kept _ _ number _ => (isNarrowTag number).toNat
  | _ => 0

/-- What is needed for a struct, from what is needed for the messages in it. -/
def encodeSpec (layer : Layer (GeneratedStruct → EncodeSpec)) (s : GeneratedStruct) : EncodeSpec :=
  let program := writeProgram EncodeSpec.size s layer
  { size := encodedSizeOf EncodeSpec.size s layer
    lengths := (program.map commandLengths).sum
    endTags := (program.map commandEndTags).sum
    inRange := program.all commandInRange
    prefixed := !messageCanFastDirectEncode s || program.all commandPrefixed
    narrowTags := (program.map commandNarrowTags).sum }

end Codegen

namespace EmittedMessage

variable (s : GeneratedStruct) (self : EmittedMessage)

def encodeSpec : EncodeSpec := self.fold Codegen.encodeSpec s

end EmittedMessage

/-! ## Lengths -/

/-- The methods have the size that they need and write as many bytes, up to messages between
tags. -/
structure EncodeMethods.HasSize (m : EncodeMethods) (spec : EncodeSpec) : Prop where
  size : m.encodedSize = spec.size
  length : spec.inRange = true → ∀ bytes, m.writeTo = .ok bytes →
    bytes.length + spec.lengths = spec.size + spec.endTags

namespace Codegen

/-- `payloadSize` is the length of a payload. -/
theorem length_encodeScalarPayload {kind : FieldKind} {value : Value} {bytes : Bytes}
    (h : encodeScalarPayload kind value = .ok bytes) (hsize : payloadSize kind value < 2 ^ 64) :
    bytes.length = payloadSize kind value := by
  unfold encodeScalarPayload at h
  split at h
  all_goals cases h
  -- The payloads of a fixed width, varints and strings.
  all_goals first
    | exact littleBytes_length _ _
    | exact writeVarint_length (by omega)
    | skip
  · split <;> rfl
  all_goals
    simp only [payloadSize, scalarPayloadSize] at hsize ⊢
    rw [lengthPrefixed, List.length_append, writeVarint_length (by omega)]

theorem length_writeTag {number : Nat} (hnumber : ValidNumber number) {wt : WireType}
    {bytes : Bytes} (h : writeTag number wt = .ok bytes) : bytes.length = tagWidth number wt := by
  have htag := tag_lt hnumber wt
  rw [writeTag_eq hnumber] at h
  cases h
  exact writeVarint_length (by omega)

theorem length_encodePayloads {kind : FieldKind} :
    ∀ {values : List Value} {bytes : Bytes},
      encodePayloads (encodeScalarPayload kind) values = .ok bytes →
        (values.map (payloadSize kind)).sum < 2 ^ 64 →
          bytes.length = (values.map (payloadSize kind)).sum
  | [], bytes, h, _ => by cases h; rfl
  | value :: values, bytes, h, hsize => by
      rw [List.map_cons, List.sum_cons] at hsize ⊢
      obtain ⟨first, hfirst, h⟩ := Check.of_bind_eq_ok h
      obtain ⟨others, hothers, h⟩ := Check.of_bind_eq_ok h
      cases h
      rw [List.length_append, length_encodeScalarPayload hfirst (by omega),
        length_encodePayloads hothers (by omega)]

/-- The payloads of a packed field with a fixed width have that width. -/
theorem payloadSize_of_fixedPackedWidth {kind : FieldKind} {width : Nat}
    (h : fixedPackedWidth kind = some width) (value : Value) : payloadSize kind value = width := by
  unfold fixedPackedWidth at h
  split at h
  all_goals cases h
  all_goals rfl

theorem packedLength_eq (kind : FieldKind) (values : List Value) :
    packedLength kind values = (values.map (payloadSize kind)).sum := by
  rw [packedLength]
  split
  · next width hwidth =>
    rw [show payloadSize kind = fun _ => width from
      funext (payloadSize_of_fixedPackedWidth hwidth), List.map_const', List.sum_replicate,
      smul_eq_mul]
  · rfl

theorem length_keptBytes {form : KeptForm} {number : Nat} {bytes data : Bytes}
    (hnumber : ValidNumber number) (hlength : bytes.length < 2 ^ 64)
    (h : keptBytes form number bytes = .ok data) (grows : Bool) :
    data.length + commandLengths (.kept grows form number bytes)
      = commandSize EncodeSpec.size (.kept grows form number bytes)
        + commandEndTags (.kept grows form number bytes) := by
  have hwidth : ∀ wt, (tagBytes number wt).length = tagWidth number wt :=
    fun wt => writeVarint_length (by have := tag_lt hnumber wt; omega)
  have hencoded := writeVarint_length hlength
  -- The start tag is as long as the tag of a length-prefixed message.
  have hstart := tagWidth_wireType number .startGroup .lengthDelimited
  cases form with
  | lengthPrefixed =>
      rw [keptBytes, writeMessage, writeBytes_ok hnumber] at h
      cases h
      rw [List.length_append, lengthPrefixed, List.length_append, hwidth, hencoded]
      rfl
  | delimited =>
      rw [keptBytes, writeGroup_ok hnumber] at h
      cases h
      rw [List.length_append, List.length_append, hwidth, hwidth]
      show _ + encodedVarintSize bytes.length
        = tagWidth number .lengthDelimited + (encodedVarintSize bytes.length + bytes.length)
          + tagWidth number .endGroup
      omega
  | group =>
      rw [keptBytes, writeGroup_ok hnumber] at h
      cases h
      rw [List.length_append, List.length_append, hwidth, hwidth]
      show _ + 0 = tagWidth number .startGroup + tagWidth number .endGroup + bytes.length + 0
      omega

theorem length_packedBytes {number : Nat} {kind : FieldKind} {values : List Value} {bytes : Bytes}
    (hnumber : ValidNumber number) (hlength : packedLength kind values < 2 ^ 64)
    (h : packedBytes number kind values = .ok bytes) :
    bytes.length = tagWidth number .lengthDelimited
      + encodedVarintSize (packedLength kind values) + packedLength kind values := by
  obtain ⟨tag, htag, h⟩ := Check.of_bind_eq_ok h
  obtain ⟨payloads, hpayloads, h⟩ := Check.of_bind_eq_ok h
  cases h
  have hsum := packedLength_eq kind values
  rw [List.length_append, List.length_append, length_writeTag hnumber htag,
    writeVarint_length hlength, length_encodePayloads hpayloads (by rw [← hsum]; exact hlength),
    ← hsum]

/-- What a command writes is as long as what counts for it, up to messages between tags. -/
theorem length_commandBytes {command : Command EncodeMethods} {command' : Command EncodeSpec}
    (h : Command.Related EncodeMethods.HasSize command command')
    (hrange : commandInRange command' = true) {bytes : Bytes}
    (hbytes : commandBytes command = .ok bytes) :
    bytes.length + commandLengths command'
      = commandSize EncodeSpec.size command' + commandEndTags command' := by
  cases h with
  | check valid =>
      rw [commandBytes] at hbytes
      split at hbytes
      · cases hbytes; rfl
      · cases hbytes
  | tag number wireType => exact length_writeTag (of_decide_eq_true hrange) hbytes
  | varint value =>
      cases hbytes
      exact writeVarint_length (of_decide_eq_true hrange)
  | slice data => cases hbytes; rfl
  | payload kind value => exact length_encodeScalarPayload hbytes (of_decide_eq_true hrange)
  | packed number kind hkind values =>
      simp only [commandInRange, Bool.and_eq_true, decide_eq_true_eq] at hrange
      exact length_packedBytes hrange.1.1 hrange.1.2 hbytes
  | kept grows form number data =>
      simp only [commandInRange, Bool.and_eq_true, decide_eq_true_eq] at hrange
      exact length_keptBytes hrange.1 hrange.2 hbytes grows
  | body delimited hmessage => exact hmessage.length hrange bytes hbytes

theorem length_programBytes {program : List (Command EncodeMethods)}
    {program' : List (Command EncodeSpec)} (h : ProgramRelated EncodeMethods.HasSize program program')
    (hrange : program'.all commandInRange = true) {bytes : Bytes}
    (hbytes : programBytes program = .ok bytes) :
    bytes.length + (program'.map commandLengths).sum
      = programSize EncodeSpec.size program' + (program'.map commandEndTags).sum := by
  induction h generalizing bytes with
  | nil => cases hbytes; rfl
  | cons hcommand _ ih =>
      rw [List.all_cons, Bool.and_eq_true] at hrange
      obtain ⟨first, hfirst, hbytes⟩ := Check.of_bind_eq_ok hbytes
      obtain ⟨others, hothers, hbytes⟩ := Check.of_bind_eq_ok hbytes
      cases hbytes
      have hlength := length_commandBytes hcommand hrange.1 hfirst
      have hlengths := ih hrange.2 hothers
      rw [List.length_append, List.map_cons, List.sum_cons, List.map_cons, List.sum_cons,
        programSize_cons]
      omega

theorem commandSize_related {command : Command EncodeMethods} {command' : Command EncodeSpec}
    (h : Command.Related EncodeMethods.HasSize command command') :
    commandSize EncodeMethods.encodedSize command = commandSize EncodeSpec.size command' := by
  cases h with
  | body delimited hmessage => exact hmessage.size
  | kept grows form number bytes => cases form <;> rfl
  | _ => rfl

theorem programSize_related {program : List (Command EncodeMethods)}
    {program' : List (Command EncodeSpec)}
    (h : ProgramRelated EncodeMethods.HasSize program program') :
    programSize EncodeMethods.encodedSize program = programSize EncodeSpec.size program' := by
  induction h with
  | nil => rfl
  | cons hcommand _ ih =>
      rw [programSize_cons, programSize_cons, commandSize_related hcommand, ih]

/-- The methods of a struct have the size that they need if those of the messages in it do. -/
theorem encodeMethods_hasSize_of_program (spare : Nat → Nat) {t : GeneratedStruct}
    {layer : Layer (GeneratedStruct → EncodeMethods)}
    {layer' : Layer (GeneratedStruct → EncodeSpec)}
    (h : ProgramRelated EncodeMethods.HasSize (writeProgram EncodeMethods.encodedSize t layer)
      (writeProgram EncodeSpec.size t layer')) :
    EncodeMethods.HasSize (encodeMethods spare layer t) (encodeSpec layer' t) := by
  have hsize : encodedSizeOf EncodeMethods.encodedSize t layer
      = encodedSizeOf EncodeSpec.size t layer' := by
    rw [← programSize_writeProgram, ← programSize_writeProgram]
    exact programSize_related h
  refine { size := hsize, length := fun hrange bytes hbytes => ?_ }
  have hlength := length_programBytes h hrange hbytes
  rw [programSize_writeProgram] at hlength
  exact hlength

theorem encodeMethods_hasSize (spare : Nat → Nat) :
    RelatedByLayer (ByStruct EncodeMethods.HasSize) (encodeMethods spare) encodeSpec :=
  fun _ _ h t => encodeMethods_hasSize_of_program spare (writeProgram_related
    (fun (m : EncodeMethods) (m' : EncodeSpec) (hm : m.HasSize m') => hm.size) t h)

end Codegen

namespace EmittedMessage

variable (spare : Nat → Nat) (s : GeneratedStruct) (self : EmittedMessage)

theorem methods_hasSize : (self.methods spare s).HasSize (self.encodeSpec s) :=
  fold_related (Codegen.encodeMethods_hasSize spare) self s

/-- `encodedSize` counts a length prefix for each message between tags, and not its end tag. -/
theorem length_writeTo {bytes : Bytes} (hrange : (self.encodeSpec s).inRange = true)
    (h : self.writeTo spare s = .ok bytes) :
    bytes.length + (self.encodeSpec s).lengths
      = self.encodedSize spare s + (self.encodeSpec s).endTags := by
  have hmethods := self.methods_hasSize spare s
  rw [encodedSize, hmethods.size]
  exact hmethods.length hrange bytes h

end EmittedMessage

/-! ### A message between tags -/

namespace Codegen

def wheelField : FieldDescriptor :=
  { name := ascii "wheel"
    number := 16
    cardinality := .optional
    kind := .message (ascii "Wheel")
    features := some { messageEncoding := .delimited } }

def loadsField : FieldDescriptor :=
  { name := ascii "loads", number := 1, cardinality := .repeated, kind := .scalar .int32 }

def cartMessage : MessageDescriptor :=
  { name := ascii "Cart", fields := [loadsField, wheelField] }

def cartStruct : GeneratedStruct :=
  { ctx := { file := { (FileDescriptor.setSyntax {} .proto3) with messages := [cartMessage] } }
    message := cartMessage }

/-- A cart with the payload of its wheel, if it has one, and its loads. -/
def cart (wheel : Option Bytes) (loads : List (BitVec 32)) : EmittedMessage :=
  { member := fun _ =>
      { value := .boolean false, has := wheel.isSome, payload := wheel.getD [], nested := none
        items := loads.map (fun load => .value (.int32 load)), entries := [] }
    oneof := fun _ => none
    unknownFields := [] }

end Codegen

theorem EmittedMessage.length_writeTo_cart :
    Codegen.keptForm Codegen.cartStruct Codegen.wheelField = .delimited
      ∧ ∃ bytes, (Codegen.cart (some [8, 5]) []).writeTo (fun _ => 0) Codegen.cartStruct = .ok bytes
        ∧ bytes.length + 1
          = (Codegen.cart (some [8, 5]) []).encodedSize (fun _ => 0) Codegen.cartStruct + 2 :=
  ⟨by decide, [131, 1, 8, 5, 132, 1], by decide,
    (Codegen.cart (some [8, 5]) []).length_writeTo (fun _ => 0) Codegen.cartStruct (by decide)
      (show (Codegen.cart (some [8, 5]) []).writeTo (fun _ => 0) Codegen.cartStruct
        = .ok [131, 1, 8, 5, 132, 1] by decide)⟩

end Pbz
