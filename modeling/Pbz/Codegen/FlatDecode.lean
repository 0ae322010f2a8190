import Pbz.Codegen.HotReaders
import Pbz.Lib.Check

set_option autoImplicit false

/-! # Emitted decoders of scalar and open enum fields

What the templates of `codegen.zig` emit for a message is given as a function of its descriptor:
the struct, by the numbers of the fields, and the two forms of `decode`, one that dispatches on the
number of a decoded tag and one on the raw tag.

Scalars and open enums that are no oneof member are *flat*. What the templates emit for the other
fields is a parameter (`otherField`), and so is the literal that `writeFieldDefault` emits
(`fieldDefault`); nothing here depends on them.
-/

namespace Pbz

namespace Codegen

def hasPresence (file : FileDescriptor) (field : FieldDescriptor) : Bool :=
  if field.cardinality == .required || field.proto3Optional || field.oneofName.isSome
      || field.kind.isMessage || field.kind.isGroup then true
  else if field.cardinality == .repeated || field.kind.isMap then false
  else (field.effectiveFeatures file).fieldPresence != .implicit

def enumIsClosed (file : FileDescriptor) (name : Bytes) : Bool :=
  match (file.findEnumDeep name).bind (fun enumeration => enumeration.features) with
  | some features => features.enumType == .closed
  | none => file.features.enumType == .closed

/-- The field is a scalar or an open enum, and not a member of a oneof. -/
def isFlat (file : FileDescriptor) (field : FieldDescriptor) : Bool :=
  field.oneofName.isNone &&
    match field.kind with
    | .scalar _ => true
    | .enumeration name => !enumIsClosed file name
    | _ => false

def isLengthDelimitedScalar (field : FieldDescriptor) : Bool :=
  match field.kind with
  | .scalar .string | .scalar .bytes => true
  | _ => false

def messageCanFastRawTagDecode (file : FileDescriptor) (message : MessageDescriptor) : Bool :=
  message.oneofs.isEmpty
    && message.fields.all (fun field =>
      match field.kind with
      | .scalar _ => true
      | .enumeration name => !enumIsClosed file name
      | _ => false)
    && (message.fields.any isLengthDelimitedScalar || message.fields.length ≥ 8)

end Codegen

/-- The members of an emitted struct, by the number of their field: the value and the presence flag
of a singular field, the slice of a repeated one. -/
structure EmittedStruct where
  value : Nat → Value
  has : Nat → Bool
  items : Nat → List Value
  unknownFields : List Bytes

/-- What an emitted decoder does for one field of the input. -/
inductive FieldAction where
  | set (field : FieldDescriptor) (value : Value)
  | append (field : FieldDescriptor) (values : List Value)
  | keep (raw : Bytes)
  | change (f : EmittedStruct → EmittedStruct)

/-- The case for a field that is not flat: it is given the tag, the input from the tag on and the
input behind the tag. -/
abbrev OtherField :=
  FieldDescriptor → Tag → Bytes → Bytes → Except Error ((EmittedStruct → EmittedStruct) × Bytes)

namespace Codegen

/-! ## Reading -/

/-- The reader that `scalarReaderName` names, and `validateUtf8` after it. -/
def readScalarField (file : FileDescriptor) (field : FieldDescriptor) (scalar : ScalarType)
    (input : Bytes) : ReadResult Value :=
  match scalar with
  | .string =>
      match readBytes input with
      | .error e => .error e
      | .ok (value, rest) =>
          if field.utf8Validation file == .verify && !utf8ValidateSlice value then
            .error .invalidUtf8
          else .ok (.string value, rest)
  | .bytes => (readBytes input).map .bytes
  | _ => decodeScalarLike (.scalar scalar) input

/-- One value of a flat field. -/
def readOne (file : FileDescriptor) (field : FieldDescriptor) (input : Bytes) : ReadResult Value :=
  match field.kind with
  | .scalar scalar => readScalarField file field scalar input
  | .enumeration _ => (readInt32 input).map .enumeration
  | _ => .error .typeMismatch

/-- The values of a packed payload of a flat field. -/
def packedAppend (field : FieldDescriptor) (payload : Bytes) : Except Error (List Value) :=
  match field.kind with
  | .scalar scalar => packedScalarAppend scalar payload
  | .enumeration _ => appendPackedInt32 .enumeration payload
  | _ => .error .typeMismatch

/-- Read a packed payload or one value behind the tag. -/
def readFlat (file : FileDescriptor) (field : FieldDescriptor) (isPacked : Bool) (rest : Bytes) :
    Except Error (FieldAction × Bytes) :=
  if isPacked then do
    let (payload, rest) ← readBytes rest
    let values ← packedAppend field payload
    return (.append field values, rest)
  else do
    let (value, rest) ← readOne file field rest
    return (if field.cardinality == .repeated then .append field [value] else .set field value, rest)

/-- `appendSkippedRawField`: the bytes of the field are kept. -/
def readUnknown (tag : Tag) (input rest : Bytes) : Except Error (FieldAction × Bytes) := do
  let rest ← skipValue recursionLimit tag rest
  return (.keep (consumed input rest), rest)

section

variable (otherField : OtherField) (file : FileDescriptor) (message : MessageDescriptor)

/-- The cases of `writeDecodeField`. -/
def readTagged (field : FieldDescriptor) (tag : Tag) (input rest : Bytes) :
    Except Error (FieldAction × Bytes) :=
  if isFlat file field then
    readFlat file field (field.isPackable && tag.wireType == .lengthDelimited) rest
  else do
    let (change, rest) ← otherField field tag input rest
    return (.change change, rest)

/-- One field of the input in the loop of `writeDecode`, `none` at its end. -/
def readByNumber (input : Bytes) : Except Error (Option (FieldAction × Bytes)) := do
  match ← nextTag input with
  | none => return none
  | some (tag, rest) =>
      match message.findFieldByNumber tag.number with
      | some field => return some (← readTagged otherField file field tag input rest)
      | none => return some (← readUnknown tag input rest)

/-- The cases of `writeRawTagDecodeFieldCases`: `some true` for a packed payload. -/
def rawTagCase (field : FieldDescriptor) (rawTag : Nat) : Option Bool :=
  match field.kind with
  | .scalar _ =>
      if field.isPackable && rawTag == rawTagValue field.number .lengthDelimited then some true
      else if rawTag == rawFieldTag field.number field.kind then some false
      else none
  | .enumeration _ =>
      if field.resolvedPacked file && rawTag == rawTagValue field.number .lengthDelimited then
        some true
      else if rawTag == rawTagValue field.number .varint then some false
      else none
  | _ => none

/-- The case of a switch on raw tags, with the field it is for. -/
def switchCase (cases : FieldDescriptor → Nat → Option Bool) (rawTag : Nat) :
    Option (FieldDescriptor × Bool) :=
  message.fields.findSome? (fun field => (cases field rawTag).map (fun isPacked => (field, isPacked)))

/-- One field of the input in the loop of `writeRawTagDecodeLoop`, `none` at its end. -/
def readByRawTag (input : Bytes) : Except Error (Option (FieldAction × Bytes)) := do
  if input.isEmpty then return none
  let (rawTag, rest) ← readRawTag input
  match switchCase message (rawTagCase file) rawTag with
  | some (field, isPacked) => return some (← readFlat file field isPacked rest)
  | none =>
      let tag ← Tag.decode rawTag
      return some (← readUnknown tag input rest)

def readNext (input : Bytes) : Except Error (Option (FieldAction × Bytes)) :=
  if messageCanFastRawTagDecode file message then readByRawTag file message input
  else readByNumber otherField file message input

end

end Codegen

/-! ## Storing -/

namespace EmittedStruct

def set (file : FileDescriptor) (self : EmittedStruct) (field : FieldDescriptor) (value : Value) :
    EmittedStruct :=
  { self with
    value := Function.update self.value field.number value
    has := if Codegen.hasPresence file field then Function.update self.has field.number true
      else self.has }

def append (self : EmittedStruct) (field : FieldDescriptor) (values : List Value) :
    EmittedStruct :=
  { self with
    items := Function.update self.items field.number (self.items field.number ++ values) }

def apply (file : FileDescriptor) (self : EmittedStruct) : FieldAction → EmittedStruct
  | .set field value => self.set file field value
  | .append field values => self.append field values
  | .keep raw => { self with unknownFields := self.unknownFields ++ [raw] }
  | .change f => f self

/-- The defaults of the members; a number without a field has the value `false`. -/
def init (fieldDefault : FieldDescriptor → Value) (message : MessageDescriptor) : EmittedStruct :=
  { value := fun number => ((message.findFieldByNumber number).map fieldDefault).getD (.boolean false)
    has := fun _ => false
    items := fun _ => []
    unknownFields := [] }

end EmittedStruct

namespace Codegen

section

variable (fieldDefault : FieldDescriptor → Value) (otherField : OtherField)
  (file : FileDescriptor) (message : MessageDescriptor)

def decodePass (self : EmittedStruct) (input : Bytes) : Loop.Step UInt8 EmittedStruct Error :=
  match readNext otherField file message input with
  | .error e => .fail self e
  | .ok none => .done self input
  | .ok (some (action, rest)) => .next (self.apply file action) rest

/-- The emitted `decode`. -/
def decode (bytes : Bytes) : Except Error EmittedStruct :=
  match Loop.run (decodePass otherField file message) (.init fieldDefault message) bytes with
  | (_, .error e) => .error e
  | (self, .ok _) => .ok self

end

/-! ## Flat messages -/

/-- All fields are flat, and no two have the same number; the switch of a decoder would not compile
with one number twice. -/
structure FlatMessage (file : FileDescriptor) (message : MessageDescriptor) : Prop where
  flat : ∀ field ∈ message.fields, isFlat file field = true
  unique : (message.fields.map FieldDescriptor.number).Nodup

section

variable {otherField : OtherField} {file : FileDescriptor} {message : MessageDescriptor}
  {field : FieldDescriptor}

namespace FlatMessage

theorem eq_of_number (hflat : FlatMessage file message) {other : FieldDescriptor}
    (hf : field ∈ message.fields) (ho : other ∈ message.fields)
    (h : field.number = other.number) : field = other :=
  List.inj_on_of_nodup_map hflat.unique hf ho h

theorem findFieldByNumber (hflat : FlatMessage file message) (hf : field ∈ message.fields) :
    message.findFieldByNumber field.number = some field := by
  unfold MessageDescriptor.findFieldByNumber
  cases hfind : message.fields.find? (fun other => other.number == field.number) with
  | none =>
      have hne := List.find?_eq_none.mp hfind field hf
      simp at hne
  | some other =>
      have hnumber := List.find?_some hfind
      rw [hflat.eq_of_number (List.mem_of_find?_eq_some hfind) hf (by simpa using hnumber)]

end FlatMessage

/-- The cases of a switch that are for a field have tags of its number. -/
def Keyed (cases : FieldDescriptor → Nat → Option Bool) : Prop :=
  ∀ field rawTag isPacked, cases field rawTag = some isPacked → rawTag / 8 = field.number

theorem switchCase_some {cases : FieldDescriptor → Nat → Option Bool} {rawTag : Nat}
    {isPacked : Bool} (h : switchCase message cases rawTag = some (field, isPacked)) :
    field ∈ message.fields ∧ cases field rawTag = some isPacked := by
  obtain ⟨other, hmem, hother⟩ := List.exists_of_findSome?_eq_some h
  obtain ⟨found, hfound, heq⟩ := Option.map_eq_some_iff.mp hother
  cases heq
  exact ⟨hmem, hfound⟩

/-- Only one field has cases for the tags of its number. -/
theorem switchCase_of_field (hflat : FlatMessage file message)
    {cases : FieldDescriptor → Nat → Option Bool} (hkeyed : Keyed cases) {rawTag : Nat}
    (hf : field ∈ message.fields) (hnumber : rawTag / 8 = field.number) :
    switchCase message cases rawTag
      = (cases field rawTag).map (fun isPacked => (field, isPacked)) := by
  cases hswitch : switchCase message cases rawTag with
  | none =>
      have hnone := List.findSome?_eq_none_iff.mp hswitch field hf
      exact hnone.symm
  | some found =>
      obtain ⟨other, isPacked⟩ := found
      obtain ⟨hmem, hcase⟩ := switchCase_some hswitch
      have hother := hkeyed _ _ _ hcase
      obtain rfl := hflat.eq_of_number hmem hf (by rw [← hother, hnumber])
      rw [hcase, Option.map_some]

theorem rawTagCase_keyed : Keyed (rawTagCase file) := by
  intro field rawTag isPacked h
  have hvalue : ∀ wireType, (rawTag == rawTagValue field.number wireType) = true →
      rawTag / 8 = field.number := by
    intro wireType heq
    rw [beq_iff_eq.mp heq, rawTagValue_div]
  unfold rawTagCase at h
  cases hkind : field.kind with
  | scalar scalar =>
      simp only [hkind] at h
      split at h
      · next hp => exact hvalue _ (Bool.and_eq_true_iff.mp hp).2
      · split at h
        · next hp => exact hvalue _ hp
        · cases h
  | enumeration name =>
      simp only [hkind] at h
      split at h
      · next hp => exact hvalue _ (Bool.and_eq_true_iff.mp hp).2
      · split at h
        · next hp => exact hvalue _ hp
        · cases h
  | _ => simp only [hkind] at h; cases h

/-! ## What is read -/

theorem readScalarField_consumes (file : FileDescriptor) (field : FieldDescriptor)
    (scalar : ScalarType) : Consumes (readScalarField file field scalar) := by
  intro input value rest h
  unfold readScalarField at h
  cases scalar with
  | string =>
      simp only at h
      cases hread : readBytes input with
      | error e => rw [hread] at h; cases h
      | ok pair =>
          rw [hread] at h
          simp only at h
          split at h
          · cases h
          · cases h
            exact readBytes_consumes _ _ _ hread
  | bytes =>
      obtain ⟨_, hread, -⟩ := readResult_map_ok h
      exact readBytes_consumes _ _ _ hread
  | _ => exact decodeScalarLike_consumes _ _ _ _ h

theorem readOne_consumes (file : FileDescriptor) (field : FieldDescriptor) :
    Consumes (readOne file field) := by
  intro input value rest h
  unfold readOne at h
  cases hkind : field.kind with
  | scalar scalar =>
      rw [hkind] at h
      exact readScalarField_consumes file field scalar _ _ _ h
  | enumeration name =>
      rw [hkind] at h
      obtain ⟨_, hread, -⟩ := readResult_map_ok h
      obtain ⟨_, hraw, -⟩ := readResult_map_ok hread
      exact readVarint_consumes _ _ _ hraw
  | _ => rw [hkind] at h; cases h

/-- A packed payload that is read. -/
theorem readFlat_packed {rest rest' : Bytes} {action : FieldAction} :
    readFlat file field true rest = .ok (action, rest') ↔
      ∃ payload values, readBytes rest = .ok (payload, rest')
        ∧ packedAppend field payload = .ok values ∧ action = .append field values := by
  unfold readFlat
  rw [if_pos rfl]
  cases hread : readBytes rest with
  | error e => simp [bind, Except.bind]
  | ok pair =>
      cases happend : packedAppend field pair.1 with
      | error e => 
          simp only [bind, Except.bind, happend]
          constructor
          · intro h; cases h
          · rintro ⟨payload, values, hpair, hvalues, -⟩
            cases hpair
            rw [happend] at hvalues
            cases hvalues
      | ok values =>
          simp only [bind, Except.bind, happend, pure, Except.pure, Except.ok.injEq,
            Prod.mk.injEq]
          constructor
          · rintro ⟨rfl, rfl⟩
            exact ⟨pair.1, values, rfl, happend, rfl⟩
          · rintro ⟨payload, found, rfl, hfound, rfl⟩
            rw [happend] at hfound
            cases hfound
            exact ⟨rfl, rfl⟩

/-- One value that is read. -/
theorem readFlat_one {rest rest' : Bytes} {action : FieldAction} :
    readFlat file field false rest = .ok (action, rest') ↔
      ∃ value, readOne file field rest = .ok (value, rest')
        ∧ action = if field.cardinality == .repeated then .append field [value]
            else .set field value := by
  unfold readFlat
  rw [if_neg (by decide)]
  cases hread : readOne file field rest with
  | error e => simp [bind, Except.bind]
  | ok pair =>
      simp only [bind, Except.bind, pure, Except.pure, Except.ok.injEq, Prod.mk.injEq]
      constructor
      · rintro ⟨rfl, rfl⟩
        exact ⟨pair.1, rfl, rfl⟩
      · rintro ⟨value, rfl, rfl⟩
        exact ⟨rfl, rfl⟩

theorem readUnknown_ok {tag : Tag} {input rest rest' : Bytes} {action : FieldAction} :
    readUnknown tag input rest = .ok (action, rest') ↔
      skipValue recursionLimit tag rest = .ok rest' ∧ action = .keep (consumed input rest') := by
  unfold readUnknown
  cases hskip : skipValue recursionLimit tag rest with
  | error e => simp [bind, Except.bind]
  | ok found =>
      simp only [bind, Except.bind, pure, Except.pure, Except.ok.injEq, Prod.mk.injEq]
      constructor
      · rintro ⟨rfl, rfl⟩
        exact ⟨rfl, rfl⟩
      · rintro ⟨rfl, rfl⟩
        exact ⟨rfl, rfl⟩

theorem readFlat_length {isPacked : Bool} {rest rest' : Bytes} {action : FieldAction}
    (h : readFlat file field isPacked rest = .ok (action, rest')) :
    rest'.length < rest.length := by
  cases isPacked with
  | true =>
      obtain ⟨payload, values, hread, -, -⟩ := readFlat_packed.mp h
      exact readBytes_consumes _ _ _ hread
  | false =>
      obtain ⟨value, hread, -⟩ := readFlat_one.mp h
      exact readOne_consumes file field _ _ _ hread

/-- What the loop over decoded tags reads. -/
theorem readByNumber_some (hflat : FlatMessage file message) {input rest' : Bytes}
    {action : FieldAction}
    (h : readByNumber otherField file message input = .ok (some (action, rest'))) :
    ∃ tag rest, nextTag input = .ok (some (tag, rest)) ∧
      ((∃ field, message.findFieldByNumber tag.number = some field ∧
          readFlat file field (field.isPackable && tag.wireType == .lengthDelimited) rest
            = .ok (action, rest'))
        ∨ (message.findFieldByNumber tag.number = none ∧
          readUnknown tag input rest = .ok (action, rest'))) := by
  unfold readByNumber at h
  obtain ⟨next, htag, h⟩ := Check.of_bind_eq_ok h
  cases next with
  | none => cases h
  | some pair =>
      obtain ⟨tag, rest⟩ := pair
      refine ⟨tag, rest, htag, ?_⟩
      simp only at h
      cases hfind : message.findFieldByNumber tag.number with
      | none =>
          rw [hfind] at h
          obtain ⟨found, hread, h⟩ := Check.of_bind_eq_ok h
          cases h
          exact .inr ⟨rfl, hread⟩
      | some field =>
          rw [hfind] at h
          obtain ⟨found, hread, h⟩ := Check.of_bind_eq_ok h
          cases h
          have hmem : field ∈ message.fields := List.mem_of_find?_eq_some hfind
          rw [readTagged, if_pos (hflat.flat field hmem)] at hread
          exact .inl ⟨field, rfl, hread⟩

theorem readByNumber_none {input : Bytes}
    (h : readByNumber otherField file message input = .ok none) : input = [] := by
  unfold readByNumber at h
  obtain ⟨next, htag, h⟩ := Check.of_bind_eq_ok h
  cases next with
  | none => exact nextTag_none htag
  | some pair =>
      simp only at h
      cases hfind : message.findFieldByNumber pair.1.number with
      | none =>
          rw [hfind] at h
          obtain ⟨found, -, h⟩ := Check.of_bind_eq_ok h
          cases h
      | some field =>
          rw [hfind] at h
          obtain ⟨found, -, h⟩ := Check.of_bind_eq_ok h
          cases h

/-- What the loop over raw tags reads. -/
theorem readByRawTag_some {input rest' : Bytes} {action : FieldAction}
    (h : readByRawTag file message input = .ok (some (action, rest'))) :
    ∃ rawTag rest, readVarint input = .ok (rawTag, rest) ∧
      ((∃ field isPacked, switchCase message (rawTagCase file) rawTag = some (field, isPacked) ∧
          readFlat file field isPacked rest = .ok (action, rest'))
        ∨ (switchCase message (rawTagCase file) rawTag = none ∧
          ∃ tag, Tag.decode rawTag = .ok tag ∧
            readUnknown tag input rest = .ok (action, rest'))) := by
  unfold readByRawTag at h
  split at h
  · cases h
  · obtain ⟨⟨rawTag, rest⟩, htag, h⟩ := Check.of_bind_eq_ok h
    rw [readRawTag_eq] at htag
    refine ⟨rawTag, rest, htag, ?_⟩
    simp only at h
    cases hswitch : switchCase message (rawTagCase file) rawTag with
    | none =>
        rw [hswitch] at h
        obtain ⟨tag, hdecode, h⟩ := Check.of_bind_eq_ok h
        obtain ⟨found, hread, h⟩ := Check.of_bind_eq_ok h
        cases h
        exact .inr ⟨rfl, tag, hdecode, hread⟩
    | some pair =>
        obtain ⟨field, isPacked⟩ := pair
        rw [hswitch] at h
        obtain ⟨found, hread, h⟩ := Check.of_bind_eq_ok h
        cases h
        exact .inl ⟨field, isPacked, rfl, hread⟩

theorem readByRawTag_none {input : Bytes} (h : readByRawTag file message input = .ok none) :
    input = [] := by
  unfold readByRawTag at h
  split at h
  · next hempty => exact List.isEmpty_iff.mp hempty
  · obtain ⟨⟨rawTag, rest⟩, -, h⟩ := Check.of_bind_eq_ok h
    simp only at h
    cases hswitch : switchCase message (rawTagCase file) rawTag with
    | none =>
        rw [hswitch] at h
        obtain ⟨tag, -, h⟩ := Check.of_bind_eq_ok h
        obtain ⟨found, -, h⟩ := Check.of_bind_eq_ok h
        cases h
    | some pair =>
        rw [hswitch] at h
        obtain ⟨found, -, h⟩ := Check.of_bind_eq_ok h
        cases h

theorem readNext_none {input : Bytes}
    (h : readNext otherField file message input = .ok none) : input = [] := by
  unfold readNext at h
  split at h
  · exact readByRawTag_none h
  · exact readByNumber_none h

theorem readNext_length (hflat : FlatMessage file message) {input rest' : Bytes}
    {action : FieldAction}
    (h : readNext otherField file message input = .ok (some (action, rest'))) :
    rest'.length < input.length := by
  unfold readNext at h
  split at h
  · obtain ⟨rawTag, rest, htag, hread⟩ := readByRawTag_some h
    have htagLength := readVarint_consumes _ _ _ htag
    rcases hread with ⟨field, isPacked, -, hread⟩ | ⟨-, tag, -, hread⟩
    · have := readFlat_length hread
      omega
    · have := skipValue_shrinks _ _ _ _ (readUnknown_ok.mp hread).1
      omega
  · obtain ⟨tag, rest, htag, hread⟩ := readByNumber_some hflat h
    have htagLength := nextTag_length htag
    rcases hread with ⟨field, -, hread⟩ | ⟨-, hread⟩
    · have := readFlat_length hread
      omega
    · have := skipValue_shrinks _ _ _ _ (readUnknown_ok.mp hread).1
      omega

/-! ## Counting elements -/

/-- How many elements an action appends to the field with a number. -/
def added (number : Nat) : FieldAction → Nat
  | .append field values => if field.number = number then values.length else 0
  | _ => 0

/-- The action does not depend on what the struct holds. -/
def IsPlain : FieldAction → Prop
  | .change _ => False
  | _ => True

theorem readFlat_isPlain {isPacked : Bool} {rest rest' : Bytes} {action : FieldAction}
    (h : readFlat file field isPacked rest = .ok (action, rest')) : IsPlain action := by
  cases isPacked with
  | true =>
      obtain ⟨payload, values, -, -, rfl⟩ := readFlat_packed.mp h
      trivial
  | false =>
      obtain ⟨value, -, rfl⟩ := readFlat_one.mp h
      split <;> trivial

theorem readNext_isPlain (hflat : FlatMessage file message) {input rest' : Bytes}
    {action : FieldAction}
    (h : readNext otherField file message input = .ok (some (action, rest'))) :
    IsPlain action := by
  have hunknown : ∀ {tag : Tag} {rest : Bytes},
      readUnknown tag input rest = .ok (action, rest') → IsPlain action := by
    intro tag rest hread
    rw [(readUnknown_ok.mp hread).2]
    trivial
  unfold readNext at h
  split at h
  · obtain ⟨rawTag, rest, -, ⟨field, isPacked, -, hread⟩ | ⟨-, tag, -, hread⟩⟩ :=
      readByRawTag_some h
    · exact readFlat_isPlain hread
    · exact hunknown hread
  · obtain ⟨tag, rest, -, ⟨field, -, hread⟩ | ⟨-, hread⟩⟩ := readByNumber_some hflat h
    · exact readFlat_isPlain hread
    · exact hunknown hread

theorem length_items_apply {action : FieldAction} (h : IsPlain action) (self : EmittedStruct)
    (number : Nat) :
    ((self.apply file action).items number).length
      = (self.items number).length + added number action := by
  cases action with
  | set field value => rfl
  | append field values =>
      simp only [EmittedStruct.apply, EmittedStruct.append, added]
      by_cases hnumber : field.number = number
      · subst hnumber
        rw [Function.update_self, List.length_append, if_pos rfl]
      · rw [Function.update_of_ne (Ne.symm hnumber), if_neg hnumber, Nat.add_zero]
  | keep raw => rfl
  | change f => cases h

/-! ## The run of `decode` -/

theorem decodePass_next {self : EmittedStruct} {input rest : Bytes} {action : FieldAction}
    (h : readNext otherField file message input = .ok (some (action, rest))) :
    decodePass otherField file message self input = .next (self.apply file action) rest := by
  rw [decodePass, h]

theorem decodePass_nil (self : EmittedStruct) :
    decodePass otherField file message self [] = .done self [] := by
  have hread : readNext otherField file message [] = .ok none := by
    unfold readNext
    split <;> rfl
  rw [decodePass, hread]

theorem decodePass_consuming (hflat : FlatMessage file message) :
    Loop.Consuming (decodePass otherField file message) := by
  intro self input self' rest hpass
  unfold decodePass at hpass
  split at hpass
  · cases hpass
  · cases hpass
  · next hread =>
    cases hpass
    exact readNext_length hflat hread

/-- A field in front of an accepted input, and what is accepted behind it. -/
theorem decode_cases (hflat : FlatMessage file message) {self decoded : EmittedStruct}
    {input end' : Bytes}
    (h : Loop.run (decodePass otherField file message) self input = (decoded, .ok end')) :
    (input = [] ∧ decoded = self) ∨
      ∃ action rest, readNext otherField file message input = .ok (some (action, rest)) ∧
        Loop.run (decodePass otherField file message) (self.apply file action) rest
          = (decoded, .ok end') := by
  cases hread : readNext otherField file message input with
  | error e =>
      have hpass : decodePass otherField file message self input = .fail self e := by
        rw [decodePass, hread]
      rw [Loop.run_of_fail hpass] at h
      cases h
  | ok next =>
      cases next with
      | none =>
          have hpass : decodePass otherField file message self input = .done self input := by
            rw [decodePass, hread]
          rw [Loop.run_of_done hpass] at h
          cases h
          exact .inl ⟨readNext_none hread, rfl⟩
      | some pair =>
          obtain ⟨action, rest⟩ := pair
          rw [Loop.run_of_next (decodePass_consuming hflat) (decodePass_next hread)] at h
          exact .inr ⟨action, rest, rfl, h⟩

/-- The struct without any members set. -/
def emptyStruct : EmittedStruct :=
  { value := fun _ => .boolean false, has := fun _ => false, items := fun _ => [],
    unknownFields := [] }

/-- The number of elements that `decode` finds in an input for the field with a number. -/
def elements (otherField : OtherField) (file : FileDescriptor) (message : MessageDescriptor)
    (input : Bytes) (number : Nat) : Nat :=
  ((Loop.run (decodePass otherField file message) emptyStruct input).1.items number).length

/-- What is appended does not depend on the struct. -/
theorem run_items (hflat : FlatMessage file message) {self decoded : EmittedStruct}
    {input end' : Bytes}
    (h : Loop.run (decodePass otherField file message) self input = (decoded, .ok end'))
    (other : EmittedStruct) :
    ∃ decoded', Loop.run (decodePass otherField file message) other input
        = (decoded', .ok end') ∧
      ∀ number, (decoded.items number).length + (other.items number).length
        = (decoded'.items number).length + (self.items number).length := by
  induction hn : input.length using Nat.strong_induction_on generalizing self other input with
  | _ n ih =>
      rcases decode_cases hflat h with ⟨rfl, rfl⟩ | ⟨action, rest, hread, hrest⟩
      · rw [Loop.run_of_done (decodePass_nil decoded)] at h
        cases h
        exact ⟨other, Loop.run_of_done (decodePass_nil other), fun number => Nat.add_comm _ _⟩
      · have hlt := readNext_length hflat hread
        obtain ⟨decoded', hrun, hitems⟩ :=
          ih rest.length (by omega) hrest (other.apply file action) rfl
        refine ⟨decoded', ?_, fun number => ?_⟩
        · rw [Loop.run_of_next (decodePass_consuming hflat) (decodePass_next hread), hrun]
        · have := hitems number
          rw [length_items_apply (readNext_isPlain hflat hread),
            length_items_apply (readNext_isPlain hflat hread)] at this
          omega

/-- The elements of a field after an accepted input are those before it and those in it. -/
theorem length_items_decoded (hflat : FlatMessage file message) {self decoded : EmittedStruct}
    {input end' : Bytes}
    (h : Loop.run (decodePass otherField file message) self input = (decoded, .ok end'))
    (number : Nat) :
    (decoded.items number).length
      = (self.items number).length + elements otherField file message input number := by
  obtain ⟨decoded', hrun, hitems⟩ := run_items hflat h emptyStruct
  have hnumber := hitems number
  rw [elements, hrun]
  simp only [emptyStruct, List.length_nil] at hnumber ⊢
  omega

theorem elements_nil (number : Nat) : elements otherField file message [] number = 0 := by
  rw [elements, Loop.run_of_done (decodePass_nil emptyStruct)]
  rfl

end

end Codegen

end Pbz
