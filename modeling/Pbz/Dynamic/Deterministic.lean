import Pbz.Dynamic.Encode
import Pbz.Lib.StableSort

set_option autoImplicit false

/-! # The deterministic encoder

`DynamicMessage.encodeDeterministicWithRegistry`: the entries of a message and its unknown fields
are written in the order of their numbers and the entries of a map in the order of their keys, at
every level. The source sorts indexes; here the pieces are encoded in place and then sorted, and
`inOrder` ends with the first error of the sorted list as the source's loop does.

`DynamicMessage.canon` is the message with everything already in that order, and
`encodeDeterministic_eq` says that the deterministic encoder is the plain one applied to it.
-/

namespace Pbz

open StableSort

/-! ## Comparisons -/

/-- `valueLessThan` -/
def valueLessThan : Value → Value → Bool
  | .boolean a, .boolean b => !a && b
  | .int32 a, .int32 b => a.slt b
  | .int64 a, .int64 b => a.slt b
  | .uint32 a, .uint32 b => a.ult b
  | .uint64 a, .uint64 b => a.ult b
  | .sint32 a, .sint32 b => a.slt b
  | .sint64 a, .sint64 b => a.slt b
  | .fixed32 a, .fixed32 b => a.ult b
  | .fixed64 a, .fixed64 b => a.ult b
  | .sfixed32 a, .sfixed32 b => a.slt b
  | .sfixed64 a, .sfixed64 b => a.slt b
  | .string a, .string b => decide (a < b)
  | _, _ => false

/-- `mapEntryLessThan` -/
def mapEntryLessThan : Value → Value → Bool
  | .mapEntry a _, .mapEntry b _ => valueLessThan a b
  | _, _ => false

/-- `unknownFieldIndexLessThan` compares numbers and then indexes, which is the stable sort by
numbers. -/
def sortUnknownFields (unknownFields : List UnknownField) : List UnknownField :=
  sortByKey UnknownField.number unknownFields

/-! ## The encoder -/

/-- An encoded part of a message and what it is sorted by. -/
structure Piece (κ : Type) where
  key : κ
  bytes : Except Error Bytes

/-- The pieces one after the other, up to the first that is an error. -/
def inOrder {κ : Type} : List (Piece κ) → Except Error Bytes
  | [] => .ok []
  | piece :: rest => do
      let first ← piece.bytes
      let others ← inOrder rest
      return first ++ others

mutual

def DynamicMessage.encodeDeterministicWithRegistry (registry : Option Registry)
    (file : FileDescriptor) : DynamicMessage → Except Error Bytes
  | { descriptor, fields, unknownFields } =>
      if descriptor.messageSetWireFormat then do
        let entries ← inOrder (sortByKey Piece.key
          (messageSetPieces registry file descriptor fields))
        let unknown ← encodeUnknownMessageSetFields (sortUnknownFields unknownFields)
        return entries ++ unknown
      else do
        let entries ← inOrder (sortByKey Piece.key (entryPieces registry file descriptor fields))
        return entries ++ (sortUnknownFields unknownFields).flatMap UnknownField.data
termination_by structural x => x

def entryPieces (registry : Option Registry) (file : FileDescriptor)
    (current : MessageDescriptor) : List FieldValue → List (Piece Nat)
  | [] => []
  | entry :: rest =>
      { key := entry.descriptor.number, bytes := deterministicEntry registry file current entry }
        :: entryPieces registry file current rest
termination_by structural x => x

def deterministicEntry (registry : Option Registry) (file : FileDescriptor)
    (current : MessageDescriptor) : FieldValue → Except Error Bytes
  | { descriptor := field, values } =>
      if values.isEmpty then .ok []
      else do
        validateFieldTargetsMessage file registry current field
        if skipsDefault file registry current field values then return []
        else if resolvedPackedForEncoding file registry current field then
          encodePackedWithRegistry registry file current field values
        else if field.kind.isMap then
          inOrder (sort (fun a b => mapEntryLessThan a.key b.key)
            (valuePieces registry file current field values))
        else inOrder (valuePieces registry file current field values)
termination_by structural x => x

def valuePieces (registry : Option Registry) (file : FileDescriptor)
    (current : MessageDescriptor) (field : FieldDescriptor) : List Value → List (Piece Value)
  | [] => []
  | value :: rest =>
      { key := value, bytes := deterministicField registry file current field value }
        :: valuePieces registry file current field rest
termination_by structural x => x

/-- `encodeField` with `deterministic` set. -/
def deterministicField (registry : Option Registry) (file : FileDescriptor)
    (current : MessageDescriptor) (field : FieldDescriptor) (value : Value) :
    Except Error Bytes :=
  let fieldFile := fieldDefiningFile file registry field
  match field.kind, value with
  | .scalar scalar, value => encodeScalar fieldFile field field.number scalar value
  | .enumeration _, .enumeration v => encodeEnumeration field.number v
  | .message name, .enumeration v =>
      if (registryEnumDescriptor fieldFile registry current (.message name)).isNone then
        .error .typeMismatch
      else encodeEnumeration field.number v
  | .message name, .message message =>
      if (registryEnumDescriptor fieldFile registry current (.message name)).isSome then
        .error .typeMismatch
      else
        let messageFile := messageDefiningFile fieldFile registry message.descriptor
        let body := message.encodeDeterministicWithRegistry registry messageFile
        if field.messageEncoding fieldFile = .delimited then writeGroup field.number body
        else body >>= writeMessage field.number
  | .group _, .group message =>
      let messageFile := messageDefiningFile fieldFile registry message.descriptor
      writeGroup field.number (message.encodeDeterministicWithRegistry registry messageFile)
  | .map key valueKind, .mapEntry k v => do
      let keyBytes ← deterministicMapElement registry file current field 1 (.scalar key) k
      let valueBytes ← deterministicMapElement registry file current field 2 valueKind v
      writeMessage field.number (keyBytes ++ valueBytes)
  | _, _ => .error .typeMismatch
termination_by structural value

/-- `encodeMapElement` with `deterministic` set. -/
def deterministicMapElement (registry : Option Registry) (file : FileDescriptor)
    (current : MessageDescriptor) (field : FieldDescriptor) (number : Nat) (kind : FieldKind)
    (value : Value) : Except Error Bytes :=
  match kind, value with
  | .scalar scalar, value => encodeScalar file field number scalar value
  | .enumeration _, .enumeration v => encodeEnumeration number v
  | .message name, .enumeration v =>
      if (registryEnumDescriptor file registry current (.message name)).isNone then
        .error .typeMismatch
      else encodeEnumeration number v
  | .message name, .message message =>
      if (registryEnumDescriptor file registry current (.message name)).isSome then
        .error .typeMismatch
      else
        let messageFile := messageDefiningFile file registry message.descriptor
        message.encodeDeterministicWithRegistry registry messageFile >>= writeMessage number
  | _, _ => .error .typeMismatch
termination_by structural value

def messageSetPieces (registry : Option Registry) (file : FileDescriptor)
    (host : MessageDescriptor) : List FieldValue → List (Piece Nat)
  | [] => []
  | entry :: rest =>
      { key := entry.descriptor.number,
        bytes := deterministicMessageSetEntry registry file host entry }
        :: messageSetPieces registry file host rest
termination_by structural x => x

/-- `encodeMessageSetEntry` with `deterministic` set. -/
def deterministicMessageSetEntry (registry : Option Registry) (file : FileDescriptor)
    (host : MessageDescriptor) : FieldValue → Except Error Bytes
  | { descriptor := field, values } =>
      if messageSetEntryAllowed file registry host field then
        deterministicMessageSetValues registry file field values
      else .error .typeMismatch
termination_by structural x => x

def deterministicMessageSetValues (registry : Option Registry) (file : FileDescriptor)
    (field : FieldDescriptor) : List Value → Except Error Bytes
  | [] => .ok []
  | value :: rest => do
      let first ← deterministicMessageSetValue registry file field value
      let others ← deterministicMessageSetValues registry file field rest
      return first ++ others
termination_by structural x => x

def deterministicMessageSetValue (registry : Option Registry) (file : FileDescriptor)
    (field : FieldDescriptor) : Value → Except Error Bytes
  | .message message => do
      let messageFile := messageDefiningFile file registry message.descriptor
      let payload ← message.encodeDeterministicWithRegistry registry messageFile
      writeMessageSetItem field.number payload
  | _ => .error .typeMismatch
termination_by structural x => x

end

/-! ## Canonical messages -/

mutual

/-- The message with its entries, its unknown fields and the entries of its maps in the order of
the deterministic encoder, at every level. -/
def DynamicMessage.canon : DynamicMessage → DynamicMessage
  | { descriptor, fields, unknownFields } =>
      { descriptor,
        fields := sortByKey (fun entry => entry.descriptor.number) (canonEntries fields),
        unknownFields := sortUnknownFields unknownFields }
termination_by structural x => x

def canonEntries : List FieldValue → List FieldValue
  | [] => []
  | entry :: rest => canonEntry entry :: canonEntries rest
termination_by structural x => x

def canonEntry : FieldValue → FieldValue
  | { descriptor, values } =>
      if descriptor.kind.isMap then
        { descriptor, values := sort mapEntryLessThan (canonValues values) }
      else { descriptor, values := canonValues values }
termination_by structural x => x

def canonValues : List Value → List Value
  | [] => []
  | value :: rest => value.canon :: canonValues rest
termination_by structural x => x

def Value.canon : Value → Value
  | .message message => .message message.canon
  | .group message => .group message.canon
  | .mapEntry key value => .mapEntry key value.canon
  | value => value
termination_by structural x => x

end

@[simp] theorem canon_descriptor (message : DynamicMessage) :
    message.canon.descriptor = message.descriptor := by
  cases message
  rfl

@[simp] theorem canonEntry_descriptor (entry : FieldValue) :
    (canonEntry entry).descriptor = entry.descriptor := by
  obtain ⟨field, values⟩ := entry
  rw [canonEntry]
  split <;> rfl

theorem canonEntries_eq_map (entries : List FieldValue) :
    canonEntries entries = entries.map canonEntry := by
  induction entries with
  | nil => rfl
  | cons entry rest ih => rw [canonEntries, ih, List.map_cons]

theorem canonValues_eq_map (values : List Value) :
    canonValues values = values.map Value.canon := by
  induction values with
  | nil => rfl
  | cons value rest ih => rw [canonValues, ih, List.map_cons]

theorem canonEntry_values_perm (entry : FieldValue) :
    (canonEntry entry).values.Perm (entry.values.map Value.canon) := by
  obtain ⟨field, values⟩ := entry
  rw [canonEntry, ← canonValues_eq_map]
  split
  · exact sort_perm mapEntryLessThan (canonValues values)
  · exact List.Perm.refl (canonValues values)

theorem canon_of_scalar {value : Value} {scalar : ScalarType}
    (h : value.hasScalarType scalar = true) : value.canon = value := by
  cases value <;> first | rfl | (cases scalar <;> simp [Value.hasScalarType] at h)

/-! ## The pieces of a canonical message -/

theorem inOrder_entries (registry : Option Registry) (file : FileDescriptor)
    (current : MessageDescriptor) (entries : List FieldValue) :
    inOrder (entries.map (fun entry =>
        Piece.mk entry.descriptor.number (encodeEntry registry file current entry)))
      = encodeEntries registry file current entries := by
  induction entries with
  | nil => rfl
  | cons entry rest ih => rw [List.map_cons, inOrder, ih, encodeEntries]

theorem inOrder_messageSetEntries (registry : Option Registry) (file : FileDescriptor)
    (host : MessageDescriptor) (entries : List FieldValue) :
    inOrder (entries.map (fun entry =>
        Piece.mk entry.descriptor.number (encodeMessageSetEntry registry file host entry)))
      = encodeMessageSetEntries registry file host entries := by
  induction entries with
  | nil => rfl
  | cons entry rest ih => rw [List.map_cons, inOrder, ih, encodeMessageSetEntries]

theorem inOrder_values (registry : Option Registry) (file : FileDescriptor)
    (current : MessageDescriptor) (field : FieldDescriptor) (values : List Value) :
    inOrder (values.map (fun value =>
        Piece.mk value (encodeField registry file current field value.canon)))
      = encodeValues registry file current field (values.map Value.canon) := by
  induction values with
  | nil => rfl
  | cons value rest ih => rw [List.map_cons, inOrder, ih, List.map_cons, encodeValues]

/-- Entries are sorted before or after they are encoded. -/
theorem inOrder_sorted {entries : List FieldValue} {encode : FieldValue → Except Error Bytes}
    {encodeAll : List FieldValue → Except Error Bytes}
    (h : ∀ es : List FieldValue,
      inOrder (es.map (fun entry => Piece.mk entry.descriptor.number (encode entry)))
        = encodeAll es) :
    inOrder (sortByKey Piece.key (entries.map (fun entry =>
        Piece.mk entry.descriptor.number (encode (canonEntry entry)))))
      = encodeAll (sortByKey (fun entry => entry.descriptor.number) (canonEntries entries)) := by
  have hmap : ∀ es : List FieldValue,
      (sortByKey (fun entry => entry.descriptor.number) es).map
          (fun entry => Piece.mk entry.descriptor.number (encode entry))
        = sortByKey Piece.key (es.map (fun entry =>
            Piece.mk entry.descriptor.number (encode entry))) :=
    fun _ => map_sortByKey (fun _ _ => rfl)
  rw [← h, hmap, canonEntries_eq_map, List.map_map]
  congr 2
  apply List.map_congr_left
  intro entry _
  simp only [Function.comp_apply, canonEntry_descriptor]

/-! ## What the order does not change -/

theorem mapEntryLessThan_canon (a b : Value) :
    mapEntryLessThan a.canon b.canon = mapEntryLessThan a b := by
  cases a <;> cases b <;> rfl

theorem encodeScalarPayload_canon (kind : FieldKind) (value : Value) :
    encodeScalarPayload kind value.canon = encodeScalarPayload kind value := by
  cases value with
  | message m | group m | mapEntry k v =>
      cases kind with
      | scalar scalar => cases scalar <;> rfl
      | _ => rfl
  | _ => rfl

theorem validateScalarUtf8_canon (file : FileDescriptor) (field : FieldDescriptor)
    (kind : FieldKind) (value : Value) :
    validateScalarUtf8 file field kind value.canon = validateScalarUtf8 file field kind value := by
  cases value with
  | message m | group m | mapEntry k v =>
      unfold validateScalarUtf8
      cases kind with
      | scalar scalar => cases scalar <;> rfl
      | _ => rfl
  | _ => rfl

theorem encodeScalar_canon (file : FileDescriptor) (field : FieldDescriptor) (number : Nat)
    (scalar : ScalarType) (value : Value) :
    encodeScalar file field number scalar value.canon
      = encodeScalar file field number scalar value := by
  rw [encodeScalar, encodeScalar, validateScalarUtf8_canon, encodeScalarPayload_canon]

theorem encodePayloads_canon {payload : Value → Except Error Bytes}
    (h : ∀ value, payload value.canon = payload value) (values : List Value) :
    encodePayloads payload (canonValues values) = encodePayloads payload values := by
  induction values with
  | nil => rfl
  | cons value rest ih => rw [canonValues, encodePayloads, encodePayloads, h, ih]

theorem packedInt32Length_canon (values : List Value) :
    packedInt32Length (canonValues values) = packedInt32Length values := by
  induction values with
  | nil => rfl
  | cons value rest ih =>
      rw [canonValues]
      cases value with
      | int32 v => exact congrArg (fun r => r >>= fun others =>
          pure (encodedVarintSize (v.signExtend 64).toNat + others)) ih
      | _ => rfl

theorem encodePacked_canon (registry : Option Registry) (file : FileDescriptor)
    (current : MessageDescriptor) (field : FieldDescriptor) (values : List Value) :
    encodePackedWithRegistry registry file current field (canonValues values)
      = encodePackedWithRegistry registry file current field values := by
  have hvalidated : ∀ (fieldFile : FileDescriptor) (kind : FieldKind) (value : Value),
      encodeScalarPayloadWithValidation fieldFile field kind value.canon
        = encodeScalarPayloadWithValidation fieldFile field kind value := by
    intro fieldFile kind value
    rw [encodeScalarPayloadWithValidation, encodeScalarPayloadWithValidation,
      validateScalarUtf8_canon, encodeScalarPayload_canon]
  have hlength : (canonValues values).length = values.length := by
    rw [canonValues_eq_map, List.length_map]
  unfold encodePackedWithRegistry encodePackedInt32 encodePackedFixedWidth
  simp only [packedInt32Length_canon, encodePayloads_canon (encodeScalarPayload_canon _),
    encodePayloads_canon (hvalidated _ _), hlength]

theorem isDefaultSingularValue_canon (field : FieldDescriptor) (value : Value) :
    isDefaultSingularValue field value.canon = isDefaultSingularValue field value := by
  cases value with
  | message m | group m | mapEntry k v =>
      unfold isDefaultSingularValue
      cases field.kind with
      | scalar scalar => cases scalar <;> rfl
      | _ => rfl
  | _ => rfl

theorem skipsDefault_canon (file : FileDescriptor) (registry : Option Registry)
    (current : MessageDescriptor) (field : FieldDescriptor) (values : List Value) :
    skipsDefault file registry current field (canonValues values)
      = skipsDefault file registry current field values := by
  have hdefault : ∀ value : Value,
      isDefaultSingularValueForEncoding file registry current field value.canon
        = isDefaultSingularValueForEncoding file registry current field value := by
    intro value
    unfold isDefaultSingularValueForEncoding
    rw [isDefaultSingularValue_canon]
    cases value <;> rfl
  unfold skipsDefault
  rcases values with _ | ⟨value, _ | ⟨second, rest⟩⟩
  · rfl
  · simp only [canonValues, hdefault]
  · rfl

/-- A map is not packed. -/
theorem not_packed_of_isMap {file : FileDescriptor} {registry : Option Registry}
    {current : MessageDescriptor} {field : FieldDescriptor} (h : field.kind.isMap = true) :
    resolvedPackedForEncoding file registry current field = false := by
  unfold resolvedPackedForEncoding
  split
  · rfl
  · cases hkind : field.kind with
    | map key value =>
        simp [scalarLikeKindForEncoding, fieldKindIsRegistryEnum, registryEnumDescriptor,
          FieldKind.enumName, FieldKind.packable]
    | _ => rw [hkind] at h; simp [FieldKind.isMap] at h

theorem skipsDefault_of_isMap {file : FileDescriptor} {registry : Option Registry}
    {current : MessageDescriptor} {field : FieldDescriptor} (h : field.kind.isMap = true)
    (values : List Value) : skipsDefault file registry current field values = false := by
  unfold skipsDefault
  simp [FieldDescriptor.isRepeatedLike, h]

/-! ## The deterministic encoder is the plain one on the canonical message -/

section

variable (registry : Option Registry)

mutual

theorem encodeDeterministic_eq (file : FileDescriptor) : ∀ message : DynamicMessage,
    message.encodeDeterministicWithRegistry registry file
      = message.canon.encodeWithRegistry registry file
  | { descriptor, fields, unknownFields } => by
      rw [DynamicMessage.encodeDeterministicWithRegistry, DynamicMessage.canon,
        DynamicMessage.encodeWithRegistry, entryPieces_eq file descriptor fields,
        messageSetPieces_eq file descriptor fields,
        inOrder_sorted (inOrder_entries registry file descriptor),
        inOrder_sorted (inOrder_messageSetEntries registry file descriptor)]
termination_by structural x => x

theorem entryPieces_eq (file : FileDescriptor) (current : MessageDescriptor) :
    ∀ entries : List FieldValue,
      entryPieces registry file current entries
        = entries.map (fun entry => Piece.mk entry.descriptor.number
            (encodeEntry registry file current (canonEntry entry)))
  | [] => rfl
  | entry :: rest => by
      rw [entryPieces, deterministicEntry_eq file current entry, entryPieces_eq file current rest,
        List.map_cons]
termination_by structural x => x

theorem deterministicEntry_eq (file : FileDescriptor) (current : MessageDescriptor) :
    ∀ entry : FieldValue, deterministicEntry registry file current entry
      = encodeEntry registry file current (canonEntry entry)
  | { descriptor := field, values } => by
      have hpieces := valuePieces_eq file current field values
      rw [deterministicEntry, canonEntry, hpieces]
      by_cases hmap : field.kind.isMap = true
      · have hsorted : inOrder (sort (fun a b => mapEntryLessThan a.key b.key)
            (values.map (fun value => Piece.mk value
              (encodeField registry file current field value.canon))))
            = encodeValues registry file current field
                (sort mapEntryLessThan (canonValues values)) := by
          -- the values themselves are sorted on both sides
          have hcanon : (sort mapEntryLessThan values).map Value.canon
              = sort mapEntryLessThan (values.map Value.canon) :=
            map_sort (fun a _ b _ => (mapEntryLessThan_canon a b).symm)
          have hkeys : (sort mapEntryLessThan values).map (fun value => Piece.mk value
                (encodeField registry file current field value.canon))
              = sort (fun a b => mapEntryLessThan a.key b.key) (values.map (fun value =>
                  Piece.mk value (encodeField registry file current field value.canon))) :=
            map_sort (fun _ _ _ _ => rfl)
          rw [canonValues_eq_map, ← hcanon, ← hkeys, inOrder_values]
        have hempty : (sort mapEntryLessThan (canonValues values)).isEmpty = values.isEmpty := by
          rw [(sort_perm _ _).isEmpty_eq, canonValues_eq_map, List.isEmpty_map]
        rw [if_pos hmap, if_pos hmap, encodeEntry, hempty, not_packed_of_isMap hmap,
          skipsDefault_of_isMap hmap, skipsDefault_of_isMap hmap, hsorted]
        simp only [Bool.false_eq_true, if_false]
      · rw [if_neg hmap, if_neg hmap, encodeEntry, skipsDefault_canon, encodePacked_canon,
          inOrder_values, canonValues_eq_map, List.isEmpty_map]
termination_by structural x => x

theorem valuePieces_eq (file : FileDescriptor) (current : MessageDescriptor)
    (field : FieldDescriptor) : ∀ values : List Value,
      valuePieces registry file current field values
        = values.map (fun value => Piece.mk value
            (encodeField registry file current field value.canon))
  | [] => rfl
  | value :: rest => by
      rw [valuePieces, deterministicField_eq file current field value,
        valuePieces_eq file current field rest, List.map_cons]
termination_by structural x => x

theorem deterministicField_eq (file : FileDescriptor) (current : MessageDescriptor)
    (field : FieldDescriptor) : ∀ value : Value,
      deterministicField registry file current field value
        = encodeField registry file current field value.canon
  | .message message => by
      unfold deterministicField encodeField
      cases field.kind with
      | message name => simp only [Value.canon, encodeDeterministic_eq _ message, canon_descriptor]
      | scalar scalar => exact (encodeScalar_canon _ _ _ _ (.message message)).symm
      | _ => rfl
  | .group message => by
      unfold deterministicField encodeField
      cases field.kind with
      | group name => simp only [Value.canon, encodeDeterministic_eq _ message, canon_descriptor]
      | scalar scalar => exact (encodeScalar_canon _ _ _ _ (.group message)).symm
      | _ => rfl
  | .mapEntry key value => by
      unfold deterministicField encodeField
      cases field.kind with
      | map keyType valueKind =>
          have hkey : deterministicMapElement registry file current field 1 (.scalar keyType) key
              = encodeMapElement registry file current field 1 (.scalar keyType) key := by
            unfold deterministicMapElement encodeMapElement
            rfl
          simp only [Value.canon, deterministicMapElement_eq _ _ _ _ _ value, hkey]
      | scalar scalar => exact (encodeScalar_canon _ _ _ _ (.mapEntry key value)).symm
      | _ => rfl
  | .double v | .float v | .int32 v | .int64 v | .uint32 v | .uint64 v | .sint32 v | .sint64 v
  | .fixed32 v | .fixed64 v | .sfixed32 v | .sfixed64 v | .boolean v | .string v | .bytes v
  | .enumeration v => by
      unfold deterministicField encodeField
      cases field.kind <;> rfl
termination_by structural x => x

theorem deterministicMapElement_eq (file : FileDescriptor) (current : MessageDescriptor)
    (field : FieldDescriptor) (number : Nat) (kind : FieldKind) : ∀ value : Value,
      deterministicMapElement registry file current field number kind value
        = encodeMapElement registry file current field number kind value.canon
  | .message message => by
      unfold deterministicMapElement encodeMapElement
      cases kind with
      | message name => simp only [Value.canon, encodeDeterministic_eq _ message, canon_descriptor]
      | scalar scalar => exact (encodeScalar_canon _ _ _ _ (.message message)).symm
      | _ => rfl
  | .group message => by
      unfold deterministicMapElement encodeMapElement
      cases kind with
      | scalar scalar => exact (encodeScalar_canon _ _ _ _ (.group message)).symm
      | _ => rfl
  | .mapEntry key value => by
      unfold deterministicMapElement encodeMapElement
      cases kind with
      | scalar scalar => exact (encodeScalar_canon _ _ _ _ (.mapEntry key value)).symm
      | _ => rfl
  | .double v | .float v | .int32 v | .int64 v | .uint32 v | .uint64 v | .sint32 v | .sint64 v
  | .fixed32 v | .fixed64 v | .sfixed32 v | .sfixed64 v | .boolean v | .string v | .bytes v
  | .enumeration v => by
      unfold deterministicMapElement encodeMapElement
      cases kind <;> rfl
termination_by structural x => x

theorem messageSetPieces_eq (file : FileDescriptor) (host : MessageDescriptor) :
    ∀ entries : List FieldValue,
      messageSetPieces registry file host entries
        = entries.map (fun entry => Piece.mk entry.descriptor.number
            (encodeMessageSetEntry registry file host (canonEntry entry)))
  | [] => rfl
  | entry :: rest => by
      rw [messageSetPieces, deterministicMessageSetEntry_eq file host entry,
        messageSetPieces_eq file host rest, List.map_cons]
termination_by structural x => x

theorem deterministicMessageSetEntry_eq (file : FileDescriptor) (host : MessageDescriptor) :
    ∀ entry : FieldValue, deterministicMessageSetEntry registry file host entry
      = encodeMessageSetEntry registry file host (canonEntry entry)
  | { descriptor := field, values } => by
      have hvalues := deterministicMessageSetValues_eq file field values
      rw [deterministicMessageSetEntry, canonEntry]
      by_cases hmap : field.kind.isMap = true
      · have hallowed : messageSetEntryAllowed file registry host field = false := by
          cases hkind : field.kind with
          | map keyType valueKind => simp [messageSetEntryAllowed, hkind, FieldKind.isMessage]
          | _ => rw [hkind] at hmap; simp [FieldKind.isMap] at hmap
        rw [if_pos hmap, encodeMessageSetEntry, hallowed]
        rfl
      · rw [if_neg hmap, encodeMessageSetEntry, hvalues]
termination_by structural x => x

theorem deterministicMessageSetValues_eq (file : FileDescriptor) (field : FieldDescriptor) :
    ∀ values : List Value, deterministicMessageSetValues registry file field values
      = encodeMessageSetValues registry file field (canonValues values)
  | [] => rfl
  | value :: rest => by
      rw [deterministicMessageSetValues, deterministicMessageSetValue_eq file field value,
        deterministicMessageSetValues_eq file field rest, canonValues, encodeMessageSetValues]
termination_by structural x => x

theorem deterministicMessageSetValue_eq (file : FileDescriptor) (field : FieldDescriptor) :
    ∀ value : Value, deterministicMessageSetValue registry file field value
      = encodeMessageSetValue registry file field value.canon
  | .message message => by
      rw [Value.canon, deterministicMessageSetValue, encodeMessageSetValue]
      simp only [encodeDeterministic_eq _ message, canon_descriptor]
  | .group message => rfl
  | .mapEntry key value => rfl
  | .double v | .float v | .int32 v | .int64 v | .uint32 v | .uint64 v | .sint32 v | .sint64 v
  | .fixed32 v | .fixed64 v | .sfixed32 v | .sfixed64 v | .boolean v | .string v | .bytes v
  | .enumeration v => rfl
termination_by structural x => x

end

end

end Pbz
