import Pbz.Dynamic.Resolve
import Pbz.Dynamic.Value
import Pbz.Lib.SwapRemove

set_option autoImplicit false

/-! # The message store

The operations of `DynamicMessage` that change stored values. A message keeps one `FieldValue`
for each field number it has seen, found by a search from the front. Ownership of the values is
left out: a value that the source clones is the same value here, and one that it frees is gone.
-/

namespace Pbz

/-! ## Entries -/

/-- `getOrCreateMutable` and a change of the values of the entry it returns. -/
def updateOrCreate (field : FieldDescriptor) (change : List Value → List Value) :
    List FieldValue → List FieldValue
  | [] => [{ descriptor := field, values := change [] }]
  | entry :: rest =>
      if entry.descriptor.number == field.number then
        { entry with values := change entry.values } :: rest
      else entry :: updateOrCreate field change rest

/-- A change of the values of the first entry with the number, if there is one. -/
def updateEntry (number : Nat) (change : List Value → List Value) :
    List FieldValue → List FieldValue
  | [] => []
  | entry :: rest =>
      if entry.descriptor.number == number then
        { entry with values := change entry.values } :: rest
      else entry :: updateEntry number change rest

/-- `getByNumber`, `getMutableByNumber` and `findMutableByNumber` -/
def findEntry (number : Nat) (fields : List FieldValue) : Option FieldValue :=
  fields.find? (fun entry => entry.descriptor.number == number)

/-- The entry belongs to the oneof. -/
def FieldValue.inOneof (oneofName : Bytes) (entry : FieldValue) : Bool :=
  match entry.descriptor.oneofName with
  | some name => name == oneofName
  | none => false

/-- The loop of `clearField`, which ends after one removal. -/
def clearEntry (number : Nat) (fields : List FieldValue) : List FieldValue × Bool :=
  match fields.findIdx? (fun entry => entry.descriptor.number == number) with
  | some index => (SwapRemove.swapRemove fields index, true)
  | none => (fields, false)

/-! ## Map entries -/

/-- The value is a map entry with the key. -/
def Value.hasKey (value key : Value) : Bool :=
  match value with
  | .mapEntry k _ => valueEqual k key
  | _ => false

/-- The values with the first map entry that has the key replaced, `none` if there is none. -/
def replaceKey (key value : Value) : List Value → Option (List Value)
  | [] => none
  | existing :: rest =>
      if existing.hasKey key then some (value :: rest)
      else (replaceKey key value rest).map (existing :: ·)

/-- A map entry in the place of the entry with its key, or at the end. -/
def putMapEntry (values : List Value) (value : Value) : List Value :=
  match value with
  | .mapEntry key _ => (replaceKey key value values).getD (values ++ [value])
  | _ => values ++ [value]

/-- `deduplicateDecodedMapFieldLinear`: the accumulator is the part in front of `write_index`. -/
def deduplicateLinear (values : List Value) : List Value := values.foldl putMapEntry []

/-- The part in front of `write_index`, and the hash map from the retained keys to their places.
The hash of a key is a function of what `valueEqual` compares, so looking a key up is searching
for an equal one. -/
structure Retained where
  values : List Value := []
  byKey : List (Value × Nat) := []

def Retained.push (retained : Retained) (value : Value) : Retained :=
  match value with
  | .mapEntry key _ =>
      match retained.byKey.findIdx? (fun slot => valueEqual slot.1 key) with
      | some slot =>
          let index := (retained.byKey[slot]?.map Prod.snd).getD 0
          { values := retained.values.set index value,
            byKey := retained.byKey.set slot (key, index) }
      | none =>
          { values := retained.values ++ [value],
            byKey := retained.byKey ++ [(key, retained.values.length)] }
  | _ => { retained with values := retained.values ++ [value] }

/-- `deduplicateDecodedMapField` -/
def deduplicateDecodedMapField (values : List Value) : List Value :=
  if values.length < 2 then values
  else if values.length < 16 then deduplicateLinear values
  else (values.foldl Retained.push {}).values

/-! ## Operations -/

namespace DynamicMessage

def getByNumber (self : DynamicMessage) (number : Nat) : Option FieldValue :=
  findEntry number self.fields

def has (self : DynamicMessage) (field : FieldDescriptor) : Bool :=
  match self.getByNumber field.number with
  | some entry => !entry.values.isEmpty
  | none => false

def clearField (self : DynamicMessage) (field : FieldDescriptor) : DynamicMessage × Bool :=
  let (fields, removed) := clearEntry field.number self.fields
  ({ self with fields }, removed)

/-- A change of the values of a field, and the removal of its entry if none is left. -/
def shrinkValues (self : DynamicMessage) (field : FieldDescriptor) (entry : FieldValue)
    (index : Nat) : DynamicMessage :=
  let self := { self with
    fields := updateEntry field.number (fun values => values.eraseIdx index) self.fields }
  if (entry.values.eraseIdx index).isEmpty then (self.clearField field).1 else self

def removeRepeatedValue (self : DynamicMessage) (field : FieldDescriptor) (index : Nat) :
    DynamicMessage × Bool :=
  if !field.isRepeatedLike then (self, false)
  else match self.getByNumber field.number with
    | none => (self, false)
    | some entry =>
        if index ≥ entry.values.length then (self, false)
        else (self.shrinkValues field entry index, true)

def setRepeatedValue (self : DynamicMessage) (field : FieldDescriptor) (index : Nat)
    (value : Value) : DynamicMessage × Bool :=
  if !field.isRepeatedLike then (self, false)
  else match self.getByNumber field.number with
    | none => (self, false)
    | some entry =>
        if index ≥ entry.values.length then (self, false)
        else ({ self with
          fields := updateEntry field.number (fun values => values.set index value) self.fields },
          true)

/-- `std.mem.swap` of two elements. -/
def swapValues (lhs rhs : Nat) (values : List Value) : List Value :=
  match values[lhs]?, values[rhs]? with
  | some a, some b => (values.set lhs b).set rhs a
  | _, _ => values

def swapRepeatedValues (self : DynamicMessage) (field : FieldDescriptor) (lhs rhs : Nat) :
    DynamicMessage × Bool :=
  if !field.isRepeatedLike then (self, false)
  else match self.getByNumber field.number with
    | none => (self, false)
    | some entry =>
        if lhs ≥ entry.values.length ∨ rhs ≥ entry.values.length then (self, false)
        else ({ self with fields := updateEntry field.number (swapValues lhs rhs) self.fields },
          true)

def clearOneof (self : DynamicMessage) (oneofName : Bytes) : DynamicMessage × Bool :=
  if (self.descriptor.findOneof oneofName).isNone then (self, false)
  else ({ self with fields := SwapRemove.sweep (FieldValue.inOneof oneofName) self.fields },
    self.fields.any (FieldValue.inOneof oneofName))

def clearOneofExcept (self : DynamicMessage) (oneofName : Bytes) (keepNumber : Nat) :
    DynamicMessage :=
  { self with
    fields := SwapRemove.sweep
      (fun entry => entry.inOneof oneofName && entry.descriptor.number != keepNumber)
      self.fields }

def clearMapEntry (self : DynamicMessage) (field : FieldDescriptor) (key : Value) :
    DynamicMessage × Bool :=
  if !field.kind.isMap then (self, false)
  else match self.getByNumber field.number with
    | none => (self, false)
    | some entry =>
        match entry.values.findIdx? (fun value => value.hasKey key) with
        | none => (self, false)
        | some index => (self.shrinkValues field entry index, true)

/-- The other members of the field's oneof go. -/
def leaveOneof (self : DynamicMessage) (field : FieldDescriptor) : DynamicMessage :=
  match field.oneofName with
  | some oneofName => self.clearOneofExcept oneofName field.number
  | none => self

/-- What `add` does to the values of the entry it found or created. -/
def addToValues (field : FieldDescriptor) (value : Value) (values : List Value) : List Value :=
  let replaced := match value with
    | .mapEntry key _ => if field.kind.isMap then replaceKey key value values else none
    | _ => none
  match replaced with
  | some values => values
  | none => if !field.isRepeatedLike then [value] else values ++ [value]

/-- `add` without the merge of a singular message. -/
def insert (self : DynamicMessage) (field : FieldDescriptor) (value : Value) : DynamicMessage :=
  let self := self.leaveOneof field
  { self with fields := updateOrCreate field (addToValues field value) self.fields }

/-- The value a singular message is merged into: the first value of the field. -/
def mergeTarget (self : DynamicMessage) (field : FieldDescriptor) : Option Value :=
  if shouldMergeSingularMessageField field then
    (findEntry field.number self.fields).bind (fun entry => entry.values.head?)
  else none

/-- The first value of a field in its place. -/
def replaceFirst (self : DynamicMessage) (field : FieldDescriptor) (value : Value) :
    DynamicMessage :=
  { self with fields := updateEntry field.number (fun values => values.set 0 value) self.fields }

def addUnknownRaw (self : DynamicMessage) (number : Nat) (wireType : WireType) (raw : Bytes) :
    DynamicMessage :=
  { self with unknownFields := self.unknownFields ++ [{ number, wireType, data := raw }] }

mutual

/-- `mergeFrom`. The unknown fields of the other message are appended one by one in the source. -/
def mergeFrom (self : DynamicMessage) : DynamicMessage → DynamicMessage
  | { fields, unknownFields, .. } =>
      let merged := mergeFields self fields
      { merged with unknownFields := merged.unknownFields ++ unknownFields }
termination_by structural x => x

def mergeFields (self : DynamicMessage) : List FieldValue → DynamicMessage
  | [] => self
  | entry :: rest => mergeFields (mergeEntry self entry) rest
termination_by structural x => x

def mergeEntry (self : DynamicMessage) : FieldValue → DynamicMessage
  | { descriptor, values } => mergeValues self descriptor values
termination_by structural x => x

/-- `mergeFieldFrom` on each value: merged into the message that is there, else added. -/
def mergeValues (self : DynamicMessage) (field : FieldDescriptor) : List Value → DynamicMessage
  | [] => self
  | value :: rest =>
      mergeValues ((mergeSingularMessageValue self field value).getD (self.insert field value))
        field rest
termination_by structural x => x

/-- `some` message if the value was merged into the one that is there. -/
def mergeSingularMessageValue (self : DynamicMessage) (field : FieldDescriptor) :
    Value → Option DynamicMessage
  | .message source =>
      match self.mergeTarget field with
      | some (.message target) =>
          some (self.replaceFirst field (.message (mergeFrom target source)))
      | _ => none
  | .group source =>
      match self.mergeTarget field with
      | some (.group target) =>
          some (self.replaceFirst field (.group (mergeFrom target source)))
      | _ => none
  | _ => none
termination_by structural x => x

end

def add (self : DynamicMessage) (field : FieldDescriptor) (value : Value) : DynamicMessage :=
  match self.mergeSingularMessageValue field value with
  | some merged => merged
  | none => self.insert field value

def addClone (self : DynamicMessage) (field : FieldDescriptor) (value : Value) :
    DynamicMessage :=
  self.add field value

/-- `addOwned` tries the merge itself before it calls `add`, which tries it again. -/
def addOwned (self : DynamicMessage) (field : FieldDescriptor) (value : Value) :
    DynamicMessage :=
  match self.mergeSingularMessageValue field value with
  | some merged => merged
  | none => self.add field value

/-- The field's values with some appended, as the decoder adds packed values and map entries. -/
def appendValues (self : DynamicMessage) (field : FieldDescriptor) (added : List Value) :
    DynamicMessage :=
  let self := self.leaveOneof field
  { self with fields := updateOrCreate field (fun values => values ++ added) self.fields }

def addDecodedMapEntry (self : DynamicMessage) (field : FieldDescriptor) (value : Value) :
    DynamicMessage :=
  self.appendValues field [value]

def deduplicateDecodedMapFields (self : DynamicMessage) : DynamicMessage :=
  { self with
    fields := self.fields.map (fun entry =>
      if entry.descriptor.kind.isMap then
        { entry with values := deduplicateDecodedMapField entry.values }
      else entry) }

end DynamicMessage

/-! ## Entries that are there, and entries that are not -/

theorem updateOrCreate_fresh {field : FieldDescriptor} {change : List Value → List Value}
    {fields : List FieldValue} (h : ∀ entry ∈ fields, entry.descriptor.number ≠ field.number) :
    updateOrCreate field change fields
      = fields ++ [{ descriptor := field, values := change [] }] := by
  induction fields with
  | nil => rfl
  | cons entry rest ih =>
      have hne : ¬ (entry.descriptor.number == field.number) = true := by
        simpa using h entry List.mem_cons_self
      rw [updateOrCreate, if_neg hne, ih (fun e he => h e (List.mem_cons_of_mem _ he)),
        List.cons_append]

theorem updateOrCreate_last {field : FieldDescriptor} {change : List Value → List Value}
    {fields : List FieldValue} {values : List Value}
    (h : ∀ entry ∈ fields, entry.descriptor.number ≠ field.number) :
    updateOrCreate field change (fields ++ [{ descriptor := field, values }])
      = fields ++ [{ descriptor := field, values := change values }] := by
  induction fields with
  | nil => simp [updateOrCreate]
  | cons entry rest ih =>
      have hne : ¬ (entry.descriptor.number == field.number) = true := by
        simpa using h entry List.mem_cons_self
      rw [List.cons_append, updateOrCreate, if_neg hne,
        ih (fun e he => h e (List.mem_cons_of_mem _ he)), List.cons_append]

theorem findEntry_eq_none {number : Nat} {fields : List FieldValue} :
    findEntry number fields = none ↔ ∀ entry ∈ fields, entry.descriptor.number ≠ number := by
  simp [findEntry, List.find?_eq_none]

theorem isRepeatedLike_of_isMap {field : FieldDescriptor} (h : field.kind.isMap = true) :
    field.isRepeatedLike = true := by
  rw [FieldDescriptor.isRepeatedLike, h, Bool.or_true]

theorem isMap_of_not_repeatedLike {field : FieldDescriptor} (h : field.isRepeatedLike = false) :
    field.kind.isMap = false := by
  rw [FieldDescriptor.isRepeatedLike, Bool.or_eq_false_iff] at h
  exact h.2

namespace DynamicMessage

/-- In a field that is no map, a value replaces the singular one or goes to the end. -/
theorem addToValues_of_not_map {field : FieldDescriptor} (h : field.kind.isMap = false)
    (value : Value) (values : List Value) :
    addToValues field value values
      = if !field.isRepeatedLike then [value] else values ++ [value] := by
  cases value <;> simp only [addToValues, h, Bool.false_eq_true, if_false]

/-- A message without another member of the field's oneof stays as it is. -/
theorem leaveOneof_eq_self {message : DynamicMessage} {field : FieldDescriptor}
    (h : ∀ entry ∈ message.fields, entry.descriptor.number = field.number
      ∨ ∀ name, field.oneofName = some name → entry.descriptor.oneofName ≠ some name) :
    message.leaveOneof field = message := by
  rw [leaveOneof]
  cases hf : field.oneofName with
  | none => rfl
  | some name =>
      have hsweep : SwapRemove.sweep (fun entry : FieldValue =>
          entry.inOneof name && entry.descriptor.number != field.number) message.fields
          = message.fields := by
        refine SwapRemove.sweep_eq_self (fun entry he => ?_)
        rcases h entry he with hn | ho
        · simp [hn]
        · have hne := ho name hf
          rw [FieldValue.inOneof]
          cases hd : entry.descriptor.oneofName with
          | none => rfl
          | some other =>
              rw [hd] at hne
              simp only [ne_eq, Option.some.injEq] at hne
              simp [hne]
      simp only [clearOneofExcept, hsweep]
      cases message
      rfl

theorem mergeSingularMessageValue_eq_none {message : DynamicMessage} {field : FieldDescriptor}
    (h : message.mergeTarget field = none) (value : Value) :
    message.mergeSingularMessageValue field value = none := by
  cases value <;> simp only [mergeSingularMessageValue, h]

/-- A field that is repeated, or of which nothing is stored, has nothing to merge into. -/
theorem mergeTarget_eq_none {message : DynamicMessage} {field : FieldDescriptor}
    (h : field.isRepeatedLike = true
      ∨ ∀ entry ∈ message.fields, entry.descriptor.number ≠ field.number) :
    message.mergeTarget field = none := by
  rw [mergeTarget]
  rcases h with hr | hf
  · have hno : shouldMergeSingularMessageField field = false := by
      rw [shouldMergeSingularMessageField]
      rw [FieldDescriptor.isRepeatedLike] at hr
      rw [if_pos hr]
    rw [hno]
    rfl
  · rw [findEntry_eq_none.mpr hf]
    simp

/-- Merging a message adds its values one after the other. -/
theorem mergeValues_eq (message : DynamicMessage) (field : FieldDescriptor) (values : List Value) :
    message.mergeValues field values = values.foldl (fun m value => m.add field value) message := by
  induction values generalizing message with
  | nil => rfl
  | cons value rest ih =>
      rw [mergeValues, ih, List.foldl_cons, add]
      cases message.mergeSingularMessageValue field value <;> rfl

theorem mergeFields_eq (message : DynamicMessage) (entries : List FieldValue) :
    message.mergeFields entries
      = entries.foldl (fun m entry =>
          entry.values.foldl (fun m value => m.add entry.descriptor value) m) message := by
  induction entries generalizing message with
  | nil => rfl
  | cons entry rest ih =>
      obtain ⟨descriptor, values⟩ := entry
      rw [mergeFields, ih, mergeEntry, mergeValues_eq]
      rfl

theorem mergeFrom_eq (message other : DynamicMessage) :
    message.mergeFrom other
      = { descriptor := (message.mergeFields other.fields).descriptor,
          fields := (message.mergeFields other.fields).fields,
          unknownFields :=
            (message.mergeFields other.fields).unknownFields ++ other.unknownFields } := by
  cases other
  rfl

/-- A value that is merged goes into the first value of a field that is not repeated. -/
theorem mergeSingularMessageValue_eq_some {message merged : DynamicMessage}
    {field : FieldDescriptor} {value : Value}
    (h : message.mergeSingularMessageValue field value = some merged) :
    field.isRepeatedLike = false ∧ ∃ v, merged = message.replaceFirst field v := by
  have hsingular : ∀ target, message.mergeTarget field = some target →
      field.isRepeatedLike = false := by
    intro target ht
    rw [← Bool.not_eq_true]
    intro hr
    rw [mergeTarget_eq_none (Or.inl hr)] at ht
    simp at ht
  cases value <;> simp only [mergeSingularMessageValue, reduceCtorEq] at h
  all_goals
    split at h
    · next target ht =>
      simp only [Option.some.injEq] at h
      exact ⟨hsingular _ ht, _, h.symm⟩
    · simp at h

end DynamicMessage

end Pbz
