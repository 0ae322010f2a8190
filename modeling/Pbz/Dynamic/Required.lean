import Pbz.Dynamic.Store
import Pbz.Lib.Dotted

set_option autoImplicit false

/-! # Required fields

`validateRequired` and `missingRequiredFieldPath` walk through a message and the messages stored in
it, each by a recursion of its own. Both look for a required field that is absent, in the message
first and then in what its fields store: `AllPresent` says that there is none, and `MissingAt` that
a path leads to one.
-/

namespace Pbz

inductive ValidationError where
  | missingRequiredField
  deriving DecidableEq, Repr

def fieldIsRequired (field : FieldDescriptor) : Bool :=
  if field.cardinality == .required then true
  else match field.features with
    | some features => features.fieldPresence == .legacyRequired
    | none => false

namespace DynamicMessage

/-- The field is required, and the message does not have it. -/
def lacks (self : DynamicMessage) (field : FieldDescriptor) : Bool :=
  fieldIsRequired field && !self.has field

/-! ## `validateRequired` -/

/-- The loop over the fields of the descriptor. -/
def validateFields (self : DynamicMessage) : List FieldDescriptor → Except ValidationError Unit
  | [] => .ok ()
  | field :: rest =>
      if self.lacks field then .error .missingRequiredField else validateFields self rest

mutual

def validateRequired : DynamicMessage → Except ValidationError Unit
  | { descriptor, fields, unknownFields } => do
      validateFields { descriptor, fields, unknownFields } descriptor.fields
      validateEntries fields
termination_by structural x => x

def validateEntries : List FieldValue → Except ValidationError Unit
  | [] => .ok ()
  | entry :: rest => do
      validateEntry entry
      validateEntries rest
termination_by structural x => x

def validateEntry : FieldValue → Except ValidationError Unit
  | { values, .. } => validateValues values
termination_by structural x => x

def validateValues : List Value → Except ValidationError Unit
  | [] => .ok ()
  | value :: rest => do
      validateValue value
      validateValues rest
termination_by structural x => x

def validateValue : Value → Except ValidationError Unit
  | .message message => validateRequired message
  | .group message => validateRequired message
  | .mapEntry _ value => validateMapValue value
  | _ => .ok ()
termination_by structural x => x

/-- The inner `switch` on the value of a map entry. -/
def validateMapValue : Value → Except ValidationError Unit
  | .message message => validateRequired message
  | .group message => validateRequired message
  | _ => .ok ()
termination_by structural x => x

end

/-! ## `missingRequiredFieldPath` -/

/-- The loop over the fields of the descriptor, which ends at the first one that is missing. -/
def missingField (self : DynamicMessage) : List FieldDescriptor → Option Bytes
  | [] => none
  | field :: rest => if self.lacks field then some field.name else missingField self rest

mutual

def missingRequiredFieldPath : DynamicMessage → Option Bytes
  | { descriptor, fields, unknownFields } =>
      match missingField { descriptor, fields, unknownFields } descriptor.fields with
      | some name => some name
      | none => missingInEntries fields
termination_by structural x => x

def missingInEntries : List FieldValue → Option Bytes
  | [] => none
  | entry :: rest =>
      match missingInEntry entry with
      | some path => some path
      | none => missingInEntries rest
termination_by structural x => x

def missingInEntry : FieldValue → Option Bytes
  | { descriptor, values } => missingInValues descriptor values
termination_by structural x => x

/-- The loop over the values of a field: the path of the first that lacks something, with the
field's name in front. -/
def missingInValues (field : FieldDescriptor) : List Value → Option Bytes
  | [] => none
  | value :: rest =>
      match missingInValue value with
      | some suffix => some (field.name ++ ascii "." ++ suffix)
      | none => missingInValues field rest
termination_by structural x => x

def missingInValue : Value → Option Bytes
  | .message message => missingRequiredFieldPath message
  | .group message => missingRequiredFieldPath message
  | .mapEntry _ value => missingInMapValue value
  | _ => none
termination_by structural x => x

/-- The inner `switch` on the value of a map entry. -/
def missingInMapValue : Value → Option Bytes
  | .message message => missingRequiredFieldPath message
  | .group message => missingRequiredFieldPath message
  | _ => none
termination_by structural x => x

end

end DynamicMessage

/-! ## Messages inside a message -/

/-- The message that a value stores: as a message, as a group, or as the value of a map entry. -/
def Value.nested : Value → Option DynamicMessage
  | .message inner => some inner
  | .group inner => some inner
  | .mapEntry _ (.message inner) => some inner
  | .mapEntry _ (.group inner) => some inner
  | _ => none

/-- The names of fields that store a value lead from a message to one inside it. -/
inductive Leads : DynamicMessage → List Bytes → DynamicMessage → Prop
  | here (message : DynamicMessage) : Leads message [] message
  | into {message nested owner : DynamicMessage} {entry : FieldValue} {value : Value}
      {names : List Bytes} (he : entry ∈ message.fields) (hv : value ∈ entry.values)
      (hn : value.nested = some nested) (h : Leads nested names owner) :
      Leads message (entry.descriptor.name :: names) owner

/-- No message of the tree lacks a required field. -/
def AllPresent (message : DynamicMessage) : Prop :=
  ∀ names owner, Leads message names owner →
    ∀ field ∈ owner.descriptor.fields, fieldIsRequired field = true → owner.has field = true

/-- The path, field names joined by dots, leads to a message of the tree and ends with the name of
a required field that this message does not have. -/
def MissingAt (message : DynamicMessage) (path : Bytes) : Prop :=
  ∃ names owner, Leads message names owner ∧
    ∃ field ∈ owner.descriptor.fields, fieldIsRequired field = true ∧ owner.has field = false
      ∧ path = Dotted.joined 0x2e (names ++ [field.name])

theorem sizeOf_nested_lt {value : Value} {nested : DynamicMessage}
    (h : value.nested = some nested) : sizeOf nested < sizeOf value := by
  cases value with
  | message m =>
      simp only [Value.nested, Option.some.injEq] at h
      subst h
      simp
  | group m =>
      simp only [Value.nested, Option.some.injEq] at h
      subst h
      simp
  | mapEntry key value =>
      cases value <;> simp only [Value.nested, reduceCtorEq, Option.some.injEq] at h
      all_goals
        subst h
        simp only [Value.mapEntry.sizeOf_spec, Value.message.sizeOf_spec, Value.group.sizeOf_spec]
        omega
  | _ => simp [Value.nested] at h

theorem sizeOf_nested_lt_message {message nested : DynamicMessage} {entry : FieldValue}
    {value : Value} (he : entry ∈ message.fields) (hv : value ∈ entry.values)
    (hn : value.nested = some nested) : sizeOf nested < sizeOf message := by
  have h1 := sizeOf_nested_lt hn
  have h2 : sizeOf value < sizeOf entry.values := List.sizeOf_lt_of_mem hv
  have h3 : sizeOf entry < sizeOf message.fields := List.sizeOf_lt_of_mem he
  have h4 : sizeOf entry.values < sizeOf entry := by
    cases entry
    simp
  have h5 : sizeOf message.fields < sizeOf message := by
    cases message
    simp only [DynamicMessage.mk.sizeOf_spec]
    omega
  omega

/-- Induction over the messages inside a message. -/
theorem nested_induction {P : DynamicMessage → Prop}
    (step : ∀ message : DynamicMessage,
      (∀ entry ∈ message.fields, ∀ value ∈ entry.values, ∀ nested,
        value.nested = some nested → P nested) → P message)
    (message : DynamicMessage) : P message := by
  induction hn : sizeOf message using Nat.strong_induction_on generalizing message with
  | _ n ih =>
      refine step message (fun entry he value hv nested hnested => ?_)
      have hlt := sizeOf_nested_lt_message he hv hnested
      exact ih (sizeOf nested) (by omega) nested rfl

/-! ## One level of each recursion -/

namespace DynamicMessage

theorem validateFields_eq_ok {self : DynamicMessage} {fields : List FieldDescriptor} :
    self.validateFields fields = .ok () ↔ ∀ field ∈ fields, self.lacks field = false := by
  induction fields with
  | nil => simp [validateFields]
  | cons field rest ih =>
      rw [validateFields, List.forall_mem_cons]
      by_cases h : self.lacks field = true
      · simp [h]
      · rw [if_neg h, ih]
        simp [h]

theorem validateValue_eq_ok {value : Value} :
    validateValue value = .ok ()
      ↔ ∀ nested, value.nested = some nested → nested.validateRequired = .ok () := by
  cases value with
  | mapEntry key value =>
      cases value <;> simp [validateValue, validateMapValue, Value.nested]
  | _ => simp [validateValue, Value.nested]

theorem bind_eq_ok {a b : Except ValidationError Unit} :
    (do a; b) = .ok () ↔ a = .ok () ∧ b = .ok () := by
  cases a with
  | error e => simp [bind, Except.bind]
  | ok u => simp [bind, Except.bind]

theorem validateValues_eq_ok {values : List Value} :
    validateValues values = .ok () ↔ ∀ value ∈ values, validateValue value = .ok () := by
  induction values with
  | nil => simp [validateValues]
  | cons value rest ih => rw [validateValues, bind_eq_ok, ih, List.forall_mem_cons]

theorem validateEntries_eq_ok {entries : List FieldValue} :
    validateEntries entries = .ok ()
      ↔ ∀ entry ∈ entries, validateValues entry.values = .ok () := by
  induction entries with
  | nil => simp [validateEntries]
  | cons entry rest ih =>
      rw [validateEntries, bind_eq_ok, ih, List.forall_mem_cons]
      obtain ⟨descriptor, values⟩ := entry
      rw [validateEntry]

/-- What `validateRequired` checks: the message, and the messages that its fields store. -/
theorem validateRequired_step {message : DynamicMessage} :
    message.validateRequired = .ok ()
      ↔ (∀ field ∈ message.descriptor.fields, message.lacks field = false)
        ∧ ∀ entry ∈ message.fields, ∀ value ∈ entry.values, ∀ nested,
            value.nested = some nested → nested.validateRequired = .ok () := by
  obtain ⟨descriptor, fields, unknownFields⟩ := message
  rw [validateRequired, bind_eq_ok, validateFields_eq_ok, validateEntries_eq_ok]
  simp only [validateValues_eq_ok, validateValue_eq_ok]

theorem missingField_eq_none {self : DynamicMessage} {fields : List FieldDescriptor} :
    self.missingField fields = none ↔ ∀ field ∈ fields, self.lacks field = false := by
  induction fields with
  | nil => simp [missingField]
  | cons field rest ih =>
      rw [missingField, List.forall_mem_cons]
      by_cases h : self.lacks field = true
      · simp [h]
      · rw [if_neg h, ih]
        simp [h]

theorem missingField_eq_some {self : DynamicMessage} {fields : List FieldDescriptor} {name : Bytes}
    (h : self.missingField fields = some name) :
    ∃ field ∈ fields, self.lacks field = true ∧ name = field.name := by
  induction fields with
  | nil => simp [missingField] at h
  | cons field rest ih =>
      rw [missingField] at h
      split at h
      · next hl =>
        simp only [Option.some.injEq] at h
        exact ⟨field, List.mem_cons_self, hl, h.symm⟩
      · obtain ⟨other, ho, hl, hn⟩ := ih h
        exact ⟨other, List.mem_cons_of_mem _ ho, hl, hn⟩

theorem missingInValue_eq (value : Value) :
    missingInValue value = value.nested.bind missingRequiredFieldPath := by
  cases value with
  | mapEntry key value =>
      cases value <;> simp [missingInValue, missingInMapValue, Value.nested]
  | _ => simp [missingInValue, Value.nested]

theorem missingInValues_eq_none {field : FieldDescriptor} {values : List Value} :
    missingInValues field values = none ↔ ∀ value ∈ values, missingInValue value = none := by
  induction values with
  | nil => simp [missingInValues]
  | cons value rest ih =>
      rw [missingInValues, List.forall_mem_cons]
      cases hv : missingInValue value with
      | some suffix => simp
      | none => simp [ih]

theorem missingInValues_eq_some {field : FieldDescriptor} {values : List Value} {path : Bytes}
    (h : missingInValues field values = some path) :
    ∃ value ∈ values, ∃ suffix, missingInValue value = some suffix
      ∧ path = field.name ++ ascii "." ++ suffix := by
  induction values with
  | nil => simp [missingInValues] at h
  | cons value rest ih =>
      rw [missingInValues] at h
      cases hv : missingInValue value with
      | some suffix =>
          rw [hv] at h
          simp only [Option.some.injEq] at h
          exact ⟨value, List.mem_cons_self, suffix, hv, h.symm⟩
      | none =>
          rw [hv] at h
          obtain ⟨other, ho, suffix, hs, hp⟩ := ih h
          exact ⟨other, List.mem_cons_of_mem _ ho, suffix, hs, hp⟩

theorem missingInEntries_eq_none {entries : List FieldValue} :
    missingInEntries entries = none
      ↔ ∀ entry ∈ entries, missingInValues entry.descriptor entry.values = none := by
  induction entries with
  | nil => simp [missingInEntries]
  | cons entry rest ih =>
      obtain ⟨descriptor, values⟩ := entry
      rw [missingInEntries, missingInEntry, List.forall_mem_cons]
      cases hv : missingInValues descriptor values with
      | some path => simp
      | none => simp [ih]

theorem missingInEntries_eq_some {entries : List FieldValue} {path : Bytes}
    (h : missingInEntries entries = some path) :
    ∃ entry ∈ entries, missingInValues entry.descriptor entry.values = some path := by
  induction entries with
  | nil => simp [missingInEntries] at h
  | cons entry rest ih =>
      obtain ⟨descriptor, values⟩ := entry
      rw [missingInEntries, missingInEntry] at h
      cases hv : missingInValues descriptor values with
      | some other =>
          rw [hv] at h
          simp only [Option.some.injEq] at h
          exact ⟨_, List.mem_cons_self, by rw [hv, h]⟩
      | none =>
          rw [hv] at h
          obtain ⟨entry, he, hp⟩ := ih h
          exact ⟨entry, List.mem_cons_of_mem _ he, hp⟩

theorem missingRequiredFieldPath_step {message : DynamicMessage} :
    message.missingRequiredFieldPath = none
      ↔ (∀ field ∈ message.descriptor.fields, message.lacks field = false)
        ∧ ∀ entry ∈ message.fields, ∀ value ∈ entry.values, ∀ nested,
            value.nested = some nested → nested.missingRequiredFieldPath = none := by
  obtain ⟨descriptor, fields, unknownFields⟩ := message
  simp only
  rw [← missingField_eq_none, missingRequiredFieldPath]
  cases hf : missingField { descriptor, fields, unknownFields } descriptor.fields with
  | some name => simp
  | none =>
      simp only [missingInEntries_eq_none, missingInValues_eq_none, missingInValue_eq,
        Option.bind_eq_none_iff, true_and]

/-- A path is the name of a field of the message, or goes on into a message that a field stores. -/
theorem missingRequiredFieldPath_cases {message : DynamicMessage} {path : Bytes}
    (h : message.missingRequiredFieldPath = some path) :
    (∃ field ∈ message.descriptor.fields, message.lacks field = true ∧ path = field.name)
      ∨ ∃ entry ∈ message.fields, ∃ value ∈ entry.values, ∃ nested suffix,
          value.nested = some nested ∧ nested.missingRequiredFieldPath = some suffix
            ∧ path = entry.descriptor.name ++ ascii "." ++ suffix := by
  obtain ⟨descriptor, fields, unknownFields⟩ := message
  rw [missingRequiredFieldPath] at h
  cases hf : missingField { descriptor, fields, unknownFields } descriptor.fields with
  | some name =>
      rw [hf] at h
      simp only [Option.some.injEq] at h
      obtain ⟨field, hm, hl, hn⟩ := missingField_eq_some hf
      exact Or.inl ⟨field, hm, hl, by rw [← h, hn]⟩
  | none =>
      rw [hf] at h
      obtain ⟨entry, he, hp⟩ := missingInEntries_eq_some h
      obtain ⟨value, hv, suffix, hs, hpath⟩ := missingInValues_eq_some hp
      rw [missingInValue_eq, Option.bind_eq_some_iff] at hs
      obtain ⟨nested, hn, hs⟩ := hs
      exact Or.inr ⟨entry, he, value, hv, nested, suffix, hn, hs, hpath⟩

end DynamicMessage

/-! ## The whole tree -/

theorem lacks_eq_true {message : DynamicMessage} {field : FieldDescriptor} :
    message.lacks field = true ↔ fieldIsRequired field = true ∧ message.has field = false := by
  rw [DynamicMessage.lacks, Bool.and_eq_true, Bool.not_eq_true']

theorem lacks_eq_false {message : DynamicMessage} {field : FieldDescriptor} :
    message.lacks field = false ↔ (fieldIsRequired field = true → message.has field = true) := by
  rw [DynamicMessage.lacks]
  cases fieldIsRequired field <;> simp

theorem allPresent_step {message : DynamicMessage} :
    AllPresent message
      ↔ (∀ field ∈ message.descriptor.fields, message.lacks field = false)
        ∧ ∀ entry ∈ message.fields, ∀ value ∈ entry.values, ∀ nested,
            value.nested = some nested → AllPresent nested := by
  simp only [lacks_eq_false]
  constructor
  · intro h
    refine ⟨h [] message (.here message), ?_⟩
    intro entry he value hv nested hn names owner hl
    exact h _ owner (.into he hv hn hl)
  · rintro ⟨hown, hinside⟩ names owner hl
    cases hl with
    | here => exact hown
    | into he hv hn hl => exact hinside _ he _ hv _ hn _ _ hl

/-- `validateRequired` succeeds when no message of the tree lacks a required field. -/
theorem validateRequired_eq_ok_iff (message : DynamicMessage) :
    message.validateRequired = .ok () ↔ AllPresent message := by
  induction message using nested_induction with
  | step message ih =>
      rw [DynamicMessage.validateRequired_step, allPresent_step]
      refine and_congr_right (fun _ => ?_)
      constructor
      · exact fun h entry he value hv nested hn =>
          (ih entry he value hv nested hn).mp (h entry he value hv nested hn)
      · exact fun h entry he value hv nested hn =>
          (ih entry he value hv nested hn).mpr (h entry he value hv nested hn)

theorem missingRequiredFieldPath_eq_none_iff (message : DynamicMessage) :
    message.missingRequiredFieldPath = none ↔ AllPresent message := by
  induction message using nested_induction with
  | step message ih =>
      rw [DynamicMessage.missingRequiredFieldPath_step, allPresent_step]
      refine and_congr_right (fun _ => ?_)
      constructor
      · exact fun h entry he value hv nested hn =>
          (ih entry he value hv nested hn).mp (h entry he value hv nested hn)
      · exact fun h entry he value hv nested hn =>
          (ih entry he value hv nested hn).mpr (h entry he value hv nested hn)

/-- A path that is found leads to a missing field. -/
theorem missingAt_of_missingRequiredFieldPath (message : DynamicMessage) :
    ∀ path, message.missingRequiredFieldPath = some path → MissingAt message path := by
  induction message using nested_induction with
  | step message ih =>
      intro path h
      rcases DynamicMessage.missingRequiredFieldPath_cases h with
        ⟨field, hf, hl, rfl⟩ | ⟨entry, he, value, hv, nested, suffix, hn, hs, rfl⟩
      · obtain ⟨hr, ha⟩ := lacks_eq_true.mp hl
        exact ⟨[], message, .here message, field, hf, hr, ha, by simp⟩
      · obtain ⟨names, owner, hleads, field, hf, hr, ha, hpath⟩ := ih entry he value hv nested hn _ hs
        refine ⟨entry.descriptor.name :: names, owner, .into he hv hn hleads, field, hf, hr, ha, ?_⟩
        have hdot : ascii "." = [0x2e] := rfl
        rw [List.cons_append, Dotted.joined_cons (by simp), ← hpath, hdot]
        simp

/-- The two checks of required fields agree, and a path leads to a field that is missing. -/
theorem missingRequiredFieldPath_agrees (message : DynamicMessage) :
    (message.missingRequiredFieldPath = none ↔ message.validateRequired = .ok ())
      ∧ ∀ path, message.missingRequiredFieldPath = some path → MissingAt message path := by
  constructor
  · rw [missingRequiredFieldPath_eq_none_iff, validateRequired_eq_ok_iff]
  · exact missingAt_of_missingRequiredFieldPath message

end Pbz
