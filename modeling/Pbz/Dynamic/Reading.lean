import Pbz.Dynamic.Decode

set_option autoImplicit false

/-! # Reading apart from storing

What the decoder reads does not depend on what the message already holds: a pass of
`decodeStream` amounts to a list of actions on the message, read from the input and the
descriptor alone. `readField` is that reading and `decodePass_eq` the connection; `decodeStream_eq`
is the same for a whole stream. What follows is stated of the readings: how much of the input they
use, and that they do not look further.
-/

namespace Pbz

/-- One change that the decoder makes to a message. -/
inductive Action where
  | add (field : FieldDescriptor) (value : Value)
  | append (field : FieldDescriptor) (values : List Value)
  | unknown (unknown : List UnknownField)

namespace DynamicMessage

def act (message : DynamicMessage) : Action → DynamicMessage
  | .add field value => message.add field value
  | .append field values => message.appendValues field values
  | .unknown unknown => { message with unknownFields := message.unknownFields ++ unknown }

def actAll (message : DynamicMessage) (actions : List Action) : DynamicMessage :=
  actions.foldl act message

@[simp] theorem actAll_nil (message : DynamicMessage) : message.actAll [] = message := rfl

@[simp] theorem actAll_cons (message : DynamicMessage) (action : Action)
    (actions : List Action) :
    message.actAll (action :: actions) = (message.act action).actAll actions := rfl

theorem actAll_append (message : DynamicMessage) (a b : List Action) :
    message.actAll (a ++ b) = (message.actAll a).actAll b := List.foldl_append

end DynamicMessage

/-! ## Readings -/

/-- How a pass ended. -/
inductive Ending where
  | done (rest : Bytes)
  | next (rest : Bytes)
  | fail (e : Error)

/-- The actions of a pass and its end. -/
structure Reading where
  actions : List Action
  ending : Ending

/-- The pass on a message. -/
def Reading.into (reading : Reading) (message : DynamicMessage) : Pass :=
  match reading.ending with
  | .done rest => .done (message.actAll reading.actions) rest
  | .next rest => .next (message.actAll reading.actions) rest
  | .fail e => .fail (message.actAll reading.actions) e

/-- The reading that fails without an action. -/
def Reading.failed (e : Error) : Reading := { actions := [], ending := .fail e }

def Reading.ofValue (field : FieldDescriptor) (read : ReadResult Value) : Reading :=
  match read with
  | .error e => .failed e
  | .ok (value, rest) => { actions := [.add field value], ending := .next rest }

/-- A packed payload and what is read from it. -/
def Reading.ofPacked (input : Bytes) (packed : Bytes → List Action × Except Error Bytes) :
    Reading :=
  match readBytes input with
  | .error e => .failed e
  | .ok (payload, rest) =>
      match packed payload with
      | (actions, .error e) => { actions, ending := .fail e }
      | (actions, .ok _) => { actions, ending := .next rest }

def readPackedVarintScalar (field : FieldDescriptor) (scalar : ScalarType) (payload : Bytes) :
    List Action × Except Error Bytes :=
  if packsAsVarint scalar then
    let (values, result) := Loop.run (packedPass (decodeScalarLike (.scalar scalar))) [] payload
    ([.append field values], result)
  else ([], .error .typeMismatch)

def readPackedFixedWidth (field : FieldDescriptor) (scalar : ScalarType) (payload : Bytes) :
    List Action × Except Error Bytes :=
  match fixedWidthPackedScalarSize scalar with
  | none => ([], .error .typeMismatch)
  | some width =>
      if payload.length % width ≠ 0 then ([], .error .invalidWireType)
      else
        let count := payload.length / width
        ([.append field (fixedWidthValues scalar width count payload)], .ok [])

def readPackedEnum (field : FieldDescriptor) (enumeration : EnumDescriptor) (closed : Bool)
    (payload : Bytes) : List Action × Except Error Bytes :=
  let (state, result) := Loop.run (packedEnumPass field.number enumeration closed) {} payload
  ([.append field state.values, .unknown state.unknown], result)

def readPackedAdds (field : FieldDescriptor) (payload : Bytes) :
    List Action × Except Error Bytes :=
  let (values, result) := Loop.run (packedPass (decodeScalarLike field.kind)) [] payload
  (values.map (Action.add field), result)

section

variable (registry : Option Registry) (nested : Option StreamDecoder)
variable (nestedEntry : Option MapEntryDecoder)

def readMapField (file : FileDescriptor) (current : MessageDescriptor)
    (field : FieldDescriptor) (keyType : ScalarType) (valueKind : FieldKind) (tag : Tag)
    (input rest : Bytes) : Reading :=
  if tag.wireType ≠ .lengthDelimited then .failed .invalidWireType
  else match readBytes rest with
    | .error e => .failed e
    | .ok (payload, rest) =>
        match nestedEntry with
        | none => .failed .recursionLimitExceeded
        | some decodeEntry =>
            match decodeEntry file current field keyType valueKind payload with
            | .error e => .failed e
            | .ok none =>
                { actions := [.unknown [⟨tag.number, tag.wireType, consumed input rest⟩]],
                  ending := .next rest }
            | .ok (some value) => { actions := [.append field [value]], ending := .next rest }

def readEnumField (fieldFile : FileDescriptor) (field : FieldDescriptor)
    (enumeration : EnumDescriptor) (tag : Tag) (input rest : Bytes) : Reading :=
  let closed := enumIsClosed fieldFile registry enumeration
  if tag.wireType = .lengthDelimited ∧ field.cardinality = .repeated then
    .ofPacked rest (readPackedEnum field enumeration closed)
  else if tag.wireType ≠ .varint then .failed .invalidWireType
  else match readInt32 rest with
    | .error e => .failed e
    | .ok (value, rest) =>
        if closed && !enumHasNumber enumeration value then
          { actions := [.unknown [⟨tag.number, tag.wireType, consumed input rest⟩]],
            ending := .next rest }
        else { actions := [.add field (.enumeration value)], ending := .next rest }

def readOtherField (fieldFile : FileDescriptor) (current : MessageDescriptor)
    (field : FieldDescriptor) (tag : Tag) (rest : Bytes) : Reading :=
  if tag.wireType = .lengthDelimited ∧ field.isPackable = true then
    match field.kind with
    | .scalar scalar =>
        if (fixedWidthPackedScalarSize scalar).isSome then
          .ofPacked rest (readPackedFixedWidth field scalar)
        else .ofPacked rest (readPackedVarintScalar field scalar)
    | _ => .ofPacked rest (readPackedAdds field)
  else if tag.wireType ≠ field.kind.wireType then .failed .invalidWireType
  else .ofValue field (decodeValue registry nested fieldFile current field field.kind rest)

def readKnownField (file : FileDescriptor) (current : MessageDescriptor)
    (field : FieldDescriptor) (tag : Tag) (input rest : Bytes) : Reading :=
  let fieldFile := fieldDefiningFile file registry field
  if isDelimitedField registry fieldFile current field then
    if tag.wireType ≠ .startGroup then .failed .invalidWireType
    else .ofValue field (decodeDelimitedMessageValue registry nested fieldFile current field rest)
  else match field.kind with
    | .group _ =>
        if tag.wireType ≠ .startGroup then .failed .invalidWireType
        else .ofValue field (decodeGroupValue registry nested file current field rest)
    | .map keyType valueKind =>
        readMapField nestedEntry file current field keyType valueKind tag input rest
    | kind =>
        match registryEnumDescriptor fieldFile registry current kind with
        | some enumeration => readEnumField registry fieldFile field enumeration tag input rest
        | none => readOtherField registry nested fieldFile current field tag rest

def readMessageSetPayload (file : FileDescriptor) (current : MessageDescriptor) (number : Nat)
    (payload : Bytes) : Except Error Action :=
  match registryExtension registry current number with
  | none => do
      let raw ← writeBytes number payload
      return .unknown [⟨number, .lengthDelimited, raw⟩]
  | some field =>
      match field.kind with
      | .message name =>
          if field.cardinality = .repeated ∨ field.cardinality = .required then
            .error .typeMismatch
          else match nested with
            | none => .error .recursionLimitExceeded
            | some stream => do
                let value ← decodeMessagePayload registry stream file current name payload
                return .add field value
      | _ => .error .typeMismatch

def readMessageSetItem (levels : Nat) (file : FileDescriptor) (current : MessageDescriptor)
    (input : Bytes) : Reading :=
  match Loop.run (messageSetItemPass levels) {} input with
  | (_, .error e) => .failed e
  | ({ typeId := some number, payload := some payload }, .ok rest) =>
      match readMessageSetPayload registry nested file current number payload with
      | .error e => .failed e
      | .ok action => { actions := [action], ending := .next rest }
  | (_, .ok rest) => { actions := [], ending := .next rest }

end

/-- One pass of the loop of `decodeStream`, apart from the message. -/
def readField (registry : Option Registry) (levels : Nat) (nested : Option StreamDecoder)
    (nestedEntry : Option MapEntryDecoder)
    (nestedItem : Option (FileDescriptor → MessageDescriptor → Bytes → Reading))
    (file : FileDescriptor) (endGroup : Option Nat) (current : MessageDescriptor)
    (input : Bytes) : Reading :=
  match nextTag input with
  | .error e => .failed e
  | .ok none =>
      if endGroup.isSome then .failed .truncatedInput else { actions := [], ending := .done input }
  | .ok (some (tag, rest)) =>
      if tag.wireType = .endGroup then
        match endGroup with
        | some expected =>
            if tag.number ≠ expected then .failed .invalidFieldNumber
            else { actions := [], ending := .done rest }
        | none => .failed .invalidWireType
      else if current.messageSetWireFormat && tag.number == 1 && tag.wireType == .startGroup then
        match nestedItem with
        | none => .failed .recursionLimitExceeded
        | some readItem => readItem file current rest
      else match fieldForNumber registry current tag.number with
        | none =>
            match skipValue levels tag rest with
            | .error e => .failed e
            | .ok after =>
                { actions := [.unknown [⟨tag.number, tag.wireType, consumed input after⟩]],
                  ending := .next after }
        | some field => readKnownField registry nested nestedEntry file current field tag input rest

/-! ## A pass is its reading, stored -/

namespace DynamicMessage

theorem addOwned_eq_add (message : DynamicMessage) (field : FieldDescriptor) (value : Value) :
    message.addOwned field value = message.add field value := by
  rw [addOwned, add]
  cases message.mergeSingularMessageValue field value <;> rfl

theorem act_add (message : DynamicMessage) (field : FieldDescriptor) (values : List Value) :
    message.actAll (values.map (Action.add field)) = values.foldl (fun m v => m.add field v) message := by
  rw [actAll, List.foldl_map]
  rfl

end DynamicMessage

theorem storeRead_eq (message : DynamicMessage) (field : FieldDescriptor)
    (read : ReadResult Value) :
    storeRead message (message.addOwned field) read = (Reading.ofValue field read).into message := by
  cases read with
  | error e => rfl
  | ok p =>
      simp only [storeRead, Reading.ofValue, Reading.into, DynamicMessage.actAll_cons,
        DynamicMessage.actAll_nil, DynamicMessage.act, DynamicMessage.addOwned_eq_add]

theorem storePacked_eq (message : DynamicMessage) (input : Bytes)
    {append : Bytes → DynamicMessage × Except Error Bytes}
    {packed : Bytes → List Action × Except Error Bytes}
    (h : ∀ payload, append payload = (message.actAll (packed payload).1, (packed payload).2)) :
    storePacked message input append = (Reading.ofPacked input packed).into message := by
  rw [storePacked, Reading.ofPacked]
  cases readBytes input with
  | error e => rfl
  | ok p =>
      simp only [h]
      rcases packed p.1 with ⟨actions, _ | _⟩ <;> rfl

theorem addPackedFixedWidth_eq (message : DynamicMessage) (field : FieldDescriptor)
    (scalar : ScalarType) (payload : Bytes) :
    addPackedFixedWidth message field scalar payload
      = (message.actAll (readPackedFixedWidth field scalar payload).1,
          (readPackedFixedWidth field scalar payload).2) := by
  rw [addPackedFixedWidth, readPackedFixedWidth]
  cases fixedWidthPackedScalarSize scalar with
  | none => rfl
  | some width =>
      simp only
      split <;> rfl

theorem addPackedVarintScalar_eq (message : DynamicMessage) (field : FieldDescriptor)
    (scalar : ScalarType) (payload : Bytes) :
    addPackedVarintScalar message field scalar payload
      = (message.actAll (readPackedVarintScalar field scalar payload).1,
          (readPackedVarintScalar field scalar payload).2) := by
  rw [addPackedVarintScalar, readPackedVarintScalar]
  split <;> rfl

theorem addPackedEnum_eq (message : DynamicMessage) (field : FieldDescriptor)
    (enumeration : EnumDescriptor) (closed : Bool) (payload : Bytes) :
    addPackedEnum message field enumeration closed payload
      = (message.actAll (readPackedEnum field enumeration closed payload).1,
          (readPackedEnum field enumeration closed payload).2) := rfl

/-- Adding packed values one by one is adding the list of them. -/
theorem packedAddPass_run (message : DynamicMessage) (field : FieldDescriptor)
    (payload : Bytes) :
    Loop.run (packedAddPass field) message payload
      = (message.actAll (readPackedAdds field payload).1, (readPackedAdds field payload).2) := by
  have hstep : ∀ (values : List Value) (xs : Bytes),
      packedAddPass field (values.foldl (fun m v => m.add field v) message) xs
        = (packedPass (decodeScalarLike field.kind) values xs).map
            (fun values => values.foldl (fun m v => m.add field v) message) := by
    intro values xs
    rw [packedAddPass, packedPass]
    split
    · rfl
    · cases decodeScalarLike field.kind xs with
      | error e => rfl
      | ok p => simp only [Loop.Step.map, List.foldl_append, List.foldl_cons, List.foldl_nil]
  have key := Loop.run_map _ hstep [] payload
  rw [List.foldl_nil] at key
  rw [key, readPackedAdds, DynamicMessage.act_add]

section

variable (registry : Option Registry) (nested : Option StreamDecoder)
variable (nestedEntry : Option MapEntryDecoder)

theorem decodeMapField_eq (file : FileDescriptor) (message : DynamicMessage)
    (field : FieldDescriptor) (keyType : ScalarType) (valueKind : FieldKind) (tag : Tag)
    (input rest : Bytes) :
    decodeMapField nestedEntry file message field keyType valueKind tag input rest
      = (readMapField nestedEntry file message.descriptor field keyType valueKind tag input
          rest).into message := by
  rw [decodeMapField, readMapField]
  split
  · rfl
  · cases readBytes rest with
    | error e => rfl
    | ok p =>
        cases nestedEntry with
        | none => rfl
        | some decodeEntry =>
            simp only
            cases decodeEntry file message.descriptor field keyType valueKind p.1 with
            | error e => rfl
            | ok value => cases value <;> rfl

theorem decodeEnumField_eq (fieldFile : FileDescriptor) (message : DynamicMessage)
    (field : FieldDescriptor) (enumeration : EnumDescriptor) (tag : Tag) (input rest : Bytes) :
    decodeEnumField registry fieldFile message field enumeration tag input rest
      = (readEnumField registry fieldFile field enumeration tag input rest).into message := by
  rw [decodeEnumField, readEnumField]
  split
  · exact storePacked_eq _ _ (addPackedEnum_eq message field enumeration _)
  · split
    · rfl
    · cases readInt32 rest with
      | error e => rfl
      | ok p =>
          simp only
          split <;> rfl

theorem decodeOtherField_eq (fieldFile : FileDescriptor) (message : DynamicMessage)
    (field : FieldDescriptor) (tag : Tag) (rest : Bytes) :
    decodeOtherField registry nested fieldFile message field tag rest
      = (readOtherField registry nested fieldFile message.descriptor field tag rest).into
          message := by
  rw [decodeOtherField, readOtherField]
  split
  · cases field.kind with
    | scalar scalar =>
        simp only
        split
        · exact storePacked_eq _ _ (addPackedFixedWidth_eq message field _)
        · exact storePacked_eq _ _ (addPackedVarintScalar_eq message field _)
    | _ => exact storePacked_eq _ _ (packedAddPass_run message field)
  · split
    · rfl
    · exact storeRead_eq _ _ _

theorem decodeKnownField_eq (file : FileDescriptor) (message : DynamicMessage)
    (field : FieldDescriptor) (tag : Tag) (input rest : Bytes) :
    decodeKnownField registry nested nestedEntry file message field tag input rest
      = (readKnownField registry nested nestedEntry file message.descriptor field tag input
          rest).into message := by
  rw [decodeKnownField, readKnownField]
  split
  · split
    · rfl
    · exact storeRead_eq _ _ _
  · cases field.kind with
    | group name =>
        simp only
        split
        · rfl
        · exact storeRead_eq _ _ _
    | map keyType valueKind => exact decodeMapField_eq _ _ _ _ _ _ _ _ _
    | _ =>
        simp only
        cases registryEnumDescriptor (fieldDefiningFile file registry field) registry
            message.descriptor _ with
        | none => exact decodeOtherField_eq _ _ _ _ _ _ _
        | some enumeration => exact decodeEnumField_eq _ _ _ _ _ _ _ _

theorem decodeMessageSetItem_eq (levels : Nat) (file : FileDescriptor)
    (message : DynamicMessage) (input : Bytes) :
    decodeMessageSetItem registry nested levels file message input
      = (readMessageSetItem registry nested levels file message.descriptor input).into
          message := by
  have hpayload : ∀ number payload,
      addMessageSetPayload registry nested file message number payload
        = (readMessageSetPayload registry nested file message.descriptor number payload).map
            message.act := by
    intro number payload
    rw [addMessageSetPayload, readMessageSetPayload]
    cases registryExtension registry message.descriptor number with
    | none =>
        simp only
        cases writeBytes number payload <;> rfl
    | some field =>
        simp only
        cases field.kind with
        | message name =>
            simp only
            split
            · rfl
            · cases nested with
              | none => rfl
              | some stream =>
                  simp only [DynamicMessage.addOwned_eq_add]
                  cases decodeMessagePayload registry stream file message.descriptor name payload <;>
                    rfl
        | _ => rfl
  rw [decodeMessageSetItem, readMessageSetItem]
  rcases Loop.run (messageSetItemPass levels) {} input with ⟨⟨typeId, payload⟩, _ | rest⟩
  · rfl
  · cases typeId with
    | none => rfl
    | some number =>
        cases payload with
        | none => rfl
        | some payload =>
            simp only [hpayload]
            cases readMessageSetPayload registry nested file message.descriptor number payload <;>
              rfl

/-- Items are read apart from the message, one level down. -/
def ItemsAgree
    (nestedItem : Option (FileDescriptor → DynamicMessage → Bytes → Pass))
    (readItem : Option (FileDescriptor → MessageDescriptor → Bytes → Reading)) : Prop :=
  (nestedItem = none ∧ readItem = none)
    ∨ ∃ decode read, nestedItem = some decode ∧ readItem = some read
      ∧ ∀ file message input, decode file message input = (read file message.descriptor input).into message

theorem decodePass_eq (levels : Nat)
    {nestedItem : Option (FileDescriptor → DynamicMessage → Bytes → Pass)}
    {readItem : Option (FileDescriptor → MessageDescriptor → Bytes → Reading)}
    (hitem : ItemsAgree nestedItem readItem) (file : FileDescriptor) (endGroup : Option Nat)
    (message : DynamicMessage) (input : Bytes) :
    decodePass registry levels nested nestedEntry nestedItem file endGroup message input
      = (readField registry levels nested nestedEntry readItem file endGroup message.descriptor
          input).into message := by
  rw [decodePass, readField]
  cases nextTag input with
  | error e => rfl
  | ok next =>
      cases next with
      | none => simp only; split <;> rfl
      | some p =>
          simp only
          split
          · cases endGroup with
            | none => rfl
            | some expected => simp only; split <;> rfl
          · split
            · rcases hitem with ⟨rfl, rfl⟩ | ⟨decode, read, rfl, rfl, h⟩
              · rfl
              · exact h _ _ _
            · cases fieldForNumber registry message.descriptor p.1.number with
              | none =>
                  simp only
                  cases skipValue levels p.1 p.2 <;> rfl
              | some field => exact decodeKnownField_eq _ _ _ _ _ _ _ _ _

end

/-- `readMessageSetItem` on a reader that may still descend `levels` times. -/
def nestedReadItem (registry : Option Registry) :
    Nat → Option (FileDescriptor → MessageDescriptor → Bytes → Reading)
  | 0 => none
  | levels + 1 => some (readMessageSetItem registry (nestedStream registry levels) levels)

theorem nestedReadItem_agrees (registry : Option Registry) (levels : Nat) :
    ItemsAgree (nestedMessageSetItem registry levels) (nestedReadItem registry levels) := by
  cases levels with
  | zero => exact Or.inl ⟨rfl, rfl⟩
  | succ levels => exact Or.inr ⟨_, _, rfl, rfl, decodeMessageSetItem_eq _ _ _⟩

/-- `readField` on a reader that may still descend `levels` times. -/
def readFieldAt (registry : Option Registry) (levels : Nat) (file : FileDescriptor)
    (endGroup : Option Nat) (current : MessageDescriptor) (input : Bytes) : Reading :=
  readField registry levels (nestedStream registry levels) (nestedMapEntry registry levels)
    (nestedReadItem registry levels) file endGroup current input

/-- One pass of the loop of `readStream`, which collects the actions. -/
def readPass (registry : Option Registry) (levels : Nat) (file : FileDescriptor)
    (endGroup : Option Nat) (current : MessageDescriptor) (actions : List Action)
    (input : Bytes) : Loop.Step UInt8 (List Action) Error :=
  let reading := readFieldAt registry levels file endGroup current input
  match reading.ending with
  | .done rest => .done (actions ++ reading.actions) rest
  | .next rest => .next (actions ++ reading.actions) rest
  | .fail e => .fail (actions ++ reading.actions) e

/-- The actions of a whole stream, and what is left of the input. -/
def readStream (registry : Option Registry) (levels : Nat) (file : FileDescriptor)
    (endGroup : Option Nat) (current : MessageDescriptor) (input : Bytes) :
    List Action × Except Error Bytes :=
  Loop.run (readPass registry levels file endGroup current) [] input

/-- What holds of the actions of every pass holds of the actions of the stream. -/
theorem readStream_forall {registry : Option Registry} {levels : Nat} {file : FileDescriptor}
    {endGroup : Option Nat} {current : MessageDescriptor} {Q : Action → Prop}
    (h : ∀ xs, ∀ action ∈ (readFieldAt registry levels file endGroup current xs).actions, Q action)
    (input : Bytes) :
    ∀ action ∈ (readStream registry levels file endGroup current input).1, Q action := by
  refine Loop.run_invariant (fun actions => ∀ action ∈ actions, Q action)
    (fun actions xs hactions => ?_) [] input (by simp)
  have happend := List.forall_mem_append.mpr ⟨hactions, h xs⟩
  rw [readPass]
  cases (readFieldAt registry levels file endGroup current xs).ending <;> exact happend

theorem mergeSingularMessageValue_descriptor {message merged : DynamicMessage}
    {field : FieldDescriptor} {value : Value}
    (h : message.mergeSingularMessageValue field value = some merged) :
    merged.descriptor = message.descriptor := by
  cases value <;> simp only [DynamicMessage.mergeSingularMessageValue, reduceCtorEq] at h
  all_goals
    split at h
    · simp only [Option.some.injEq] at h
      rw [← h]
      rfl
    · simp at h

theorem insert_descriptor (message : DynamicMessage) (field : FieldDescriptor) (value : Value) :
    (message.insert field value).descriptor = message.descriptor := by
  rw [DynamicMessage.insert, DynamicMessage.leaveOneof]
  cases field.oneofName <;> rfl

theorem add_descriptor (message : DynamicMessage) (field : FieldDescriptor) (value : Value) :
    (message.add field value).descriptor = message.descriptor := by
  rw [DynamicMessage.add]
  cases h : message.mergeSingularMessageValue field value with
  | none => exact insert_descriptor message field value
  | some merged => exact mergeSingularMessageValue_descriptor h

theorem act_descriptor (message : DynamicMessage) (action : Action) :
    (message.act action).descriptor = message.descriptor := by
  cases action with
  | add field value => exact add_descriptor message field value
  | append field values =>
      simp only [DynamicMessage.act, DynamicMessage.appendValues, DynamicMessage.leaveOneof]
      cases field.oneofName <;> rfl
  | unknown unknown => rfl

@[simp] theorem actAll_descriptor (message : DynamicMessage) (actions : List Action) :
    (message.actAll actions).descriptor = message.descriptor := by
  induction actions generalizing message with
  | nil => rfl
  | cons action actions ih => rw [DynamicMessage.actAll_cons, ih, act_descriptor]

/-- A decoded stream is its reading, stored. -/
theorem decodeStream_eq (registry : Option Registry) (levels : Nat) (file : FileDescriptor)
    (message : DynamicMessage) (endGroup : Option Nat) (input : Bytes) :
    decodeStream registry levels file message endGroup input
      = (message.actAll (readStream registry levels file endGroup message.descriptor input).1,
          (readStream registry levels file endGroup message.descriptor input).2) := by
  have hstep : ∀ (actions : List Action) (xs : Bytes),
      decodePass registry levels (nestedStream registry levels) (nestedMapEntry registry levels)
          (nestedMessageSetItem registry levels) file endGroup (message.actAll actions) xs
        = (readPass registry levels file endGroup message.descriptor actions xs).map
            message.actAll := by
    intro actions xs
    rw [decodePass_eq registry _ _ levels (nestedReadItem_agrees registry levels), actAll_descriptor,
      readPass, Reading.into, readFieldAt]
    simp only [← DynamicMessage.actAll_append]
    split <;> rfl
  exact Loop.run_map message.actAll hstep [] input

/-- A nested stream is the stream one level down. -/
theorem nestedStream_succ (registry : Option Registry) (levels : Nat) :
    nestedStream registry (levels + 1) = some (decodeStream registry levels) := rfl

end Pbz
