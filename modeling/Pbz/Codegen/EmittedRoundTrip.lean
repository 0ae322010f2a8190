import Pbz.Codegen.CapacityEncode
import Pbz.Codegen.NestedReadBack

set_option autoImplicit false

/-! # The emitted codec round trips

`decode` of what `writeTo` writes is the value that was written (`decodeEmitted_writeTo`), for the
values that an emitted decoder can return from such bytes (`MessageRestorable`).
-/

namespace Pbz

namespace Codegen

/-! ## Values that are read back -/

/-- A scalar or an enum is written: its flag is set or, without a flag, it is not the default. -/
def isSet (file : FileDescriptor) (field : FieldDescriptor) (own : Member) : Bool :=
  if hasPresence file field then own.has else defaultSkipCondition own.value

section

variable (demands : List Demand) (s : GeneratedStruct) (field : FieldDescriptor)
  (initial own : Member)

/-- What a map may hold: each key once. -/
def MapMemberRestorable (key : ScalarType) (kind : FieldKind) : Prop :=
  own = { initial with entries := own.entries }
    ∧ (∀ entry ∈ own.entries, EntryRestorable demands s field key kind entry)
    ∧ own.entries.Pairwise (fun a b => sameKey a b = false)

/-- What the member of a message or a group may hold. -/
def MessageMemberRestorable : Prop :=
  if field.cardinality == .repeated then
    own = { initial with items := own.items }
      ∧ ∀ item ∈ own.items, ElementRestorable demands s.file field (s.typedRepeated field) item
  else match s.typedSingular field with
    | some t =>
        own = { initial with nested := own.nested }
          ∧ ∀ message ∈ own.nested, NestedRestorable demands t message
            ∧ (field.kind.isGroup = false → HasExactSize t message)
    | none =>
        if own.has then
          own = { initial with has := true, payload := own.payload }
            ∧ KeptRestorable s.file demands.length field own.payload
        else own = initial

/-- What the member of a scalar or an enum may hold. -/
def PlainMemberRestorable : Prop :=
  if field.cardinality == .repeated then
    own = { initial with items := own.items }
      ∧ ∃ values : List Value, own.items = values.map .value
        ∧ ∀ value ∈ values, ValueRestorable s.file field field.kind value
  else if isSet s.file field own then
    own = { initial with value := own.value, has := hasPresence s.file field }
      ∧ ValueRestorable s.file field field.kind own.value
  else own = initial

/-- What a struct may hold for one field. What its kind does not use is as `init` leaves it
(`initial`), and so is all of it where nothing is written. -/
def MemberRestorable : Prop :=
  match field.kind with
  | .map key kind => MapMemberRestorable demands s field initial own key kind
  | .message _ | .group _ => MessageMemberRestorable demands s field initial own
  | .scalar _ | .enumeration _ => PlainMemberRestorable s field initial own

end

section

variable (explicitDefault : FieldKind → OptionValue → Option Value)

/-- The values that the decoder can return from the bytes that are written for them; `demands` are
what is asked of the messages of the levels below. -/
structure MessageRestorable (below : List EmittedDecoder) (demands : List Demand)
    (s : GeneratedStruct) (message : EmittedMessage) : Prop where
  declared : s.WellDeclared
  own : ∀ field ∈ s.ownFields, MemberRestorable demands s field
    ((initMessage explicitDefault s).member field.number) (message.member field.number)
  others : ∀ number, number ∉ s.ownFields.map FieldDescriptor.number →
    message.member number = (initMessage explicitDefault s).member number
  oneofs : ∀ oneof ∈ s.message.oneofs, ∀ number element,
    message.oneof oneof.name = some (number, element) →
      ∃ field, oneofField s oneof number = some field
        ∧ ElementRestorable demands s.file field (s.typedOneof field) element
  otherOneofs : ∀ name, name ∉ s.message.oneofs.map OneofDescriptor.name →
    message.oneof name = none
  /-- Each unknown field is one that the decoder keeps. -/
  unknownFields : ∀ raw ∈ message.unknownFields,
    readMember explicitDefault s below raw = .ok (some (.keep raw, [])) ∧ IsField below.length raw

/-- What is asked of the messages of the levels below a reader. -/
def demandsBelow : Nat → List Demand
  | 0 => []
  | levels + 1 =>
      MessageRestorable explicitDefault (decodersBelow explicitDefault levels) (demandsBelow levels)
        :: demandsBelow levels

end

/-! ## Storing what was read -/

section

variable {explicitDefault : FieldKind → OptionValue → Option Value} {s : GeneratedStruct}
  {below : List EmittedDecoder} {field : FieldDescriptor} {spare : Nat → Nat}
  {demands : List Demand} {initial own : Member} {actions : List MemberAction}

/-- The actions make a member what it was when it was written. -/
def Stores (s : GeneratedStruct) (number : Nat) (initial : Member) (actions : List MemberAction)
    (own : Member) : Prop :=
  ∀ self : EmittedMessage, self.member number = initial →
    self.actAll s actions = .ok { self with member := Function.update self.member number own }

theorem Stores.nil {number : Nat} : Stores s number initial [] initial := by
  intro self hself
  rw [EmittedMessage.actAll, ← hself, Function.update_eq_self]
  cases self
  rfl

/-- Actions that change a member one after the other. -/
theorem stores_map {α : Type} {number : Nat} {make : α → MemberAction} {step : Member → α → Member}
    (h : ∀ x (self : EmittedMessage), self.act s (make x) = .ok { self with
      member := Function.update self.member number (step (self.member number) x) })
    (xs : List α) : Stores s number initial (xs.map make) (xs.foldl step initial) := by
  induction xs generalizing initial with
  | nil => exact .nil
  | cons x xs ih =>
      intro self hself
      rw [List.map_cons, List.foldl_cons, EmittedMessage.actAll, h x self]
      simp only
      rw [hself, ih _ (Function.update_self ..)]
      simp only [Function.update_idem]

theorem stores_single {number : Nat} {action : MemberAction}
    (h : ∀ self : EmittedMessage, self.member number = initial → self.act s action
      = .ok { self with member := Function.update self.member number own }) :
    Stores s number initial [action] own := by
  intro self hself
  rw [EmittedMessage.actAll, h self hself]
  rfl

theorem stores_append (items : List Element) :
    Stores s field.number initial [.append field items []]
      { initial with items := initial.items ++ items } :=
  stores_single fun self hself => by
    simp only [EmittedMessage.act, EmittedMessage.changeMember, hself, List.append_nil]

theorem stores_items (items : List Element) :
    Stores s field.number initial (items.map (fun item => .append field [item] []))
      { initial with items := initial.items ++ items } := by
  have hstep := @stores_map s initial _ field.number (fun item => .append field [item] [])
    (fun own item => { own with items := own.items ++ [item] })
    (fun item self => by
      simp only [EmittedMessage.act, EmittedMessage.changeMember, List.append_nil]) items
  have hfold : ∀ (items : List Element) (own : Member),
      items.foldl (fun own item => { own with items := own.items ++ [item] }) own
        = { own with items := own.items ++ items } := by
    intro items
    induction items with
    | nil => intro own; cases own; simp only [List.foldl_nil, List.append_nil]
    | cons item rest ih =>
        intro own
        rw [List.foldl_cons, ih]
        simp only [List.append_assoc, List.singleton_append]
  rwa [hfold] at hstep

theorem stores_entries (entries : List (Value × Element)) :
    Stores s field.number initial (entries.map (.put field))
      { initial with entries := entries.foldl putMapEntry initial.entries } := by
  have hstep := @stores_map s initial _ field.number (.put field)
    (fun own entry => { own with entries := putMapEntry own.entries entry })
    (fun entry self => rfl) entries
  have hfold : ∀ (entries : List (Value × Element)) (own : Member),
      entries.foldl (fun own entry => { own with entries := putMapEntry own.entries entry }) own
        = { own with entries := entries.foldl putMapEntry own.entries } := by
    intro entries
    induction entries with
    | nil => intro own; cases own; rfl
    | cons entry rest ih =>
        intro own
        rw [List.foldl_cons, ih, List.foldl_cons]
  rwa [hfold] at hstep

/-! ## One field of a struct -/

theorem foldItems_eq_map {ρ : Type} (f : Layer ρ → ρ) (items : List Element) :
    foldItems f items = items.map (Element.fold f) := by
  induction items with
  | nil => rfl
  | cons item rest ih => rw [foldItems, ih, List.map_cons]

theorem foldEntries_eq_map {ρ : Type} (f : Layer ρ → ρ) (entries : List (Value × Element)) :
    foldEntries f entries = entries.map (fun entry => (entry.1, entry.2.fold f)) := by
  induction entries with
  | nil => rfl
  | cons entry rest ih => rw [foldEntries, ih, List.map_cons]

/-- What is written for a field is read back and stored again. -/
def FieldRestored (explicitDefault : FieldKind → OptionValue → Option Value) (spare : Nat → Nat)
    (below : List EmittedDecoder) (s : GeneratedStruct) (field : FieldDescriptor)
    (own : Member) : Prop :=
  ∃ actions,
    ReadAs explicitDefault s below (writeEncodeField EncodeMethods.encodedSize s field
      (own.fold (encodeMethods spare))) actions
    ∧ Stores s field.number ((initMessage explicitDefault s).member field.number) actions own

theorem FieldRestored.nothing
    (hprogram : writeEncodeField EncodeMethods.encodedSize s field (own.fold (encodeMethods spare))
      = [])
    (hown : own = (initMessage explicitDefault s).member field.number) :
    FieldRestored explicitDefault spare below s field own :=
  ⟨[], by rw [hprogram]; exact .nil, by rw [hown]; exact .nil⟩

theorem isWritten_fold {ρ : Type} (f : Layer (GeneratedStruct → ρ) → GeneratedStruct → ρ)
    (own : Member) : isWritten s field (own.fold f) = isSet s.file field own := by
  cases own
  rfl

theorem storeValue_own (hnone : field.oneofName = none) (hsingle : field.cardinality ≠ .repeated)
    (value : Value) : storeValue field value = .set field value := by
  rw [storeValue, if_neg (by simpa using hsingle), hnone]

/-- What is written for a scalar or an enum. -/
theorem writeEncodeField_plain
    (hkind : (∃ scalar, field.kind = .scalar scalar) ∨ ∃ name, field.kind = .enumeration name) :
    writeEncodeField EncodeMethods.encodedSize s field (own.fold (encodeMethods spare))
      = if field.cardinality == .repeated then
          if hpacked : field.resolvedPacked s.file = true then
            if (foldItems (encodeMethods spare) own.items).isEmpty then []
            else writePacked s field hpacked
              ((foldItems (encodeMethods spare) own.items).filterMap itemValue)
          else (foldItems (encodeMethods spare) own.items).flatMap
            (writeElement EncodeMethods.encodedSize s field none true)
        else if isSet s.file field own then writeValue s field own.value else [] := by
  rw [← isWritten_fold (encodeMethods spare)]
  cases own
  obtain ⟨scalar, hkind⟩ | ⟨name, hkind⟩ := hkind
  · simp only [writeEncodeField, hkind]
    rfl
  · simp only [writeEncodeField, hkind]
    rfl

/-- Scalars and enums. -/
theorem plainField_restored (hs : s.WellDeclared) (hmem : field ∈ s.message.fields)
    (hnone : field.oneofName = none)
    (hkind : (∃ scalar, field.kind = .scalar scalar) ∨ ∃ name, field.kind = .enumeration name)
    (h : PlainMemberRestorable s field ((initMessage explicitDefault s).member field.number) own) :
    FieldRestored explicitDefault spare below s field own := by
  have hprogram := @writeEncodeField_plain s field spare own hkind
  rw [PlainMemberRestorable] at h
  by_cases hrepeated : field.cardinality = .repeated
  · simp only [hrepeated, beq_self_eq_true, if_true] at hprogram h
    obtain ⟨hown, values, hitems, hvalues⟩ := h
    rw [hitems] at hown
    have hfold : foldItems (encodeMethods spare) own.items = values.map .value := by
      rw [hitems, foldItems_eq_map, List.map_map]
      rfl
    rw [hfold] at hprogram
    by_cases hpacked : field.resolvedPacked s.file = true
    · rw [dif_pos hpacked] at hprogram
      cases values with
      -- An empty packed field is not written.
      | nil => exact .nothing hprogram hown
      | cons value rest =>
          have hfilter : ((value :: rest).map
              (@Held.value (GeneratedStruct → EncodeMethods))).filterMap itemValue
                = value :: rest := by
            rw [List.filterMap_map]
            exact List.filterMap_some
          rw [hfilter] at hprogram
          refine ⟨_, by rw [hprogram]; exact writePacked_readAs hs hmem hpacked hvalues, ?_⟩
          rw [hown]
          exact stores_append _
    · rw [dif_neg hpacked, List.flatMap_map] at hprogram
      refine ⟨(values.map .value).map (fun item => .append field [item] []), ?_, ?_⟩
      · rw [hprogram, List.map_map]
        refine ReadAs.flatMap fun value hvalue => ?_
        have hstore : storeValue field value = .append field [.value value] [] := by
          rw [storeValue, hrepeated]
          rfl
        have hread := @writeValue_readAs explicitDefault s below field hs hmem value
          (hvalues value hvalue)
        rw [hstore] at hread
        exact hread
      · rw [hown]
        exact stores_items _
  · have hsingle : (field.cardinality == .repeated) = false := by simpa using hrepeated
    simp only [hsingle, Bool.false_eq_true, if_false] at hprogram h
    by_cases hset : isSet s.file field own = true
    · rw [if_pos hset] at hprogram h
      obtain ⟨hown, hvalue⟩ := h
      refine ⟨_, by rw [hprogram]; exact writeValue_readAs hs hmem hvalue, ?_⟩
      rw [storeValue_own hnone hrepeated]
      refine stores_single fun self hself => ?_
      have hhas : (self.member field.number).has = false := by rw [hself]; rfl
      rw [EmittedMessage.act, EmittedMessage.changeMember, hhas, hself]
      conv_rhs => rw [hown]
      cases hasPresence s.file field <;> rfl
    · rw [if_neg hset] at hprogram h
      exact .nothing hprogram h

/-- Maps. -/
theorem mapField_restored (hs : s.WellDeclared) (hmem : field ∈ s.message.fields)
    (hup : Upheld spare below demands) {key : ScalarType} {kind : FieldKind}
    (hkind : field.kind = .map key kind)
    (h : MapMemberRestorable demands s field
      ((initMessage explicitDefault s).member field.number) own key kind) :
    FieldRestored explicitDefault spare below s field own := by
  have hprogram : writeEncodeField EncodeMethods.encodedSize s field
      (own.fold (encodeMethods spare))
        = own.entries.flatMap (fun entry => writeMapEntry EncodeMethods.encodedSize s field key kind
            (entry.1, entry.2.fold (encodeMethods spare))) := by
    cases own
    simp only [writeEncodeField, hkind, Member.fold, foldEntries_eq_map, List.flatMap_map]
  obtain ⟨hown, hentries, hkeys⟩ := h
  refine ⟨own.entries.map (.put field), ?_, ?_⟩
  · rw [hprogram]
    exact ReadAs.flatMap fun entry hentry =>
      writeMapEntry_readAs hs hmem hup hkind (hentries entry hentry)
  · have hstores := @stores_entries s field
      ((initMessage explicitDefault s).member field.number) own.entries
    have hput : own.entries.foldl putMapEntry [] = own.entries :=
      Upsert.foldl_assign_of_pairwise hkeys
    have hempty : ((initMessage explicitDefault s).member field.number).entries = [] := rfl
    rw [hempty, hput, ← hown] at hstores
    exact hstores

theorem nestedTypeName_of_typedSingular {t : GeneratedStruct} (h : s.typedSingular field = some t) :
    ∃ name, nestedTypeName s.file field = some name := by
  obtain ⟨name, htyped, -⟩ := Option.bind_eq_some_iff.mp h
  rw [CodegenContext.typedSingularMessageField] at htyped
  split at htyped
  · cases htyped
  · exact ⟨name, (CodegenContext.typedLengthPrefixedOrGroupField_eq_some.mp htyped).1⟩

theorem nestedTypeName_of_typedRepeated (h : (s.typedRepeated field).isSome = true) :
    ∃ name, nestedTypeName s.file field = some name := by
  obtain ⟨t, h⟩ := Option.isSome_iff_exists.mp h
  obtain ⟨name, htyped, -⟩ := Option.bind_eq_some_iff.mp h
  rw [CodegenContext.typedRepeatedMessageField] at htyped
  split at htyped
  · cases htyped
  · exact ⟨name, (CodegenContext.typedLengthPrefixedOrGroupField_eq_some.mp htyped).1⟩

theorem nestedTypeName_of_typedOneof (h : (s.typedOneof field).isSome = true) :
    ∃ name, nestedTypeName s.file field = some name := by
  obtain ⟨t, h⟩ := Option.isSome_iff_exists.mp h
  obtain ⟨name, htyped, -⟩ := Option.bind_eq_some_iff.mp h
  rw [CodegenContext.typedOneofMessageField] at htyped
  split at htyped
  · cases htyped
  · exact ⟨name, (CodegenContext.typedLengthPrefixedOrGroupField_eq_some.mp htyped).1⟩

/-- What is written for a message or a group. -/
theorem writeEncodeField_message (hkind : IsMessageField field) :
    writeEncodeField EncodeMethods.encodedSize s field (own.fold (encodeMethods spare))
      = if field.cardinality == .repeated then
          own.items.flatMap (fun item => writeElement EncodeMethods.encodedSize s field
            (s.typedRepeated field) true (item.fold (encodeMethods spare)))
        else match s.typedSingular field with
          | some t => own.nested.toList.flatMap (fun message =>
              writeTyped EncodeMethods.encodedSize field (message.methods spare t))
          | none => if own.has then writeKept s field true own.payload else [] := by
  obtain ⟨value, has, payload, nested, items, entries⟩ := own
  have hnested : ∀ t : GeneratedStruct,
      (foldNested (encodeMethods spare) nested).toList.flatMap
          (fun message => writeTyped EncodeMethods.encodedSize field (message t))
        = nested.toList.flatMap (fun message =>
          writeTyped EncodeMethods.encodedSize field (message.methods spare t)) := by
    intro t
    cases nested <;> rfl
  obtain ⟨name, hkind | hkind⟩ := hkind
  all_goals
    cases htyped : s.typedSingular field with
    | none =>
        simp only [writeEncodeField, hkind, htyped, Member.fold, foldItems_eq_map,
          List.flatMap_map]
    | some t =>
        simp only [writeEncodeField, hkind, htyped, Member.fold, foldItems_eq_map,
          List.flatMap_map, hnested]

/-- Repeated messages and groups. -/
theorem repeatedMessage_restored (hs : s.WellDeclared) (hmem : field ∈ s.message.fields)
    (hup : Upheld spare below demands) (hkind : IsMessageField field)
    (hrepeated : (field.cardinality == .repeated) = true)
    (h : MessageMemberRestorable demands s field
      ((initMessage explicitDefault s).member field.number) own) :
    FieldRestored explicitDefault spare below s field own := by
  have hprogram := @writeEncodeField_message s field spare own hkind
  rw [if_pos hrepeated] at hprogram
  rw [MessageMemberRestorable, if_pos hrepeated] at h
  obtain ⟨hown, hitems⟩ := h
  refine ⟨own.items.map (fun item => .append field [item] []), ?_, ?_⟩
  · rw [hprogram]
    refine ReadAs.flatMap fun item hitem => ?_
    refine @writeElement_readAs explicitDefault s below field spare demands hs hmem hup
      (s.typedRepeated field) nestedTypeName_of_typedRepeated
      (fun item => .append field [item] []) ?_ ?_ true item (hitems item hitem)
    · intro value
      rw [storeValue, if_pos hrepeated]
    · intro payload
      rw [storeMessage, if_pos hrepeated]
  · have hstores := @stores_items s field
      ((initMessage explicitDefault s).member field.number) own.items
    have hempty : ((initMessage explicitDefault s).member field.number).items = [] := rfl
    rw [hempty, List.nil_append, ← hown] at hstores
    exact hstores

/-- Messages and groups with one value. -/
theorem singularMessage_restored (hs : s.WellDeclared) (hmem : field ∈ s.message.fields)
    (hup : Upheld spare below demands) (hkind : IsMessageField field)
    (hnone : field.oneofName = none) (hsingle : ¬ (field.cardinality == .repeated) = true)
    (h : MessageMemberRestorable demands s field
      ((initMessage explicitDefault s).member field.number) own) :
    FieldRestored explicitDefault spare below s field own := by
  have hprogram := @writeEncodeField_message s field spare own hkind
  have hstore : ∀ payload, storeMessage s below field payload
      = match s.typedSingular field with
        | some t => (decodeNested below t payload).map (.merge field t)
        | none => .ok (.join field payload) := by
    intro payload
    cases htyped : s.typedSingular field with
    | none => simp only [storeMessage, if_neg hsingle, hnone, htyped]
    | some t => simp only [storeMessage, if_neg hsingle, hnone, htyped]
  rw [if_neg hsingle] at hprogram
  rw [MessageMemberRestorable, if_neg hsingle] at h
  cases htyped : s.typedSingular field with
  | some t =>
      simp only [htyped] at hstore hprogram h
      obtain ⟨hown, hnested⟩ := h
      cases hmessage : own.nested with
      | none =>
          rw [hmessage] at hprogram hown
          exact .nothing hprogram hown
      | some message =>
          rw [hmessage] at hprogram hown hnested
          obtain ⟨hrestorable, hexact⟩ := hnested message rfl
          obtain ⟨name, hname⟩ := nestedTypeName_of_typedSingular htyped
          refine ⟨[.merge field t message], ?_, stores_single fun self hself => ?_⟩
          · rw [hprogram, Option.toList_some, List.flatMap_cons, List.flatMap_nil, List.append_nil]
            refine writeTyped_readAs hs hmem hup hname hrestorable hexact fun body hbody => ?_
            rw [hstore, hbody]
            rfl
          · rw [EmittedMessage.act, EmittedMessage.changeMember, hself]
            conv_rhs => rw [hown]
            rfl
  | none =>
      simp only [htyped] at hstore hprogram h
      by_cases hhas : own.has = true
      · rw [if_pos hhas] at hprogram h
        obtain ⟨hown, hkept⟩ := h
        refine ⟨[.join field own.payload], ?_, stores_single fun self hself => ?_⟩
        · rw [hprogram]
          exact writeKept_readAs hs hmem hkind (by rw [hup.length_eq]; exact hkept)
            (hstore own.payload)
        · rw [EmittedMessage.act, EmittedMessage.changeMember, hself]
          conv_rhs => rw [hown]
          rfl
      · rw [if_neg hhas] at hprogram h
        exact .nothing hprogram h

/-- What is written for a field of its own is read back. -/
theorem writeEncodeField_restored (hs : s.WellDeclared) (hup : Upheld spare below demands)
    (hmem : field ∈ s.ownFields)
    (h : MemberRestorable demands s field
      ((initMessage explicitDefault s).member field.number) own) :
    FieldRestored explicitDefault spare below s field own := by
  obtain ⟨hmem, hisNone⟩ := List.mem_filter.mp hmem
  have hnone : field.oneofName = none := Option.isNone_iff_eq_none.mp hisNone
  have hmessage : IsMessageField field →
      MessageMemberRestorable demands s field
        ((initMessage explicitDefault s).member field.number) own →
        FieldRestored explicitDefault spare below s field own := by
    intro hkind h
    by_cases hrepeated : (field.cardinality == .repeated) = true
    · exact repeatedMessage_restored hs hmem hup hkind hrepeated h
    · exact singularMessage_restored hs hmem hup hkind hnone hrepeated h
  unfold MemberRestorable at h
  cases hkind : field.kind with
  | scalar scalar =>
      rw [hkind] at h
      exact plainField_restored hs hmem hnone (.inl ⟨scalar, hkind⟩) h
  | enumeration name =>
      rw [hkind] at h
      exact plainField_restored hs hmem hnone (.inr ⟨name, hkind⟩) h
  | map key kind =>
      rw [hkind] at h
      exact mapField_restored hs hmem hup hkind h
  | message name =>
      rw [hkind] at h
      exact hmessage ⟨name, .inl hkind⟩ h
  | group name =>
      rw [hkind] at h
      exact hmessage ⟨name, .inr hkind⟩ h

end

/-! ## A whole struct -/

section

variable {explicitDefault : FieldKind → OptionValue → Option Value} {s : GeneratedStruct}
  {below : List EmittedDecoder} {spare : Nat → Nat} {demands : List Demand}
  {message : EmittedMessage}

/-- One key takes its value from `g`, and then the rest of the keys do. -/
theorem update_then_rest {κ β : Type} [DecidableEq κ] (key : κ) (rest : List κ) (f g : κ → β)
    [∀ k, Decidable (k ∈ rest)] [∀ k, Decidable (k ∈ key :: rest)] :
    (fun k => if k ∈ rest then g k else Function.update f key (g key) k)
      = fun k => if k ∈ key :: rest then g k else f k := by
  funext k
  by_cases hrest : k ∈ rest
  · rw [if_pos hrest, if_pos (List.mem_cons_of_mem _ hrest)]
  · by_cases hkey : k = key
    · subst hkey
      rw [if_neg hrest, if_pos List.mem_cons_self, Function.update_self]
    · rw [if_neg hrest, if_neg (mt List.mem_cons.mp (not_or.mpr ⟨hkey, hrest⟩)),
        Function.update_of_ne hkey]

/-- The fields of a struct, one after the other. -/
theorem fields_readAs {fields : List FieldDescriptor}
    (hunique : (fields.map FieldDescriptor.number).Nodup)
    (h : ∀ field ∈ fields, FieldRestored explicitDefault spare below s field
      (message.member field.number)) :
    ∃ actions,
      ReadAs explicitDefault s below (fields.flatMap (fun field =>
        writeEncodeField EncodeMethods.encodedSize s field
          ((message.member field.number).fold (encodeMethods spare)))) actions
      ∧ ∀ self : EmittedMessage, (∀ field ∈ fields,
            self.member field.number = (initMessage explicitDefault s).member field.number) →
          self.actAll s actions = .ok { self with
            member := fun number =>
              if number ∈ fields.map FieldDescriptor.number then message.member number
              else self.member number } := by
  induction fields with
  | nil =>
      refine ⟨[], .nil, fun self _ => ?_⟩
      cases self
      simp [EmittedMessage.actAll]
  | cons field rest ih =>
      rw [List.map_cons, List.nodup_cons] at hunique
      obtain ⟨actions, hread, hstores⟩ := h field List.mem_cons_self
      obtain ⟨others, hreadOthers, hall⟩ :=
        ih hunique.2 fun other hother => h other (List.mem_cons_of_mem _ hother)
      refine ⟨actions ++ others, ?_, fun self hself => ?_⟩
      · rw [List.flatMap_cons]
        exact hread.append hreadOthers
      · refine EmittedMessage.actAll_append_eq_ok.mpr
          ⟨_, hstores self (hself field List.mem_cons_self), ?_⟩
        -- The actions for this field leave the other members as `init` made them.
        have hkept : ∀ other ∈ rest,
            Function.update self.member field.number (message.member field.number) other.number
              = (initMessage explicitDefault s).member other.number := by
          intro other hother
          have hne : other.number ≠ field.number := by
            intro heq
            exact hunique.1 (heq ▸ List.mem_map_of_mem hother)
          rw [Function.update_of_ne hne]
          exact hself other (List.mem_cons_of_mem _ hother)
        rw [hall _ hkept]
        simp only [Except.ok.injEq, EmittedMessage.mk.injEq, and_true]
        exact update_then_rest field.number (rest.map FieldDescriptor.number) self.member
          message.member

/-- The member of a oneof that is set. -/
theorem writeEncodeOneof_readAs (hfits : MessageRestorable explicitDefault below demands s message)
    (hup : Upheld spare below demands) {oneof : OneofDescriptor}
    (honeof : oneof ∈ s.message.oneofs) (layer : Layer (GeneratedStruct → EncodeMethods))
    (hlayer : layer.oneof oneof.name
      = foldChoice (encodeMethods spare) (message.oneof oneof.name)) :
    ∃ actions, ReadAs explicitDefault s below
        (writeEncodeOneof EncodeMethods.encodedSize s layer oneof) actions
      ∧ ∀ self : EmittedMessage, (message.oneof oneof.name = none → self.oneof oneof.name = none) →
        self.actAll s actions = .ok { self with
          oneof := Function.update self.oneof oneof.name (message.oneof oneof.name) } := by
  rw [writeEncodeOneof, hlayer]
  cases hchoice : message.oneof oneof.name with
  | none =>
      refine ⟨[], .nil, fun self hself => ?_⟩
      rw [EmittedMessage.actAll, ← hself rfl, Function.update_eq_self]
      cases self
      rfl
  | some choice =>
      obtain ⟨number, element⟩ := choice
      obtain ⟨field, hfield, helement⟩ := hfits.oneofs oneof honeof number element hchoice
      have hmem : field ∈ s.message.fields := List.mem_of_find?_eq_some hfield
      have hfound := List.find?_some hfield
      rw [Bool.and_eq_true, beq_iff_eq, beq_iff_eq] at hfound
      obtain ⟨hnumber, hname⟩ := hfound
      have hsingle : (field.cardinality == .repeated) = false := by
        have hnot := (hfits.declared.single field hmem (by rw [hname]; rfl)).1
        simpa using hnot
      refine ⟨[.choose field oneof.name element], ?_, fun self _ => ?_⟩
      · simp only [foldChoice, hfield]
        refine @writeElement_readAs explicitDefault s below field spare demands hfits.declared
          hmem hup (s.typedOneof field) nestedTypeName_of_typedOneof (.choose field oneof.name)
          ?_ ?_ false element helement
        · intro value
          rw [storeValue, hsingle, hname]
          rfl
        · intro payload
          rw [storeMessage, hsingle, hname]
          rfl
      · rw [EmittedMessage.actAll, EmittedMessage.act, hnumber]
        rfl

/-- The oneofs of a struct, one after the other. -/
theorem oneofs_readAs (hfits : MessageRestorable explicitDefault below demands s message)
    (hup : Upheld spare below demands) (layer : Layer (GeneratedStruct → EncodeMethods))
    (hlayer : ∀ name, layer.oneof name = foldChoice (encodeMethods spare) (message.oneof name))
    {oneofs : List OneofDescriptor} (honeofs : oneofs ⊆ s.message.oneofs) :
    ∃ actions, ReadAs explicitDefault s below
        (oneofs.flatMap (writeEncodeOneof EncodeMethods.encodedSize s layer)) actions
      ∧ ∀ self : EmittedMessage, (∀ name, message.oneof name = none → self.oneof name = none) →
        self.actAll s actions = .ok { self with
          oneof := fun name =>
            if name ∈ oneofs.map OneofDescriptor.name then message.oneof name
            else self.oneof name } := by
  induction oneofs with
  | nil =>
      refine ⟨[], .nil, fun self _ => ?_⟩
      cases self
      simp [EmittedMessage.actAll]
  | cons oneof rest ih =>
      obtain ⟨actions, hread, hstores⟩ := writeEncodeOneof_readAs hfits hup
        (honeofs List.mem_cons_self) layer (hlayer oneof.name)
      obtain ⟨others, hreadOthers, hall⟩ := ih (List.cons_subset.mp honeofs).2
      refine ⟨actions ++ others, ?_, fun self hself => ?_⟩
      · rw [List.flatMap_cons]
        exact hread.append hreadOthers
      · refine EmittedMessage.actAll_append_eq_ok.mpr
          ⟨_, hstores self (hself oneof.name), ?_⟩
        have hkept : ∀ name, message.oneof name = none →
            Function.update self.oneof oneof.name (message.oneof oneof.name) name = none := by
          intro name hnone
          by_cases hname : name = oneof.name
          · subst hname
            rw [Function.update_self, hnone]
          · rw [Function.update_of_ne hname]
            exact hself name hnone
        rw [hall _ hkept]
        simp only [Except.ok.injEq, EmittedMessage.mk.injEq, and_true, true_and]
        exact update_then_rest oneof.name (rest.map OneofDescriptor.name) self.oneof message.oneof

/-- The unknown fields are kept again. -/
theorem unknownFields_readAs {raws : List Bytes}
    (h : ∀ raw ∈ raws, readMember explicitDefault s below raw = .ok (some (.keep raw, []))
      ∧ IsField below.length raw) :
    ReadAs explicitDefault s below (raws.map .slice) (raws.map .keep)
      ∧ ∀ self : EmittedMessage, self.actAll s (raws.map .keep)
        = .ok { self with unknownFields := self.unknownFields ++ raws } := by
  induction raws with
  | nil =>
      refine ⟨.nil, fun self => ?_⟩
      cases self
      simp [EmittedMessage.actAll]
  | cons raw rest ih =>
      obtain ⟨hread, tag, tagBytes, value, heq, htag, hvalue⟩ := h raw List.mem_cons_self
      obtain ⟨hrest, hall⟩ := ih fun other hother => h other (List.mem_cons_of_mem _ hother)
      constructor
      · have hfirst : ReadAs explicitDefault s below [.slice raw] [.keep raw] := by
          have hbytes : programBytes [.slice raw] = .ok raw := by
            simp only [programBytes, commandBytes, ok_bind, pure, Except.pure, List.append_nil]
          refine ⟨raw, hbytes, fun _ => ⟨.cons hread .nil, ?_⟩⟩
          rw [heq]
          exact Fields.single htag hvalue
        exact hfirst.append hrest
      · intro self
        rw [List.map_cons, EmittedMessage.actAll, EmittedMessage.act]
        simp only
        rw [hall]
        simp only [List.append_assoc, List.singleton_append]

/-- What is written for a struct is read back if this is so for the messages below. -/
theorem restored_of_restorable (hup : Upheld spare below demands)
    (hfits : MessageRestorable explicitDefault below demands s message) :
    MessageRestored spare (decodeFromReader explicitDefault below) below.length s message := by
  obtain ⟨member, oneof, unknownFields⟩ := message
  have hunique : (s.ownFields.map FieldDescriptor.number).Nodup :=
    hfits.declared.unique.sublist (List.filter_sublist.map _)
  obtain ⟨fieldActions, hfields, hmembers⟩ := fields_readAs hunique fun field hmem =>
    writeEncodeField_restored hfits.declared hup hmem (hfits.own field hmem)
  obtain ⟨oneofActions, honeofs, hchosen⟩ := oneofs_readAs hfits hup
    { member := fun number => (member number).fold (encodeMethods spare)
      oneof := fun name => foldChoice (encodeMethods spare) (oneof name)
      unknownFields } (fun _ => rfl) (List.Subset.refl _)
  obtain ⟨hunknown, hkept⟩ := unknownFields_readAs hfits.unknownFields
  -- The program of the struct is these three in a row.
  obtain ⟨bytes, hbytes, hread⟩ := (hfields.append honeofs).append hunknown
  refine ⟨bytes, hbytes, fun hlength => ?_⟩
  obtain ⟨hreads, hgrammar⟩ := hread hlength
  refine ⟨decodeFromReader_eq_ok.mpr ⟨_, hreads, ?_⟩, hgrammar⟩
  refine EmittedMessage.actAll_append_eq_ok.mpr ⟨_, EmittedMessage.actAll_append_eq_ok.mpr
    ⟨_, hmembers _ (fun _ _ => rfl), hchosen _ (fun _ _ => rfl)⟩, ?_⟩
  rw [hkept]
  simp only [Except.ok.injEq, EmittedMessage.mk.injEq]
  refine ⟨?_, ?_, rfl⟩
  · funext number
    split
    · rfl
    · next hother => exact (hfits.others number hother).symm
  · funext name
    split
    · rfl
    · next hother => exact (hfits.otherOneofs name hother).symm

theorem upheld_below (explicitDefault : FieldKind → OptionValue → Option Value)
    (spare : Nat → Nat) (levels : Nat) :
    Upheld spare (decodersBelow explicitDefault levels) (demandsBelow explicitDefault levels) := by
  induction levels with
  | zero => exact .nil
  | succ levels ih => exact .cons (fun _ _ hfits => restored_of_restorable ih hfits) ih

end

end Codegen

namespace EmittedMessage

/-- What is asked of a value that `decode` reads back: its fields hold values of their kinds, its
maps have each key once, its unknown fields are fields that the decoder keeps, the messages in it
are no deeper than a reader may descend, and those behind a length have the size that
`encodedSize` counts. -/
def Restorable (explicitDefault : FieldKind → OptionValue → Option Value) (s : GeneratedStruct)
    (self : EmittedMessage) : Prop :=
  Codegen.MessageRestorable explicitDefault (Codegen.decodersBelow explicitDefault recursionLimit)
    (Codegen.demandsBelow explicitDefault recursionLimit) s self

section

variable {explicitDefault : FieldKind → OptionValue → Option Value} {s : GeneratedStruct}
  {self : EmittedMessage}

theorem restored (spare : Nat → Nat) (h : self.Restorable explicitDefault s) :
    Codegen.MessageRestored spare (Codegen.decodeEmitted explicitDefault) recursionLimit s
      self := by
  have hrestored := Codegen.restored_of_restorable
    (Codegen.upheld_below explicitDefault spare recursionLimit) h
  have hlength : ∀ levels, (Codegen.decodersBelow explicitDefault levels).length = levels := by
    intro levels
    induction levels with
    | zero => rfl
    | succ levels ih => rw [Codegen.decodersBelow, List.length_cons, ih]
  rw [hlength] at hrestored
  exact hrestored

/-- The emitted codec round trips: what is written are well-formed fields, and `decode` returns the
value that was written. -/
theorem decodeEmitted_writeTo (spare : Nat → Nat) (h : self.Restorable explicitDefault s) :
    ∃ bytes, self.writeTo spare s = .ok bytes ∧ (bytes.length < 2 ^ 64 →
      Codegen.decodeEmitted explicitDefault s bytes = .ok self ∧ IsFields recursionLimit bytes) :=
  restored spare h

/-- The other two encoders return the same bytes where `encodedSize` is exact. -/
theorem decodeEmitted_encode (spare : Nat → Nat) (h : self.Restorable explicitDefault s)
    (hexact : Codegen.HasExactSize s self) :
    ∃ bytes, self.encode spare s = .ok bytes
      ∧ (∀ buffer : Bytes, self.encodedSize spare s ≤ buffer.length →
        self.encodeInto spare s buffer = .ok bytes)
      ∧ (bytes.length < 2 ^ 64 → Codegen.decodeEmitted explicitDefault s bytes = .ok self) := by
  obtain ⟨bytes, hbytes, hread⟩ := restored spare h
  have hsize := Codegen.encodedSize_of_exact hexact hbytes
  refine ⟨bytes, encode_of_fits hexact.1 hbytes (by omega), fun buffer hbuffer => ?_,
    fun hlength => (hread hlength).1⟩
  exact encodeInto_of_fits hexact.1 hbytes hbuffer (by omega)

end

end EmittedMessage

/-! ### A message in a message -/

namespace Codegen

def pagesField : FieldDescriptor :=
  { name := ascii "pages", number := 1, cardinality := .repeated, kind := .scalar .int32 }

def subtitleField : FieldDescriptor :=
  { name := ascii "subtitle", number := 2, kind := .scalar .string }

def bookMessage : MessageDescriptor :=
  { name := ascii "Book", fields := [pagesField, subtitleField], address := 2 }

def favouriteField : FieldDescriptor :=
  { name := ascii "favourite", number := 1, cardinality := .optional
    kind := .message (ascii "Book"), address := 1 }

def ownerMessage : MessageDescriptor :=
  { name := ascii "Owner", fields := [favouriteField], address := 3 }

def libraryFile : FileDescriptor :=
  { (FileDescriptor.setSyntax {} .proto3) with
    messages := [bookMessage, ownerMessage], address := 4 }

def bookStruct : GeneratedStruct := { ctx := { file := libraryFile }, message := bookMessage }

def ownerStruct : GeneratedStruct := { ctx := { file := libraryFile }, message := ownerMessage }

/-- A field without an explicit default. -/
def withoutDefault (_ : FieldKind) (_ : OptionValue) : Option Value := none

/-- A book of these pages. -/
def book (pages : List (BitVec 32)) : EmittedMessage :=
  { member := fun number =>
      if number = 1 then
        { (initMessage withoutDefault bookStruct).member 1 with
          items := (pages.map .int32).map .value }
      else (initMessage withoutDefault bookStruct).member number
    oneof := fun _ => none
    unknownFields := [] }

/-- An owner with a favourite book, and a field that the struct does not know. -/
def owner (favourite : EmittedMessage) : EmittedMessage :=
  { member := fun number =>
      if number = 1 then
        { (initMessage withoutDefault ownerStruct).member 1 with nested := some favourite }
      else (initMessage withoutDefault ownerStruct).member number
    oneof := fun _ => none
    unknownFields := [[16, 5]] }

theorem book_restorable (pages : List (BitVec 32)) (below : List EmittedDecoder)
    (demands : List Demand) :
    MessageRestorable withoutDefault below demands bookStruct (book pages) where
  declared :=
    { valid := by decide
      unique := by decide
      declared := by
        intro field hmem name hname
        simp only [bookStruct, bookMessage, List.mem_cons, List.not_mem_nil, or_false] at hmem
        obtain rfl | rfl := hmem <;> cases hname
      single := by
        intro field hmem hname
        simp only [bookStruct, bookMessage, List.mem_cons, List.not_mem_nil, or_false] at hmem
        obtain rfl | rfl := hmem <;> cases hname }
  own := by
    intro field hmem
    obtain ⟨hmem, -⟩ := List.mem_filter.mp hmem
    simp only [bookStruct, bookMessage, List.mem_cons, List.not_mem_nil, or_false] at hmem
    obtain rfl | rfl := hmem
    · refine ⟨rfl, pages.map .int32, rfl, fun value hvalue => ?_⟩
      obtain ⟨page, -, rfl⟩ := List.mem_map.mp hvalue
      exact { hasType := rfl, verified := fun s hs => by cases hs }
    · exact rfl
  others := by
    intro number hnumber
    have hne : number ≠ 1 := by
      rintro rfl
      exact hnumber (by decide)
    exact if_neg hne
  oneofs := fun oneof honeof => by cases honeof
  otherOneofs := fun _ _ => rfl
  unknownFields := fun raw hraw => by cases hraw

theorem owner_restorable (pages : List (BitVec 32))
    (hexact : HasExactSize bookStruct (book pages)) :
    (owner (book pages)).Restorable withoutDefault ownerStruct where
  declared :=
    { valid := by decide
      unique := by decide
      declared := by
        intro field hmem name hname
        cases List.mem_singleton.mp hmem
        cases hname
      single := by
        intro field hmem hname
        cases List.mem_singleton.mp hmem
        cases hname }
  own := by
    intro field hmem
    cases List.mem_singleton.mp (List.mem_filter.mp hmem).1
    refine ⟨rfl, fun message hmessage => ?_⟩
    cases hmessage
    exact ⟨book_restorable pages _ _, fun _ => hexact⟩
  others := by
    intro number hnumber
    have hne : number ≠ 1 := by
      rintro rfl
      exact hnumber (by decide)
    exact if_neg hne
  oneofs := fun oneof honeof => by cases honeof
  otherOneofs := fun _ _ => rfl
  unknownFields := by
    intro raw hraw
    cases List.mem_singleton.mp hraw
    refine ⟨rfl, { number := 2, wireType := .varint }, [16], [5], rfl, ?_, 5, ?_⟩
    · exact isTag_tagBytes (show ValidNumber 2 by decide) .varint
    · exact isVarint_writeVarint (show 5 < 2 ^ 64 by decide)

end Codegen

namespace EmittedMessage

theorem decodeEmitted_writeTo_owner :
    Codegen.decodeEmitted Codegen.withoutDefault Codegen.ownerStruct [10, 4, 10, 2, 3, 4, 16, 5]
      = .ok (Codegen.owner (Codegen.book [3, 4])) := by
  have hwrite : (Codegen.owner (Codegen.book [3, 4])).writeTo (fun _ => 0) Codegen.ownerStruct
      = .ok [10, 4, 10, 2, 3, 4, 16, 5] := by decide
  obtain ⟨bytes, hbytes, hread⟩ := decodeEmitted_writeTo (fun _ => 0)
    (Codegen.owner_restorable [3, 4] ⟨by decide, by decide⟩)
  rw [hwrite] at hbytes
  cases hbytes
  exact (hread (by decide)).1

theorem decodeEmitted_encode_owner :
    (Codegen.owner (Codegen.book [3, 4])).encode (fun _ => 0) Codegen.ownerStruct
        = .ok [10, 4, 10, 2, 3, 4, 16, 5]
      ∧ Codegen.decodeEmitted Codegen.withoutDefault Codegen.ownerStruct [10, 4, 10, 2, 3, 4, 16, 5]
        = .ok (Codegen.owner (Codegen.book [3, 4])) := by
  have hencode : (Codegen.owner (Codegen.book [3, 4])).encode (fun _ => 0) Codegen.ownerStruct
      = .ok [10, 4, 10, 2, 3, 4, 16, 5] := by decide
  obtain ⟨bytes, hbytes, -, hread⟩ := decodeEmitted_encode (fun _ => 0)
    (Codegen.owner_restorable [3, 4] ⟨by decide, by decide⟩) ⟨by decide, by decide⟩
  rw [hencode] at hbytes
  cases hbytes
  exact ⟨hencode, hread (by decide)⟩

end EmittedMessage

end Pbz
