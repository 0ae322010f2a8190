import Pbz.Dynamic.Invariant

set_option autoImplicit false

/-! # What a message holds

The contents of a message are the values it holds for each field number, whatever the order of
its entries and whether a field without values has one. A value that is stored changes the contents
of its own field (`storeValue`) and empties the other members of its oneof; a message that is merged
does this with everything it holds. `contents_add` and `contents_mergeFrom` say that the operations
of the store are these.
-/

namespace Pbz

/-! ## Contents -/

/-- The values of the entry with the number. -/
def contentsOf (fields : List FieldValue) (number : Nat) : List Value :=
  match findEntry number fields with
  | some entry => entry.values
  | none => []

def DynamicMessage.contents (message : DynamicMessage) : Nat → List Value :=
  contentsOf message.fields

section

variable {descriptor : MessageDescriptor} {P : FieldValue → Prop} {fields : List FieldValue}

theorem contentsOf_cons (entry : FieldValue) (number : Nat) :
    contentsOf (entry :: fields) number
      = if entry.descriptor.number = number then entry.values else contentsOf fields number := by
  rw [contentsOf, findEntry_cons]
  by_cases hn : entry.descriptor.number = number
  · rw [if_pos (by simpa using hn), if_pos hn]
  · rw [if_neg (by simpa using hn), if_neg hn]
    rfl

theorem contentsOf_eq_nil {number : Nat}
    (h : ∀ entry ∈ fields, entry.descriptor.number = number → entry.values = []) :
    contentsOf fields number = [] := by
  rw [contentsOf]
  split
  · next entry he =>
    obtain ⟨hm, hn⟩ := mem_of_findEntry he
    exact h entry hm hn
  · rfl

/-- The contents of a number are the values of its entry. -/
theorem contentsOf_of_mem {entry : FieldValue}
    (h : (fields.map FieldValue.descriptor).Pairwise FieldDescriptor.Apart) (he : entry ∈ fields) :
    contentsOf fields entry.descriptor.number = entry.values := by
  induction fields with
  | nil => simp at he
  | cons first rest ih =>
      rw [List.map_cons, List.pairwise_cons] at h
      rw [contentsOf_cons]
      rcases List.mem_cons.mp he with rfl | he
      · rw [if_pos rfl]
      · rw [if_neg (h.1 _ (List.mem_map_of_mem he)).1, ih h.2 he]

theorem contentsOf_updateOrCreate (field : FieldDescriptor) (change : List Value → List Value)
    (number : Nat) :
    contentsOf (updateOrCreate field change fields) number
      = if number = field.number then change (contentsOf fields field.number)
        else contentsOf fields number := by
  induction fields with
  | nil =>
      rw [updateOrCreate, contentsOf_cons]
      by_cases hn : number = field.number
      · rw [if_pos hn.symm, if_pos hn]
        rfl
      · rw [if_neg (fun hc => hn hc.symm), if_neg hn]
  | cons entry rest ih =>
      rw [updateOrCreate]
      simp only [contentsOf_cons, beq_iff_eq]
      by_cases he : entry.descriptor.number = field.number
      · rw [if_pos he, contentsOf_cons]
        simp only [he, if_true]
        by_cases hn : number = field.number
        · rw [if_pos hn.symm, if_pos hn]
        · rw [if_neg (fun hc => hn hc.symm), if_neg hn, if_neg (fun hc => hn hc.symm)]
      · rw [if_neg he, contentsOf_cons, ih]
        by_cases hn : number = field.number
        · rw [if_neg (by rw [hn]; exact he), if_pos hn, if_pos hn, if_neg he]
        · rw [if_neg hn, if_neg hn]

/-- An update of the entry that is there, by a change that makes nothing out of nothing. -/
theorem contentsOf_updateEntry {change : List Value → List Value} (hnil : change [] = [])
    (changed number : Nat) :
    contentsOf (updateEntry changed change fields) number
      = if number = changed then change (contentsOf fields changed)
        else contentsOf fields number := by
  induction fields with
  | nil =>
      rw [updateEntry]
      split
      · exact hnil.symm
      · rfl
  | cons entry rest ih =>
      rw [updateEntry]
      simp only [contentsOf_cons, beq_iff_eq]
      by_cases he : entry.descriptor.number = changed
      · rw [if_pos he, contentsOf_cons]
        simp only [he, if_true]
        by_cases hn : number = changed
        · rw [if_pos hn.symm, if_pos hn]
        · rw [if_neg (fun hc => hn hc.symm), if_neg hn, if_neg (fun hc => hn hc.symm)]
      · rw [if_neg he, contentsOf_cons, ih]
        by_cases hn : number = changed
        · rw [if_neg (by rw [hn]; exact he), if_pos hn, if_pos hn, if_neg he]
        · rw [if_neg hn, if_neg hn]

/-! ## Oneofs -/

/-- The field with the number is another member of the field's oneof. -/
def displaces (descriptor : MessageDescriptor) (field : FieldDescriptor) (number : Nat) : Prop :=
  number ≠ field.number ∧ ∃ other name, descriptor.findFieldByNumber number = some other
    ∧ field.oneofName = some name ∧ other.oneofName = some name

theorem Stored.apart_of_mem {known : Set FieldDescriptor} (h : Stored known P fields)
    {a b : FieldValue} (ha : a ∈ fields) (hb : b ∈ fields) (hab : a ≠ b) :
    a.descriptor.Apart b.descriptor := by
  have hsymm : Std.Symm (fun a b : FieldValue => a.descriptor.Apart b.descriptor) :=
    ⟨fun _ _ => FieldDescriptor.Apart.symm⟩
  exact (List.pairwise_map.mp h.apart).forall ha hb hab

/-- Members of one oneof that are apart are not both there. -/
theorem contentsOf_of_displaces (h : Stored (schemaFields descriptor) P fields)
    {entry : FieldValue} (he : entry ∈ fields) {number : Nat}
    (hd : displaces descriptor entry.descriptor number) : contentsOf fields number = [] := by
  obtain ⟨hne, other, name, hother, hname, hname'⟩ := hd
  refine contentsOf_eq_nil (fun found hf hn => ?_)
  have hfound : found.descriptor = other := by
    have hs : descriptor.findFieldByNumber found.descriptor.number = some found.descriptor :=
      h.declared found hf
    rw [hn, hother] at hs
    exact (Option.some.inj hs).symm
  have hdiff : entry ≠ found := by
    rintro rfl
    exact hne hn.symm
  have hapart : entry.descriptor.Apart found.descriptor := h.apart_of_mem he hf hdiff
  exact absurd (hfound ▸ hname') (hapart.2 name hname)

open Classical in
theorem contentsOf_leaveOneof {message : DynamicMessage}
    (h : Stored (schemaFields descriptor) P message.fields) (field : FieldDescriptor)
    (number : Nat) :
    contentsOf (message.leaveOneof field).fields number
      = if displaces descriptor field number then [] else contentsOf message.fields number := by
  have hleft := (h.leaveOneof field).1
  split
  · next hd =>
    obtain ⟨hne, other, name, hother, hname, hname'⟩ := hd
    refine contentsOf_eq_nil (fun entry he hn => ?_)
    have hs : descriptor.findFieldByNumber entry.descriptor.number = some entry.descriptor :=
      hleft.declared entry he
    rw [hn, hother, Option.some.injEq] at hs
    rcases (h.leaveOneof field).2 entry he with hc | hc
    · exact absurd (hn.symm.trans hc) hne
    · exact absurd hname (hc.2 name (hs ▸ hname'))
  · next hd =>
    by_cases hex : ∃ entry ∈ message.fields, entry.descriptor.number = number
    · obtain ⟨entry, he, rfl⟩ := hex
      have hstays : entry ∈ (message.leaveOneof field).fields := by
        rw [DynamicMessage.leaveOneof]
        cases hf : field.oneofName with
        | none => exact he
        | some name =>
            refine SwapRemove.mem_sweep.mpr ⟨he, ?_⟩
            rw [← Bool.not_eq_true, Bool.and_eq_true, inOneof_eq_true, bne_iff_ne]
            rintro ⟨hname, hne⟩
            exact hd ⟨hne, entry.descriptor, name, h.declared entry he, hf, hname⟩
      exact (contentsOf_of_mem hleft.apart hstays).trans (contentsOf_of_mem h.apart he).symm
    · have hnone : ∀ entry ∈ message.fields, entry.descriptor.number ≠ number :=
        fun entry he hn => hex ⟨entry, he, hn⟩
      rw [contentsOf_eq_nil (fun entry he hn => absurd hn (hnone entry (mem_leaveOneof he))),
        contentsOf_eq_nil (fun entry he hn => absurd hn (hnone entry he))]

end

/-! ## Storing a value -/

/-- The value of a singular field after another one has been stored: the two merged if they are
messages of the field, else the new one. -/
def mergedValue (field : FieldDescriptor) (values : List Value) (value : Value) : Value :=
  match values.head?, value with
  | some (.message target), .message source =>
      if shouldMergeSingularMessageField field then .message (target.mergeFrom source) else value
  | some (.group target), .group source =>
      if shouldMergeSingularMessageField field then .group (target.mergeFrom source) else value
  | _, value => value

/-- The values of a field after a value has been stored in it. -/
def storeValue (field : FieldDescriptor) (values : List Value) (value : Value) : List Value :=
  if field.kind.isMap then putMapEntry values value
  else if field.isRepeatedLike then values ++ [value]
  else [mergedValue field values value]

theorem storeValue_of_isMap {field : FieldDescriptor} (h : field.kind.isMap = true)
    (values : List Value) (value : Value) :
    storeValue field values value = putMapEntry values value := by
  rw [storeValue, if_pos h]

theorem storeValue_of_repeated {field : FieldDescriptor} (h : field.kind.isMap = false)
    (hr : field.isRepeatedLike = true) (values : List Value) (value : Value) :
    storeValue field values value = values ++ [value] := by
  rw [storeValue, h, if_neg (by simp), if_pos hr]

theorem storeValue_of_singular {field : FieldDescriptor} (h : field.isRepeatedLike = false)
    (values : List Value) (value : Value) :
    storeValue field values value = [mergedValue field values value] := by
  rw [storeValue, isMap_of_not_repeatedLike h, h]
  rfl

theorem addToValues_eq_storeValue {field : FieldDescriptor} {values : List Value} {value : Value}
    (h : field.isRepeatedLike = false → mergedValue field values value = value) :
    DynamicMessage.addToValues field value values = storeValue field values value := by
  cases hm : field.kind.isMap with
  | true => rw [addToValues_of_isMap hm, storeValue_of_isMap hm]
  | false =>
      rw [DynamicMessage.addToValues_of_not_map hm]
      cases hr : field.isRepeatedLike with
      | true => exact (storeValue_of_repeated hm hr values value).symm
      | false =>
          rw [storeValue_of_singular hr, h hr]
          rfl

theorem shouldMerge_of_singular {field : FieldDescriptor}
    (h : shouldMergeSingularMessageField field = true) : field.isRepeatedLike = false := by
  rw [shouldMergeSingularMessageField] at h
  rw [FieldDescriptor.isRepeatedLike, ← Bool.not_eq_true]
  intro hc
  rw [if_pos hc] at h
  simp at h

/-- A merged value is the target and the source, merged; where nothing is merged, the new value
stays as it is. -/
theorem mergeSingularMessageValue_cases (message : DynamicMessage) (field : FieldDescriptor)
    (value : Value) :
    (message.mergeSingularMessageValue field value = none
        ∧ mergedValue field (message.contents field.number) value = value)
      ∨ field.isRepeatedLike = false ∧ message.contents field.number ≠ []
        ∧ message.mergeSingularMessageValue field value
          = some (message.replaceFirst field
              (mergedValue field (message.contents field.number) value)) := by
  have htarget : message.mergeTarget field
      = if shouldMergeSingularMessageField field then (message.contents field.number).head?
        else none := by
    rw [DynamicMessage.mergeTarget, DynamicMessage.contents, contentsOf]
    cases findEntry field.number message.fields <;> rfl
  cases hs : shouldMergeSingularMessageField field with
  | false =>
      refine Or.inl ⟨DynamicMessage.mergeSingularMessageValue_eq_none (by rw [htarget, hs]; rfl) _,
        ?_⟩
      unfold mergedValue
      split <;> simp only [hs, Bool.false_eq_true, if_false]
  | true =>
      rw [hs, if_pos rfl] at htarget
      cases hv : message.contents field.number with
      | nil =>
          rw [hv] at htarget
          exact Or.inl ⟨DynamicMessage.mergeSingularMessageValue_eq_none htarget _, rfl⟩
      | cons first rest =>
          rw [hv] at htarget
          cases value with
          | message source =>
              cases first with
              | message target =>
                  refine Or.inr ⟨shouldMerge_of_singular hs, by simp, ?_⟩
                  simp only [DynamicMessage.mergeSingularMessageValue, htarget, List.head?_cons,
                    mergedValue, hs, if_true]
              | _ =>
                  refine Or.inl ⟨?_, rfl⟩
                  simp only [DynamicMessage.mergeSingularMessageValue, htarget, List.head?_cons]
          | group source =>
              cases first with
              | group target =>
                  refine Or.inr ⟨shouldMerge_of_singular hs, by simp, ?_⟩
                  simp only [DynamicMessage.mergeSingularMessageValue, htarget, List.head?_cons,
                    mergedValue, hs, if_true]
              | _ =>
                  refine Or.inl ⟨?_, rfl⟩
                  simp only [DynamicMessage.mergeSingularMessageValue, htarget, List.head?_cons]
          | _ => exact Or.inl ⟨rfl, by cases first <;> rfl⟩

section

variable {descriptor : MessageDescriptor}

theorem contents_singular {message : DynamicMessage}
    (h : Stored (schemaFields descriptor) SingularEntry message.fields) {field : FieldDescriptor}
    (hf : field ∈ schemaFields descriptor) (hs : field.isRepeatedLike = false) :
    (message.contents field.number).length ≤ 1 := by
  rw [DynamicMessage.contents, contentsOf]
  split
  · next entry he =>
    obtain ⟨hfound, hP⟩ := h.found (schemaFields_injOn descriptor) hf he
    rw [hfound] at hP
    exact hP hs
  · exact Nat.zero_le _

open Classical in
/-- What `add` does to the contents. -/
theorem contents_add {message : DynamicMessage}
    (h : Stored (schemaFields descriptor) SingularEntry message.fields) {field : FieldDescriptor}
    (hf : field ∈ schemaFields descriptor) (value : Value) (number : Nat) :
    (message.add field value).contents number
      = if number = field.number then
          storeValue field (message.contents field.number) value
        else if displaces descriptor field number then [] else message.contents number := by
  rw [DynamicMessage.add]
  rcases mergeSingularMessageValue_cases message field value with ⟨hm, hv⟩ | ⟨hs, hne, hm⟩
  · have hfield : ¬ displaces descriptor field field.number := fun hc => hc.1 rfl
    rw [hm]
    simp only [DynamicMessage.contents, DynamicMessage.insert, contentsOf_updateOrCreate,
      contentsOf_leaveOneof h, if_neg hfield]
    rw [DynamicMessage.contents] at hv
    rw [addToValues_eq_storeValue (fun _ => hv)]
  · have hdisplaced : displaces descriptor field number → message.contents number = [] := by
      intro hd
      obtain ⟨entry, he, hn⟩ : ∃ entry ∈ message.fields,
          entry.descriptor.number = field.number := by
        by_contra hc
        exact hne (contentsOf_eq_nil (fun entry he hn => absurd ⟨entry, he, hn⟩ hc))
      have hdesc := schemaFields_injOn descriptor (h.declared entry he) hf hn
      exact contentsOf_of_displaces h he (hdesc ▸ hd)
    have hlen := contents_singular h hf hs
    rw [hm]
    have hset (value : Value) := @contentsOf_updateEntry message.fields
      (fun values => values.set 0 value) rfl field.number number
    simp only [DynamicMessage.contents, DynamicMessage.replaceFirst, hset] at hne hlen ⊢
    split
    · rw [storeValue_of_singular hs]
      have hpos := List.length_pos_iff.mpr hne
      obtain ⟨first, hfirst⟩ := List.length_eq_one_iff.mp (Nat.le_antisymm hlen hpos)
      rw [hfirst]
      rfl
    · split
      · next hd => exact hdisplaced hd
      · rfl

/-- An `add` keeps at most one value in a singular field. -/
theorem Stored.addSingular {message : DynamicMessage}
    (h : Stored (schemaFields descriptor) SingularEntry message.fields) {field : FieldDescriptor}
    (hf : field ∈ schemaFields descriptor) (value : Value) :
    Stored (schemaFields descriptor) SingularEntry (message.add field value).fields :=
  h.add (schemaFields_injOn descriptor) hf (keeps_singular_addToValues value)
    (fun _ _ => keeps_singular_of_length (fun _ => Nat.le_of_eq List.length_set))

theorem Stored.addAll {field : FieldDescriptor} (hf : field ∈ schemaFields descriptor)
    {values : List Value} :
    ∀ {message : DynamicMessage}, Stored (schemaFields descriptor) SingularEntry message.fields →
      Stored (schemaFields descriptor) SingularEntry
        (values.foldl (fun m value => m.add field value) message).fields := by
  induction values with
  | nil => intro message h; exact h
  | cons value rest ih => intro message h; exact ih (h.addSingular hf value)

open Classical in
theorem contents_addAll {field : FieldDescriptor} (hf : field ∈ schemaFields descriptor)
    (number : Nat) {values : List Value} :
    ∀ {message : DynamicMessage}, Stored (schemaFields descriptor) SingularEntry message.fields →
      (values.foldl (fun m value => m.add field value) message).contents number
        = if number = field.number then
            values.foldl (storeValue field) (message.contents field.number)
          else if values ≠ [] ∧ displaces descriptor field number then []
          else message.contents number := by
  induction values with
  | nil =>
      intro message _
      simp only [List.foldl_nil, ne_eq, not_true_eq_false, false_and, if_false]
      split
      · next hn => rw [hn]
      · rfl
  | cons value rest ih =>
      intro message h
      rw [List.foldl_cons, ih (h.addSingular hf value), contents_add h hf, contents_add h hf,
        if_pos rfl, List.foldl_cons]
      by_cases hn : number = field.number
      · rw [if_pos hn, if_pos hn]
      · simp only [if_neg hn, ne_eq, reduceCtorEq, not_false_eq_true, true_and]
        by_cases hd : displaces descriptor field number
        · simp only [if_pos hd, ite_self]
        · simp only [hd, and_false, if_false]

/-! ## Merging a message -/

/-- `storeValue` for the field with a number. -/
def storeAt (descriptor : MessageDescriptor) (number : Nat) (values : List Value)
    (value : Value) : List Value :=
  match descriptor.findFieldByNumber number with
  | some field => storeValue field values value
  | none => values

/-- Something is held in another member of the oneof of the field with the number. -/
def displaced (descriptor : MessageDescriptor) (held : Nat → List Value) (number : Nat) : Prop :=
  ∃ field, field ∈ schemaFields descriptor ∧ held field.number ≠ []
    ∧ displaces descriptor field number

open Classical in
/-- The contents after a merge. -/
noncomputable def mergeContents (descriptor : MessageDescriptor) (held added : Nat → List Value)
    (number : Nat) : List Value :=
  (added number).foldl (storeAt descriptor number)
    (if displaced descriptor added number then [] else held number)

theorem storeAt_eq {field : FieldDescriptor} (hf : field ∈ schemaFields descriptor) :
    storeAt descriptor field.number = storeValue field := by
  funext values value
  have hfind : descriptor.findFieldByNumber field.number = some field := hf
  rw [storeAt, hfind]

/-- What an entry in front adds to what is displaced. -/
theorem displaced_cons {entry : FieldValue} {rest : List FieldValue}
    (hd : entry.descriptor ∈ schemaFields descriptor)
    (ha : ∀ other ∈ rest, entry.descriptor.Apart other.descriptor) (number : Nat) :
    displaced descriptor (contentsOf (entry :: rest)) number
      ↔ (entry.values ≠ [] ∧ displaces descriptor entry.descriptor number)
        ∨ displaced descriptor (contentsOf rest) number := by
  have hrest : contentsOf rest entry.descriptor.number = [] :=
    contentsOf_eq_nil (fun other ho hn => absurd hn.symm (ha other ho).1)
  constructor
  · rintro ⟨field, hf, hne, hdis⟩
    rw [contentsOf_cons] at hne
    split at hne
    · next hn =>
      rw [schemaFields_injOn descriptor hd hf hn]
      exact Or.inl ⟨hne, hdis⟩
    · exact Or.inr ⟨field, hf, hne, hdis⟩
  · rintro (⟨hne, hdis⟩ | ⟨field, hf, hne, hdis⟩)
    · exact ⟨_, hd, by rw [contentsOf_cons, if_pos rfl]; exact hne, hdis⟩
    · refine ⟨field, hf, ?_, hdis⟩
      rw [contentsOf_cons]
      split
      · next hn =>
        rw [← hn, hrest] at hne
        exact absurd rfl hne
      · exact hne

/-- What `mergeFields` does to the contents. -/
theorem contents_mergeFields {P : FieldValue → Prop} {entries : List FieldValue} (number : Nat) :
    ∀ {message : DynamicMessage}, Stored (schemaFields descriptor) SingularEntry message.fields →
      Stored (schemaFields descriptor) P entries →
      (message.mergeFields entries).contents number
        = mergeContents descriptor message.contents (contentsOf entries) number := by
  induction entries with
  | nil =>
      intro message _ _
      have hnone : ¬ displaced descriptor (contentsOf []) number := by
        rintro ⟨field, -, hne, -⟩
        exact hne rfl
      rw [mergeContents, if_neg hnone]
      rfl
  | cons entry rest ih =>
      intro message h ho
      have hd := ho.declared entry List.mem_cons_self
      have hapart := ho.apart
      rw [List.map_cons, List.pairwise_cons] at hapart
      have ha : ∀ other ∈ rest, entry.descriptor.Apart other.descriptor :=
        fun other hm => hapart.1 _ (List.mem_map_of_mem hm)
      have hrest := ho.sublist (List.sublist_cons_self entry rest)
      rw [DynamicMessage.mergeFields_eq, List.foldl_cons, ← DynamicMessage.mergeFields_eq,
        ih (h.addAll hd) hrest, mergeContents, mergeContents, contents_addAll hd number h]
      rw [displaced_cons hd ha]
      simp only [contentsOf_cons]
      by_cases hn : entry.descriptor.number = number
      · -- nothing behind the entry has its number or is in its oneof
        subst hn
        have hnil : contentsOf rest entry.descriptor.number = [] :=
          contentsOf_eq_nil (fun other hm hc => absurd hc.symm (ha other hm).1)
        have hnot : ¬ displaced descriptor (contentsOf rest) entry.descriptor.number := by
          rintro ⟨field, hf, hne, hne', other, name, hother, hname, hname'⟩
          have hfind : descriptor.findFieldByNumber entry.descriptor.number
              = some entry.descriptor := hd
          rw [hfind, Option.some.injEq] at hother
          refine hne (contentsOf_eq_nil (fun found hm hnum => ?_))
          have hfound := schemaFields_injOn descriptor (hrest.declared found hm) hf hnum
          have := (ha found hm).2 name (hother ▸ hname')
          exact absurd (hfound ▸ hname) this
        have hself : ¬ displaces descriptor entry.descriptor entry.descriptor.number :=
          fun hc => hc.1 rfl
        simp only [if_true, hnil, List.foldl_nil, hnot, hself, and_false, or_false, if_false,
          storeAt_eq hd]
      · have hn' : ¬ number = entry.descriptor.number := fun hc => hn hc.symm
        simp only [if_neg hn, if_neg hn']
        by_cases hdis : entry.values ≠ [] ∧ displaces descriptor entry.descriptor number
        · simp only [hdis, ne_eq, not_false_eq_true, and_self, if_true, true_or, ite_self]
        · rw [if_neg hdis]
          by_cases hr : displaced descriptor (contentsOf rest) number
          · rw [if_pos hr, if_pos (Or.inr hr)]
          · rw [if_neg hr, if_neg (not_or.mpr ⟨hdis, hr⟩)]

/-- What `mergeFrom` does to the contents. -/
theorem contents_mergeFrom {P : FieldValue → Prop} {message other : DynamicMessage}
    (h : Stored (schemaFields descriptor) SingularEntry message.fields)
    (ho : Stored (schemaFields descriptor) P other.fields) :
    (message.mergeFrom other).contents
      = mergeContents descriptor message.contents other.contents := by
  funext number
  rw [DynamicMessage.mergeFrom_eq]
  exact contents_mergeFields number h ho

end

end Pbz
