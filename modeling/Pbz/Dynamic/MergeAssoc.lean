import Pbz.Dynamic.Meaning

set_option autoImplicit false

/-! # Merging is associative

`senses_mergeFrom_add` is the core: adding a value to a message and merging the result into another
one is merging first and adding the value then. From it, by induction on the values of a message,
merging is associative up to meaning, and by induction on the levels of nesting it is so for
messages within messages (`mergeLaws`).
-/

namespace Pbz

/-! ## Adding one value after the other -/

/-- The values that entries hold, each with its field. -/
def pairsOf (entries : List FieldValue) : List (FieldDescriptor × Value) :=
  entries.flatMap (fun entry => entry.values.map (fun value => (entry.descriptor, value)))

def DynamicMessage.addPairs (message : DynamicMessage)
    (pairs : List (FieldDescriptor × Value)) : DynamicMessage :=
  pairs.foldl (fun m pair => m.add pair.1 pair.2) message

@[simp] theorem addPairs_nil (message : DynamicMessage) : message.addPairs [] = message := rfl

@[simp] theorem addPairs_cons (message : DynamicMessage) (pair : FieldDescriptor × Value)
    (pairs : List (FieldDescriptor × Value)) :
    message.addPairs (pair :: pairs) = (message.add pair.1 pair.2).addPairs pairs := rfl

theorem addPairs_append (message : DynamicMessage) (a b : List (FieldDescriptor × Value)) :
    message.addPairs (a ++ b) = (message.addPairs a).addPairs b := List.foldl_append

theorem addPairs_field (message : DynamicMessage) (field : FieldDescriptor)
    (values : List Value) :
    message.addPairs (values.map (fun value => (field, value)))
      = values.foldl (fun m value => m.add field value) message := by
  rw [DynamicMessage.addPairs, List.foldl_map]

theorem mergeFields_eq_addPairs (message : DynamicMessage) (entries : List FieldValue) :
    message.mergeFields entries = message.addPairs (pairsOf entries) := by
  rw [DynamicMessage.mergeFields_eq]
  induction entries generalizing message with
  | nil => rfl
  | cons entry rest ih =>
      rw [List.foldl_cons, ih, ← addPairs_field, ← addPairs_append]
      rfl

@[simp] theorem addPairs_descriptor (message : DynamicMessage)
    (pairs : List (FieldDescriptor × Value)) :
    (message.addPairs pairs).descriptor = message.descriptor := by
  induction pairs generalizing message with
  | nil => rfl
  | cons pair rest ih => rw [addPairs_cons, ih, add_descriptor]

theorem add_unknownFields (message : DynamicMessage) (field : FieldDescriptor) (value : Value) :
    (message.add field value).unknownFields = message.unknownFields := by
  rw [DynamicMessage.add]
  cases h : message.mergeSingularMessageValue field value with
  | none =>
      simp only [DynamicMessage.insert, DynamicMessage.leaveOneof]
      cases field.oneofName <;> rfl
  | some merged =>
      obtain ⟨-, v, rfl⟩ := DynamicMessage.mergeSingularMessageValue_eq_some h
      rfl

@[simp] theorem addPairs_unknownFields (message : DynamicMessage)
    (pairs : List (FieldDescriptor × Value)) :
    (message.addPairs pairs).unknownFields = message.unknownFields := by
  induction pairs generalizing message with
  | nil => rfl
  | cons pair rest ih => rw [addPairs_cons, ih, add_unknownFields]

theorem mergeFrom_unknownFields (message other : DynamicMessage) :
    (message.mergeFrom other).unknownFields = message.unknownFields ++ other.unknownFields := by
  rw [DynamicMessage.mergeFrom_eq, mergeFields_eq_addPairs]
  simp only [addPairs_unknownFields]

/-- Apart from the unknown fields, merging is adding the values. -/
theorem mergeFrom_fields (message other : DynamicMessage) :
    (message.mergeFrom other).fields = (message.addPairs (pairsOf other.fields)).fields := by
  rw [DynamicMessage.mergeFrom_eq, mergeFields_eq_addPairs]

theorem senses_mergeFrom (message other : DynamicMessage) :
    (message.mergeFrom other).senses = (message.addPairs (pairsOf other.fields)).senses := by
  funext number
  rw [DynamicMessage.senses, DynamicMessage.senses, DynamicMessage.contents,
    DynamicMessage.contents, mergeFrom_fields]

section

variable {nested : DynamicMessage → Prop} {file : FileDescriptor}

/-- A value with a field of the message type that may hold it. -/
def PairFits (nested : DynamicMessage → Prop) (file : FileDescriptor)
    (current : MessageDescriptor) (pair : FieldDescriptor × Value) : Prop :=
  pair.1 ∈ schemaFields current ∧ ValueFits nested file current pair.1 pair.2

theorem pairsOf_fits {message : DynamicMessage} (h : MessageFits nested file message) :
    ∀ pair ∈ pairsOf message.fields, PairFits nested file message.descriptor pair := by
  intro pair hp
  simp only [pairsOf, List.mem_flatMap, List.mem_map] at hp
  obtain ⟨entry, he, value, hv, rfl⟩ := hp
  exact ⟨h.stored.declared entry he, (h.stored.entries entry he).values value hv⟩

/-! ## What fits, and what means the same -/

theorem add_fits (hmerge : MergeFits nested) {message : DynamicMessage}
    (h : MessageFits nested file message) {field : FieldDescriptor} {value : Value}
    (hp : PairFits nested file message.descriptor (field, value)) :
    MessageFits nested file (message.add field value) := by
  constructor
  · rw [add_descriptor]
    exact h.declared
  · rw [add_descriptor]
    have hcontents := h.stored.contents (entryFits_nil nested file message.descriptor) hp.1
    exact h.stored.store h.stored.singular (entryFits_nil nested file message.descriptor) hp.1
      (storeValue_fits hmerge hcontents hp.2)

theorem addPairs_fits (hmerge : MergeFits nested) {pairs : List (FieldDescriptor × Value)} :
    ∀ {message : DynamicMessage}, MessageFits nested file message →
      (∀ pair ∈ pairs, PairFits nested file message.descriptor pair) →
      MessageFits nested file (message.addPairs pairs) := by
  induction pairs with
  | nil => intro message h _; exact h
  | cons pair rest ih =>
      intro message h hp
      refine ih (add_fits hmerge h (hp pair List.mem_cons_self)) (fun p hm => ?_)
      rw [add_descriptor]
      exact hp p (List.mem_cons_of_mem _ hm)

theorem mergeFrom_fits (hmerge : MergeFits nested) {a b : DynamicMessage}
    (ha : MessageFits nested file a) (hb : MessageFits nested file b)
    (hd : a.descriptor = b.descriptor) : MessageFits nested file (a.mergeFrom b) := by
  have hadded := addPairs_fits hmerge ha (hd ▸ pairsOf_fits hb)
  refine ⟨mergeFrom_descriptor a b ▸ ha.declared, ?_⟩
  rw [mergeFrom_fields, mergeFrom_descriptor]
  have hstored := hadded.stored
  rw [addPairs_descriptor] at hstored
  exact hstored

theorem senses_add_congr (hcongr : MergeCongr nested) {a b : DynamicMessage}
    (ha : MessageFits nested file a) (hb : MessageFits nested file b)
    (hd : a.descriptor = b.descriptor) (heq : a.senses = b.senses) {field : FieldDescriptor}
    {value : Value} (hp : PairFits nested file a.descriptor (field, value)) :
    (a.add field value).senses = (b.add field value).senses := by
  have hb' := hb.stored
  rw [← hd] at hb'
  funext number
  rw [DynamicMessage.senses, DynamicMessage.senses, contents_add ha.stored.singular hp.1,
    contents_add hb'.singular hp.1]
  split
  · exact storeValue_congr hcongr (ha.stored.contents (entryFits_nil _ _ _) hp.1)
      (hb'.contents (entryFits_nil _ _ _) hp.1) (congrFun heq field.number) hp.2
  · split
    · rfl
    · exact congrFun heq number

theorem senses_addPairs_congr (hmerge : MergeFits nested) (hcongr : MergeCongr nested)
    {pairs : List (FieldDescriptor × Value)} :
    ∀ {a b : DynamicMessage}, MessageFits nested file a → MessageFits nested file b →
      a.descriptor = b.descriptor → a.senses = b.senses →
      (∀ pair ∈ pairs, PairFits nested file a.descriptor pair) →
      (a.addPairs pairs).senses = (b.addPairs pairs).senses := by
  induction pairs with
  | nil => intro a b _ _ _ heq _; exact heq
  | cons pair rest ih =>
      intro a b ha hb hd heq hp
      have hpair := hp pair List.mem_cons_self
      refine ih (add_fits hmerge ha hpair) (add_fits hmerge hb (hd ▸ hpair)) ?_
        (senses_add_congr hcongr ha hb hd heq hpair) (fun p hm => ?_)
      · rw [add_descriptor, add_descriptor, hd]
      · rw [add_descriptor]
        exact hp p (List.mem_cons_of_mem _ hm)

/-! ## Adding before and after a merge -/

theorem foldl_storeValue_repeated {field : FieldDescriptor} (hm : field.kind.isMap = false)
    (hr : field.isRepeatedLike = true) (values added : List Value) :
    added.foldl (storeValue field) values = values ++ added := by
  induction added generalizing values with
  | nil => simp
  | cons value rest ih => rw [List.foldl_cons, storeValue_of_repeated hm hr, ih]; simp

theorem foldl_storeValue_map {field : FieldDescriptor} (hm : field.kind.isMap = true)
    (values added : List Value) :
    added.foldl (storeValue field) values = added.foldl (Upsert.upsert sameKey) values :=
  List.foldl_ext _ _ _ (fun values value _ => by
    rw [storeValue_of_isMap hm, putMapEntry_eq])

/-- In one field: storing into the values that are added later, or storing last. -/
theorem foldl_storeValue_assoc (hassoc : MergeAssoc nested) {current : MessageDescriptor}
    {field : FieldDescriptor} {held added : List Value}
    (hheld : EntryFits nested file current { descriptor := field, values := held })
    (hadded : EntryFits nested file current { descriptor := field, values := added })
    {value : Value} (hv : ValueFits nested file current field value) :
    ((storeValue field added value).foldl (storeValue field) held).map Value.meaning
      = (storeValue field (added.foldl (storeValue field) held) value).map Value.meaning := by
  cases hm : field.kind.isMap with
  | true =>
      have hkeys := distinctKeys_iff.mp (hadded.invariant.keys hm)
      rw [foldl_storeValue_map hm, foldl_storeValue_map hm, storeValue_of_isMap hm,
        storeValue_of_isMap hm, putMapEntry_eq, putMapEntry_eq,
        Upsert.foldl_upsert_upsert sameKey_partialKey hkeys]
  | false =>
      cases hr : field.isRepeatedLike with
      | true =>
          simp only [foldl_storeValue_repeated hm hr, storeValue_of_repeated hm hr,
            List.append_assoc]
      | false =>
          have hlen : added.length ≤ 1 := hadded.invariant.singular hr
          have hlen' : held.length ≤ 1 := hheld.invariant.singular hr
          match added, hlen with
          | [], _ =>
              simp only [storeValue_of_singular hr, List.foldl_cons, List.foldl_nil,
                mergedValue_nil]
          | [first], _ =>
              have hfirst := hadded.values first List.mem_cons_self
              simp only [storeValue_of_singular hr, List.foldl_cons, List.foldl_nil,
                List.map_singleton]
              match held, hlen' with
              | [], _ => simp only [mergedValue_nil]
              | [old], _ =>
                  have hold := hheld.values old List.mem_cons_self
                  rcases valueFits_cases hfirst hv with
                    ⟨y, z, rfl, rfl⟩ | ⟨y, z, rfl, rfl⟩ | hh
                  · obtain ⟨x, rfl⟩ : ∃ x, old = .message x := by
                      rcases valueFits_cases hold hfirst with ⟨x, _, rfl, _⟩ | ⟨_, _, _, hc⟩ | hc
                      · exact ⟨x, rfl⟩
                      · simp at hc
                      · rw [holdsMessage_of_message hfirst] at hc
                        simp at hc
                    have hs := shouldMerge_of_holdsMessage hr (holdsMessage_of_message hfirst)
                    have hd := valueFits_message_descriptor hold hfirst
                    have hd' := valueFits_message_descriptor hfirst hv
                    obtain ⟨-, -, -, -, hx⟩ := hold
                    obtain ⟨-, -, -, -, hy⟩ := hfirst
                    obtain ⟨-, -, -, -, hz⟩ := hv
                    simp only [mergedValue_message hs, Value.meaning,
                      hassoc x y z hx hy hz hd hd']
                  · obtain ⟨x, rfl⟩ : ∃ x, old = .group x := by
                      rcases valueFits_cases hold hfirst with ⟨_, _, _, hc⟩ | ⟨x, _, rfl, _⟩ | hc
                      · simp at hc
                      · exact ⟨x, rfl⟩
                      · rw [holdsMessage_of_group hfirst] at hc
                        simp at hc
                    have hs := shouldMerge_of_holdsMessage hr (holdsMessage_of_group hfirst)
                    have hd := valueFits_group_descriptor hold hfirst
                    have hd' := valueFits_group_descriptor hfirst hv
                    obtain ⟨-, -, -, hx⟩ := hold
                    obtain ⟨-, -, -, hy⟩ := hfirst
                    obtain ⟨-, -, -, hz⟩ := hv
                    simp only [mergedValue_group hs, Value.meaning, hassoc x y z hx hy hz hd hd']
                  · simp only [mergedValue_plain hv hh]

theorem storeValue_ne_nil (field : FieldDescriptor) (values : List Value) (value : Value) :
    storeValue field values value ≠ [] := by
  rw [storeValue]
  split
  · rw [putMapEntry_eq]
    exact Upsert.upsert_ne_nil values value
  · split <;> simp

theorem displaces_symm {descriptor : MessageDescriptor} {a b : FieldDescriptor}
    (ha : a ∈ schemaFields descriptor) (hb : b ∈ schemaFields descriptor)
    (h : displaces descriptor a b.number) : displaces descriptor b a.number := by
  obtain ⟨hne, other, name, hother, hname, hname'⟩ := h
  have hfind : descriptor.findFieldByNumber b.number = some b := hb
  rw [hfind, Option.some.injEq] at hother
  exact ⟨fun hc => hne hc.symm, a, name, ha, hother ▸ hname', hname⟩

/-- Two fields that displace a third one displace each other, unless they are the same. -/
theorem displaces_trans {descriptor : MessageDescriptor} {a b : FieldDescriptor} {number : Nat}
    (ha : a ∈ schemaFields descriptor) (hne : number ≠ b.number)
    (h : displaces descriptor a number) (hab : displaces descriptor b a.number) :
    displaces descriptor b number := by
  obtain ⟨-, other, name, hother, hname, hname'⟩ := h
  obtain ⟨-, mid, name', hmid, hb, hmid'⟩ := hab
  have hfind : descriptor.findFieldByNumber a.number = some a := ha
  rw [hfind, Option.some.injEq] at hmid
  rw [← hmid, hname, Option.some.injEq] at hmid'
  exact ⟨hne, other, name', hother, hb, hmid' ▸ hname'⟩

theorem Stored.addPairs {descriptor : MessageDescriptor}
    {pairs : List (FieldDescriptor × Value)} : ∀ {message : DynamicMessage},
      Stored (schemaFields descriptor) SingularEntry message.fields →
      (∀ pair ∈ pairs, pair.1 ∈ schemaFields descriptor) →
      Stored (schemaFields descriptor) SingularEntry (message.addPairs pairs).fields := by
  induction pairs with
  | nil => intro message h _; exact h
  | cons pair rest ih =>
      intro message h hpairs
      exact ih (h.addSingular (hpairs pair List.mem_cons_self) pair.2)
        (fun p hp => hpairs p (List.mem_cons_of_mem _ hp))

section Displaced

variable {descriptor : MessageDescriptor} {message : DynamicMessage} {field : FieldDescriptor}
  {value : Value} {number : Nat}

/-- Nothing that displaces a field is left behind it. -/
theorem not_displaced_add (h : Stored (schemaFields descriptor) SingularEntry message.fields)
    (hf : field ∈ schemaFields descriptor) :
    ¬ displaced descriptor (message.add field value).contents field.number := by
  rintro ⟨other, ho, hne, hdis⟩
  have hback := displaces_symm ho hf hdis
  rw [contents_add h hf, if_neg hback.1, if_pos hback] at hne
  exact hne rfl

theorem displaced_add_of_displaces
    (h : Stored (schemaFields descriptor) SingularEntry message.fields)
    (hf : field ∈ schemaFields descriptor) (hdis : displaces descriptor field number) :
    displaced descriptor (message.add field value).contents number := by
  refine ⟨field, hf, ?_, hdis⟩
  rw [contents_add h hf, if_pos rfl]
  exact storeValue_ne_nil field _ value

/-- A field that does not displace `number` changes nothing for it. -/
theorem displaced_add_iff (h : Stored (schemaFields descriptor) SingularEntry message.fields)
    (hf : field ∈ schemaFields descriptor) (hn : number ≠ field.number)
    (hdis : ¬ displaces descriptor field number) :
    displaced descriptor (message.add field value).contents number
      ↔ displaced descriptor message.contents number := by
  have hof {other : FieldDescriptor} (ho : other ∈ schemaFields descriptor)
      (hother : displaces descriptor other number) : other.number ≠ field.number := by
    intro hof
    rw [schemaFields_injOn descriptor ho hf hof] at hother
    exact hdis hother
  constructor
  · rintro ⟨other, ho, hne, hother⟩
    rw [contents_add h hf, if_neg (hof ho hother)] at hne
    split at hne
    · exact absurd rfl hne
    · exact ⟨other, ho, hne, hother⟩
  · rintro ⟨other, ho, hne, hother⟩
    refine ⟨other, ho, ?_, hother⟩
    rw [contents_add h hf, if_neg (hof ho hother),
      if_neg (fun hc => hdis (displaces_trans ho hn hother hc))]
    exact hne

end Displaced

/-- Adding a value and merging the result is merging and adding the value. -/
theorem senses_mergeFrom_add (hassoc : MergeAssoc nested) {a b : DynamicMessage}
    (ha : MessageFits nested file a) (hb : MessageFits nested file b)
    (hd : a.descriptor = b.descriptor) (hplain : PlainOneofs file a.descriptor)
    {field : FieldDescriptor} {value : Value}
    (hp : PairFits nested file a.descriptor (field, value)) :
    (a.mergeFrom (b.add field value)).senses = ((a.mergeFrom b).add field value).senses := by
  obtain ⟨hf, hv⟩ := hp
  have hsa := ha.stored.singular
  have hb' := hb.stored
  rw [← hd] at hb'
  have hsb := hb'.singular
  have hmerged : Stored (schemaFields a.descriptor) SingularEntry (a.mergeFrom b).fields := by
    rw [mergeFrom_fields]
    refine hsa.addPairs fun pair hp => ?_
    rw [hd]
    exact (pairsOf_fits hb pair hp).1
  funext number
  rw [DynamicMessage.senses, DynamicMessage.senses, contents_add hmerged hf,
    contents_mergeFrom hsa (hsb.addSingular hf value), contents_mergeFrom hsa hsb, mergeContents,
    contents_add hsb hf]
  by_cases hn : number = field.number
  · -- the field itself: nothing that displaces it is left in the second message
    subst hn
    rw [if_pos rfl, if_pos rfl, if_neg (not_displaced_add hsb hf), mergeContents, storeAt_eq hf]
    by_cases hdis : displaced a.descriptor b.contents field.number
    · obtain ⟨other, ho, -, -, found, name, hfound, hname, hname'⟩ := hdis
      have hfind : a.descriptor.findFieldByNumber field.number = some field := hf
      rw [hfind, Option.some.injEq] at hfound
      obtain ⟨hs, hh⟩ := hplain field hf (by rw [hfound, hname']; simp)
      simp only [storeValue_of_singular hs, mergedValue_plain hv hh, List.foldl_cons,
        List.foldl_nil]
    · rw [if_neg hdis]
      exact foldl_storeValue_assoc hassoc (ha.stored.contents (entryFits_nil _ _ _) hf)
        (hb'.contents (entryFits_nil _ _ _) hf) hv
  · rw [if_neg hn, if_neg hn]
    by_cases hdis : displaces a.descriptor field number
    · rw [if_pos hdis, if_pos hdis, if_pos (displaced_add_of_displaces hsb hf hdis)]
      rfl
    · rw [if_neg hdis, if_neg hdis, mergeContents]
      have hiff : displaced a.descriptor (b.add field value).contents number
          ↔ displaced a.descriptor b.contents number := displaced_add_iff hsb hf hn hdis
      by_cases hdisplaced : displaced a.descriptor b.contents number
      · rw [if_pos hdisplaced, if_pos (hiff.mpr hdisplaced)]
      · rw [if_neg hdisplaced, if_neg (fun hc => hdisplaced (hiff.mp hc))]

theorem senses_mergeFrom_addPairs (hmerge : MergeFits nested) (hcongr : MergeCongr nested)
    (hassoc : MergeAssoc nested) {a : DynamicMessage} (ha : MessageFits nested file a)
    (hplain : PlainOneofs file a.descriptor) {pairs : List (FieldDescriptor × Value)} :
    ∀ {b : DynamicMessage}, MessageFits nested file b → a.descriptor = b.descriptor →
      (∀ pair ∈ pairs, PairFits nested file a.descriptor pair) →
      (a.mergeFrom (b.addPairs pairs)).senses = ((a.mergeFrom b).addPairs pairs).senses := by
  induction pairs with
  | nil => intro b _ _ _; rfl
  | cons pair rest ih =>
      intro b hb hd hp
      have hpair := hp pair List.mem_cons_self
      have hrest : ∀ p ∈ rest, PairFits nested file a.descriptor p :=
        fun p hm => hp p (List.mem_cons_of_mem _ hm)
      have hadd := add_fits hmerge hb (hd ▸ hpair)
      have hd' : a.descriptor = (b.add pair.1 pair.2).descriptor := by rw [add_descriptor, hd]
      have hmerged := mergeFrom_fits hmerge ha hb hd
      have hpair' : PairFits nested file (a.mergeFrom b).descriptor pair := by
        rw [mergeFrom_descriptor]
        exact hpair
      rw [addPairs_cons, addPairs_cons, ih hadd hd' hrest]
      refine senses_addPairs_congr hmerge hcongr (mergeFrom_fits hmerge ha hadd hd')
        (add_fits hmerge hmerged hpair') ?_ (senses_mergeFrom_add hassoc ha hb hd hplain hpair) ?_
      · rw [mergeFrom_descriptor, add_descriptor, mergeFrom_descriptor]
      · rw [mergeFrom_descriptor]
        exact hrest

/-! ## All levels -/

theorem mergeCongr_of_nested (hmerge : MergeFits nested) (hcongr : MergeCongr nested) :
    MergeCongr (MessageFits nested file) := by
  intro a a' b ha ha' hb hd heq
  have hdesc : a.descriptor = a'.descriptor := by
    cases a; cases a'
    simp only [DynamicMessage.meaning, MessageMeaning.mk.injEq] at heq
    exact heq.1
  have hunknown : a.unknownFields = a'.unknownFields := by
    cases a; cases a'
    simp only [DynamicMessage.meaning, MessageMeaning.mk.injEq] at heq
    exact heq.2.1
  have hm := (mergeFrom_fits hmerge ha hb hd).stored
  have hm' := (mergeFrom_fits hmerge ha' hb (hdesc ▸ hd)).stored
  rw [mergeFrom_descriptor] at hm hm'
  rw [← hdesc] at hm'
  refine meaning_of_senses hm hm' ?_ ?_ ?_
  · rw [mergeFrom_descriptor, mergeFrom_descriptor, hdesc]
  · rw [mergeFrom_unknownFields, mergeFrom_unknownFields, hunknown]
  · rw [senses_mergeFrom, senses_mergeFrom]
    exact senses_addPairs_congr hmerge hcongr ha ha' hdesc (senses_of_meaning heq)
      (hd ▸ pairsOf_fits hb)

theorem mergeAssoc_of_nested (hmerge : MergeFits nested) (hcongr : MergeCongr nested)
    (hassoc : MergeAssoc nested)
    (hplain : ∀ current, DeclaredIn file current → PlainOneofs file current) :
    MergeAssoc (MessageFits nested file) := by
  intro a b c ha hb hc hab hbc
  have hpairs : ∀ pair ∈ pairsOf c.fields, PairFits nested file a.descriptor pair := by
    rw [hab, hbc]
    exact pairsOf_fits hc
  have hright := (mergeFrom_fits hmerge ha (mergeFrom_fits hmerge hb hc hbc)
    (by rw [mergeFrom_descriptor, hab])).stored
  have hleft := (mergeFrom_fits hmerge (mergeFrom_fits hmerge ha hb hab) hc
    (by rw [mergeFrom_descriptor, hab, hbc])).stored
  simp only [mergeFrom_descriptor] at hright hleft
  refine meaning_of_senses hright hleft ?_ ?_ ?_
  · simp only [mergeFrom_descriptor]
  · simp only [mergeFrom_unknownFields, List.append_assoc]
  · have hinner : (a.mergeFrom (b.mergeFrom c)).senses
        = (a.mergeFrom (b.addPairs (pairsOf c.fields))).senses := by
      rw [senses_mergeFrom, senses_mergeFrom, mergeFrom_fields]
    rw [hinner, senses_mergeFrom_addPairs hmerge hcongr hassoc ha (hplain _ ha.declared) hb hab
      hpairs, senses_mergeFrom (a.mergeFrom b) c]

end

/-- What holds of merging at every level of nesting. -/
theorem mergeLaws {file : FileDescriptor}
    (hplain : ∀ current, DeclaredIn file current → PlainOneofs file current) (levels : Nat) :
    MergeFits (Fits file levels) ∧ MergeCongr (Fits file levels)
      ∧ MergeAssoc (Fits file levels) := by
  induction levels with
  | zero =>
      exact ⟨fun _ _ h => absurd h id, fun _ _ _ h => absurd h id, fun _ _ _ h => absurd h id⟩
  | succ levels ih =>
      obtain ⟨hmerge, hcongr, hassoc⟩ := ih
      exact ⟨fun a b ha hb hd => mergeFrom_fits hmerge ha hb hd,
        mergeCongr_of_nested hmerge hcongr, mergeAssoc_of_nested hmerge hcongr hassoc hplain⟩

end Pbz
