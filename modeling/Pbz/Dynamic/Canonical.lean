import Pbz.Dynamic.Deterministic
import Pbz.Dynamic.RoundTrip
import Pbz.Wire.ByteOrder

set_option autoImplicit false

/-! # Deterministic encoding is canonical

Messages that differ only in the order of their entries and of the entries of their maps
(`DynamicMessage.SameAs`) have one canonical form, so the deterministic encoder writes the same
bytes for them; and these bytes are read as the bytes of the plain encoder are, up to that order.
Both need the keys of a map to be told apart by `valueLessThan`, which is an order on the values of
one key type.
-/

namespace Pbz

open StableSort

/-! ## The order of keys -/

section

variable {scalar : ScalarType} {a b c : Value}

theorem valueLessThan_asymm (ha : a.hasScalarType scalar = true)
    (hb : b.hasScalarType scalar = true) (h : valueLessThan a b = true) :
    valueLessThan b a = false := by
  cases a <;> cases b <;> simp only [valueLessThan, Bool.false_eq_true] at h ⊢
  case boolean.boolean v w => cases v <;> cases w <;> simp at h ⊢
  case string.string v w =>
    simp only [decide_eq_true_eq, decide_eq_false_iff_not] at h ⊢
    exact List.lt_asymm h
  all_goals
    simp only [BitVec.slt_eq_decide, BitVec.ult_eq_decide, decide_eq_true_eq,
      decide_eq_false_iff_not] at h ⊢
    omega

theorem valueLessThan_trans (ha : a.hasScalarType scalar = true)
    (hb : b.hasScalarType scalar = true) (hc : c.hasScalarType scalar = true)
    (hab : valueLessThan b a = false) (hbc : valueLessThan c b = false) :
    valueLessThan c a = false := by
  cases scalar <;>
    cases a <;> simp only [Value.hasScalarType, Bool.false_eq_true] at ha <;>
    cases b <;> simp only [Value.hasScalarType, Bool.false_eq_true] at hb <;>
    cases c <;> simp only [Value.hasScalarType, Bool.false_eq_true] at hc <;>
    simp only [valueLessThan] at hab hbc ⊢
  case bool.boolean.boolean.boolean u v w =>
    cases u <;> cases v <;> cases w <;> simp at hab hbc ⊢
  case string.string.string.string u v w =>
    simp only [decide_eq_false_iff_not, List.not_lt] at hab hbc ⊢
    exact List.le_trans hab hbc
  all_goals
    simp only [BitVec.slt_eq_decide, BitVec.ult_eq_decide, decide_eq_false_iff_not] at hab hbc ⊢
    omega

/-- Keys of a key type that are not equal are in order one way or the other. -/
theorem valueEqual_of_not_lessThan (hkey : scalar.validMapKey = true)
    (ha : a.hasScalarType scalar = true) (hb : b.hasScalarType scalar = true)
    (hab : valueLessThan a b = false) (hba : valueLessThan b a = false) :
    valueEqual a b = true := by
  cases scalar <;> simp only [ScalarType.validMapKey, Bool.false_eq_true] at hkey <;>
    cases a <;> simp only [Value.hasScalarType, Bool.false_eq_true] at ha <;>
    cases b <;> simp only [Value.hasScalarType, Bool.false_eq_true] at hb <;>
    simp only [valueLessThan, valueEqual, beq_iff_eq] at hab hba ⊢
  case bool.boolean.boolean v w => cases v <;> cases w <;> simp at hab hba ⊢
  case string.string.string v w =>
    simp only [decide_eq_false_iff_not, List.not_lt] at hab hba
    exact List.le_antisymm hba hab
  all_goals
    simp only [BitVec.slt_eq_decide, BitVec.ult_eq_decide, decide_eq_false_iff_not] at hab hba
    first
    | exact BitVec.eq_of_toInt_eq (by omega)
    | exact BitVec.eq_of_toNat_eq (by omega)

end

/-- Generated code compares string keys by `bytesLessThan`, so it writes them in the same order. -/
theorem bytesLessThan_eq_valueLessThan (native : Wire.Endian) (a b : Bytes) :
    Wire.bytesLessThan native a b = some (valueLessThan (.string a) (.string b)) :=
  Wire.bytesLessThan_eq native a b

/-! ## Messages that differ in their order only -/

mutual

/-- The entries, and the entries of every map, may be in another order, at every level; the unknown
fields of each number are the same. -/
def DynamicMessage.SameAs : DynamicMessage → DynamicMessage → Prop
  | { descriptor, fields, unknownFields }, other =>
      other.descriptor = descriptor
        ∧ (∃ entries, entries.Perm other.fields ∧ SameEntries fields entries)
        ∧ ∀ number, unknownFields.filter (fun unknown => unknown.number == number)
            = other.unknownFields.filter (fun unknown => unknown.number == number)
termination_by structural x => x

/-- The entries, each with the one in its place. -/
def SameEntries : List FieldValue → List FieldValue → Prop
  | [], others => others = []
  | entry :: rest, others => ∃ other tail, others = other :: tail
      ∧ SameEntry entry other ∧ SameEntries rest tail
termination_by structural x => x

def SameEntry : FieldValue → FieldValue → Prop
  | { descriptor, values }, other =>
      other.descriptor = descriptor
        ∧ ∃ others, (if descriptor.kind.isMap then others.Perm other.values
            else others = other.values) ∧ SameValues values others
termination_by structural x => x

def SameValues : List Value → List Value → Prop
  | [], others => others = []
  | value :: rest, others => ∃ other tail, others = other :: tail
      ∧ value.SameAs other ∧ SameValues rest tail
termination_by structural x => x

def Value.SameAs : Value → Value → Prop
  | .message message, other => ∃ m, other = .message m ∧ message.SameAs m
  | .group message, other => ∃ m, other = .group m ∧ message.SameAs m
  | .mapEntry key value, other => ∃ v, other = .mapEntry key v ∧ value.SameAs v
  | value, other => other = value
termination_by structural x => x

end

mutual

/-- The map fields have keys of the types that a map may have, at every level. -/
def DynamicMessage.LegalKeys : DynamicMessage → Prop
  | { descriptor := _, fields, unknownFields := _ } => LegalKeysEntries fields
termination_by structural x => x

def LegalKeysEntries : List FieldValue → Prop
  | [] => True
  | entry :: rest => LegalKeysEntry entry ∧ LegalKeysEntries rest
termination_by structural x => x

def LegalKeysEntry : FieldValue → Prop
  | { descriptor, values } =>
      (∀ keyType valueKind, descriptor.kind = .map keyType valueKind →
        keyType.validMapKey = true) ∧ LegalKeysValues values
termination_by structural x => x

def LegalKeysValues : List Value → Prop
  | [] => True
  | value :: rest => value.LegalKeys ∧ LegalKeysValues rest
termination_by structural x => x

def Value.LegalKeys : Value → Prop
  | .message message => message.LegalKeys
  | .group message => message.LegalKeys
  | .mapEntry _ value => value.LegalKeys
  | _ => True
termination_by structural x => x

end

theorem legalKeysValues_iff {values : List Value} :
    LegalKeysValues values ↔ ∀ value ∈ values, value.LegalKeys := by
  induction values with
  | nil => simp [LegalKeysValues]
  | cons value rest ih => simp [LegalKeysValues, ih]

theorem legalKeysEntries_iff {entries : List FieldValue} :
    LegalKeysEntries entries ↔ ∀ entry ∈ entries, LegalKeysEntry entry := by
  induction entries with
  | nil => simp [LegalKeysEntries]
  | cons entry rest ih => simp [LegalKeysEntries, ih]

/-- A legal value of an entry of a legal message. -/
theorem LegalKeysEntry.value {entry : FieldValue} (h : LegalKeysEntry entry) {value : Value}
    (hv : value ∈ entry.values) : value.LegalKeys := by
  obtain ⟨field, values⟩ := entry
  exact legalKeysValues_iff.mp h.2 value hv

theorem LegalKeysEntry.keyType {entry : FieldValue} (h : LegalKeysEntry entry)
    {keyType : ScalarType} {valueKind : FieldKind}
    (hkind : entry.descriptor.kind = .map keyType valueKind) : keyType.validMapKey = true := by
  obtain ⟨field, values⟩ := entry
  exact h.1 keyType valueKind hkind

theorem DynamicMessage.LegalKeys.entry {message : DynamicMessage} (h : message.LegalKeys)
    {entry : FieldValue} (hm : entry ∈ message.fields) : LegalKeysEntry entry := by
  obtain ⟨descriptor, fields, unknownFields⟩ := message
  exact legalKeysEntries_iff.mp h entry hm

/-! ## The entries of a map -/

/-- Entries of a map: their keys have one legal type and are different. -/
structure MapEntries (keyType : ScalarType) (values : List Value) : Prop where
  legal : keyType.validMapKey = true
  entries : ∀ value ∈ values, ∃ k v, value = .mapEntry k v ∧ k.hasScalarType keyType = true
  distinct : DistinctKeys values

section

variable {keyType : ScalarType} {values : List Value}

theorem MapEntries.strictOrder (h : MapEntries keyType values) :
    StrictOrder mapEntryLessThan values := by
  constructor
  · intro a ha b hb hab
    obtain ⟨k, v, rfl, hk⟩ := h.entries a ha
    obtain ⟨l, w, rfl, hl⟩ := h.entries b hb
    exact valueLessThan_asymm hk hl hab
  · intro a ha b hb c hc hab hbc
    obtain ⟨k, u, rfl, hk⟩ := h.entries a ha
    obtain ⟨l, v, rfl, hl⟩ := h.entries b hb
    obtain ⟨m, w, rfl, hm⟩ := h.entries c hc
    exact valueLessThan_trans hk hl hm hab hbc

theorem MapEntries.apart (h : MapEntries keyType values) : Apart mapEntryLessThan values := by
  have hsymm : Std.Symm KeysApart := ⟨fun _ _ hab => hab.symm⟩
  intro a ha b hb hab hba
  by_contra hne
  have hkeys := h.distinct.forall ha hb hne
  obtain ⟨k, v, rfl, hk⟩ := h.entries a ha
  obtain ⟨l, w, rfl, hl⟩ := h.entries b hb
  have hequal := valueEqual_of_not_lessThan h.legal hk hl hab hba
  have hapart : valueEqual k l = false := hkeys l w rfl
  rw [hequal] at hapart
  simp at hapart

/-- A value keeps its key in the canonical form. -/
theorem distinctKeys_canon (h : DistinctKeys values) : DistinctKeys (values.map Value.canon) := by
  have hkey : ∀ a key : Value, a.canon.hasKey key = a.hasKey key := by
    intro a key
    cases a <;> rfl
  rw [DistinctKeys, List.pairwise_map]
  refine h.imp (fun {a b} hab k v hb => ?_)
  rw [hkey]
  cases b <;> simp only [Value.canon, Value.mapEntry.injEq, reduceCtorEq] at hb
  next k' v' => exact hab k v' (by rw [hb.1])

theorem MapEntries.canon (h : MapEntries keyType values) :
    MapEntries keyType (canonValues values) := by
  rw [canonValues_eq_map]
  refine ⟨h.legal, ?_, distinctKeys_canon h.distinct⟩
  intro value hv
  obtain ⟨a, ha, rfl⟩ := List.mem_map.mp hv
  obtain ⟨k, v, rfl, hk⟩ := h.entries a ha
  exact ⟨k, v.canon, rfl, hk⟩

end

/-! ## One canonical form -/

/-- A value has one canonical form with those that differ in their order only. -/
def CanonUnique (value : Value) : Prop := ∀ other, value.SameAs other → value.canon = other.canon

theorem canonValues_eq {values : List Value} (h : ∀ value ∈ values, CanonUnique value) :
    ∀ {others : List Value}, SameValues values others → canonValues values = canonValues others := by
  induction values with
  | nil =>
      intro others hs
      rw [SameValues] at hs
      rw [hs]
  | cons value rest ih =>
      intro others hs
      rw [SameValues] at hs
      obtain ⟨other, tail, rfl, hvalue, htail⟩ := hs
      rw [canonValues, canonValues, h value List.mem_cons_self other hvalue,
        ih (fun v hv => h v (List.mem_cons_of_mem _ hv)) htail]

theorem canonEntry_eq {entry other : FieldValue} (h : ∀ value ∈ entry.values, CanonUnique value)
    (hmap : ∀ keyType valueKind, entry.descriptor.kind = .map keyType valueKind →
      MapEntries keyType entry.values)
    (hs : SameEntry entry other) : canonEntry entry = canonEntry other := by
  obtain ⟨field, values⟩ := entry
  obtain ⟨field', values'⟩ := other
  rw [SameEntry] at hs
  obtain ⟨rfl, others, hperm, hsame⟩ := hs
  have hvalues := canonValues_eq h hsame
  rw [canonEntry, canonEntry]
  by_cases hm : field'.kind.isMap = true
  · rw [if_pos hm] at hperm
    obtain ⟨keyType, valueKind, hkind⟩ : ∃ keyType valueKind,
        field'.kind = .map keyType valueKind := by
      cases hkind : field'.kind with
      | map keyType valueKind => exact ⟨keyType, valueKind, rfl⟩
      | _ => rw [hkind] at hm; simp [FieldKind.isMap] at hm
    have hentries := (hmap keyType valueKind hkind).canon
    have hcanon : (canonValues values).Perm (canonValues values') := by
      rw [hvalues, canonValues_eq_map, canonValues_eq_map]
      exact hperm.map _
    rw [if_pos hm, if_pos hm, sort_eq_of_perm hentries.strictOrder hentries.apart hcanon]
  · rw [if_neg hm] at hperm
    rw [if_neg hm, if_neg hm, hvalues, hperm]

theorem canonEntries_eq {entries : List FieldValue}
    (h : ∀ entry ∈ entries, ∀ other, SameEntry entry other → canonEntry entry = canonEntry other) :
    ∀ {others : List FieldValue}, SameEntries entries others →
      canonEntries entries = canonEntries others := by
  induction entries with
  | nil =>
      intro others hs
      rw [SameEntries] at hs
      rw [hs]
  | cons entry rest ih =>
      intro others hs
      rw [SameEntries] at hs
      obtain ⟨other, tail, rfl, hentry, htail⟩ := hs
      rw [canonEntries, canonEntries, h entry List.mem_cons_self other hentry,
        ih (fun e he => h e (List.mem_cons_of_mem _ he)) htail]

theorem canon_eq {message other : DynamicMessage}
    (hunique : (message.fields.map (fun entry => entry.descriptor.number)).Nodup)
    (h : ∀ entry ∈ message.fields, ∀ other, SameEntry entry other →
      canonEntry entry = canonEntry other)
    (hs : message.SameAs other) : message.canon = other.canon := by
  obtain ⟨descriptor, fields, unknownFields⟩ := message
  obtain ⟨descriptor', fields', unknownFields'⟩ := other
  rw [DynamicMessage.SameAs] at hs
  obtain ⟨rfl, ⟨entries, hperm, hsame⟩, hunknown⟩ := hs
  have hentries := canonEntries_eq h hsame
  have hnumbers : ((canonEntries fields).map (fun entry => entry.descriptor.number)).Nodup := by
    rw [canonEntries_eq_map, List.map_map]
    convert hunique using 2
    funext entry
    simp only [Function.comp_apply, canonEntry_descriptor]
  have hcanon : (canonEntries fields).Perm (canonEntries fields') := by
    rw [hentries, canonEntries_eq_map, canonEntries_eq_map]
    exact hperm.map _
  rw [DynamicMessage.canon, DynamicMessage.canon]
  congr 1
  · exact sort_eq_of_perm (keyLess_strictOrder _ _) (apart_of_nodup hnumbers) hcanon
  · exact sortByKey_eq_of_filter hunknown

section

variable {registry : Option Registry} {levels : Nat} {file : FileDescriptor}
variable {N : MessageDemand} {E : FileEntryDemand} {I : MessageDemand}

/-- What is typed below has one canonical form. -/
structure BelowUnique (N : MessageDemand) (E : FileEntryDemand) (I : MessageDemand) : Prop where
  message : ∀ file m, N file m → m.LegalKeys → ∀ other, m.SameAs other → m.canon = other.canon
  entry : ∀ file current field keyType valueKind k v,
    E file current field keyType valueKind k v → v.LegalKeys →
      k.hasScalarType keyType = true ∧ CanonUnique v
  item : ∀ file m, I file m → m.LegalKeys → ∀ other, m.SameAs other → m.canon = other.canon

theorem canonUnique_message {m : DynamicMessage}
    (h : ∀ other, m.SameAs other → m.canon = other.canon) : CanonUnique (.message m) := by
  rintro other hs
  obtain ⟨m', rfl, hm⟩ : ∃ m', other = .message m' ∧ m.SameAs m' := hs
  rw [Value.canon, Value.canon, h m' hm]

theorem canonUnique_group {m : DynamicMessage}
    (h : ∀ other, m.SameAs other → m.canon = other.canon) : CanonUnique (.group m) := by
  rintro other hs
  obtain ⟨m', rfl, hm⟩ : ∃ m', other = .group m' ∧ m.SameAs m' := hs
  rw [Value.canon, Value.canon, h m' hm]

/-- A value that holds no message is like itself only. -/
theorem canonUnique_of_scalar {value : Value} {scalar : ScalarType}
    (h : value.hasScalarType scalar = true) : CanonUnique value := by
  intro other hs
  cases value <;>
    first
    | (simp only [Value.SameAs] at hs; rw [hs])
    | (cases scalar <;> simp [Value.hasScalarType] at h)

theorem canonUnique_enumeration (v : BitVec 32) : CanonUnique (.enumeration v) := by
  intro other hs
  obtain rfl : other = .enumeration v := hs
  rfl

theorem BelowUnique.element (hb : BelowUnique N E I) {current : MessageDescriptor}
    {field : FieldDescriptor} {kind : FieldKind} {value : Value}
    (h : ElementTypedWith registry N file current field kind value) (hl : value.LegalKeys) :
    CanonUnique value := by
  cases kind with
  | scalar scalar => exact canonUnique_of_scalar h.hasType
  | enumeration name =>
      cases value <;> simp only [ElementTypedWith] at h
      exact canonUnique_enumeration _
  | message name =>
      cases value <;> simp only [ElementTypedWith] at h
      · exact canonUnique_enumeration _
      · next m => exact canonUnique_message (hb.message _ m h.2 hl)
  | group name => cases value <;> simp only [ElementTypedWith] at h
  | map keyType valueKind => cases value <;> simp only [ElementTypedWith] at h

theorem BelowUnique.value (hb : BelowUnique N E I) {current : MessageDescriptor}
    {field : FieldDescriptor} {value : Value}
    (h : ValueTypedWith registry N E file current field value) (hl : value.LegalKeys) :
    CanonUnique value := by
  unfold ValueTypedWith at h
  cases hkind : field.kind with
  | group name =>
      cases value <;> simp only [hkind, ElementTypedWith] at h
      next m => exact canonUnique_group (hb.message _ m h.nested hl)
  | map keyType valueKind =>
      cases value <;> simp only [hkind, ElementTypedWith] at h
      next k v =>
        obtain ⟨-, hv⟩ := hb.entry _ _ _ _ _ _ _ h hl
        rintro other hs
        obtain ⟨w, rfl, hw⟩ : ∃ w, other = .mapEntry k w ∧ v.SameAs w := hs
        rw [Value.canon, Value.canon, hv w hw]
  | _ =>
      simp only [hkind] at h
      exact hb.element h hl

/-- The values of a typed map field are entries with keys of its type. -/
theorem BelowUnique.mapEntries (hb : BelowUnique N E I) {current : MessageDescriptor}
    {entry : FieldValue} (h : EntryTypedWith registry N E file current entry)
    (hl : LegalKeysEntry entry) {keyType : ScalarType} {valueKind : FieldKind}
    (hkind : entry.descriptor.kind = .map keyType valueKind) :
    MapEntries keyType entry.values := by
  refine ⟨hl.keyType hkind, fun value hv => ?_, h.keys⟩
  have ht := h.typed value hv
  have hlegal := hl.value hv
  unfold ValueTypedWith at ht
  cases value <;> simp only [hkind, ElementTypedWith] at ht
  next k v => exact ⟨k, v, rfl, (hb.entry _ _ _ _ _ _ _ ht hlegal).1⟩

theorem BelowUnique.typed (hb : BelowUnique N E I) {message : DynamicMessage}
    (h : MessageTypedWith registry levels N E I file message) (hl : message.LegalKeys)
    {other : DynamicMessage} (hs : message.SameAs other) : message.canon = other.canon := by
  refine canon_eq h.unique (fun entry hm other hsame => ?_) hs
  have hlegal := hl.entry hm
  cases hset : message.descriptor.messageSetWireFormat with
  | false =>
      have ht := h.entries hset entry hm
      exact canonEntry_eq (fun value hv => hb.value (ht.typed value hv) (hlegal.value hv))
        (fun _ _ hkind => hb.mapEntries ht hlegal hkind) hsame
  | true =>
      have ht := h.items hset entry hm
      refine canonEntry_eq (fun value hv => ?_) (fun keyType valueKind hkind => ?_) hsame
      · obtain ⟨name, m, -, rfl, -, hm⟩ := ht.typed value hv
        exact canonUnique_message (hb.item _ m hm (hlegal.value hv))
      · have hallowed := ht.allowed
        simp [messageSetEntryAllowed, hkind, FieldKind.isMessage] at hallowed

end

/-- At every level what is typed has one canonical form. -/
theorem belowUnique (registry : Option Registry) (levels : Nat) :
    BelowUnique (NestedTypedWith registry levels) (NestedEntryTypedWith registry levels)
      (NestedItemTypedWith registry levels) := by
  induction levels with
  | zero =>
      exact ⟨fun _ _ h => absurd h id, fun _ _ _ _ _ _ _ h => absurd h id,
        fun _ _ h => absurd h id⟩
  | succ levels ih =>
      constructor
      · intro file m h hl other hs
        exact ih.typed h hl hs
      · intro file current field keyType valueKind k v h hl
        exact ⟨h.1.hasType, ih.element h.2 hl⟩
      · exact ih.message

/-! ## The canonical form is typed -/

section

variable {registry : Option Registry} {levels : Nat} {file : FileDescriptor}
variable {N : MessageDemand} {E : FileEntryDemand} {I : MessageDemand}

/-- What is typed below is typed in its canonical form. -/
structure BelowCanon (N : MessageDemand) (E : FileEntryDemand) (I : MessageDemand) : Prop where
  message : ∀ file m, N file m → N file m.canon
  entry : ∀ file current field keyType valueKind k v,
    E file current field keyType valueKind k v →
      E file current field keyType valueKind k v.canon
  item : ∀ file m, I file m → I file m.canon

theorem BelowCanon.element (hb : BelowCanon N E I) {current : MessageDescriptor}
    {field : FieldDescriptor} {kind : FieldKind} {value : Value}
    (h : ElementTypedWith registry N file current field kind value) :
    ElementTypedWith registry N file current field kind value.canon := by
  cases kind with
  | scalar scalar => rw [canon_of_scalar h.hasType]; exact h
  | enumeration name =>
      cases value <;> simp only [ElementTypedWith] at h
      exact h
  | message name =>
      cases value <;> simp only [ElementTypedWith] at h
      · exact h
      · next m =>
        obtain ⟨href, hm⟩ := h
        refine ⟨⟨href.noEnum, ?_⟩, ?_⟩
        · rw [canon_descriptor]
          exact href.resolves
        · rw [canon_descriptor]
          exact hb.message _ m hm
  | group name => cases value <;> simp only [ElementTypedWith] at h
  | map keyType valueKind => cases value <;> simp only [ElementTypedWith] at h

theorem BelowCanon.value (hb : BelowCanon N E I) {current : MessageDescriptor}
    {field : FieldDescriptor} {value : Value}
    (h : ValueTypedWith registry N E file current field value) :
    ValueTypedWith registry N E file current field value.canon := by
  unfold ValueTypedWith at h ⊢
  cases hkind : field.kind with
  | group name =>
      cases value <;> simp only [hkind, ElementTypedWith] at h
      next m =>
        simp only [Value.canon]
        constructor
        · rw [canon_descriptor]
          exact h.resolves
        · rw [canon_descriptor]
          exact h.oneFile
        · rw [canon_descriptor]
          exact hb.message _ m h.nested
  | map keyType valueKind =>
      cases value <;> simp only [hkind, ElementTypedWith] at h
      next k v => exact hb.entry _ _ _ _ _ _ _ h
  | _ =>
      simp only [hkind] at h ⊢
      exact hb.element h

/-- The values of a canonical entry are the canonical values of the entry. -/
theorem mem_canonEntry_values {entry : FieldValue} {value : Value}
    (h : value ∈ (canonEntry entry).values) : ∃ v ∈ entry.values, value = v.canon := by
  obtain ⟨v, hv, rfl⟩ := List.mem_map.mp ((canonEntry_values_perm entry).mem_iff.mp h)
  exact ⟨v, hv, rfl⟩

theorem canonEntry_values_length (entry : FieldValue) :
    (canonEntry entry).values.length = entry.values.length := by
  rw [(canonEntry_values_perm entry).length_eq, List.length_map]

/-- The entries of a canonical message are the canonical entries of the message. -/
theorem canon_fields_perm (message : DynamicMessage) :
    message.canon.fields.Perm (message.fields.map canonEntry) := by
  obtain ⟨descriptor, fields, unknownFields⟩ := message
  rw [DynamicMessage.canon, ← canonEntries_eq_map]
  exact sortByKey_perm _ _

theorem mem_canon_fields {message : DynamicMessage} {entry : FieldValue}
    (h : entry ∈ message.canon.fields) : ∃ e ∈ message.fields, entry = canonEntry e := by
  obtain ⟨e, he, rfl⟩ := List.mem_map.mp ((canon_fields_perm message).mem_iff.mp h)
  exact ⟨e, he, rfl⟩

theorem OneMember.symm {a b : FieldValue} (h : OneMember a b) : OneMember b a :=
  fun hb ha name hname hc => h ha hb name hc hname

theorem canon_oneofs {message : DynamicMessage} (h : message.fields.Pairwise OneMember) :
    message.canon.fields.Pairwise OneMember := by
  have hne : ∀ entry : FieldValue, (canonEntry entry).values ≠ [] → entry.values ≠ [] := by
    intro entry hc he
    apply hc
    apply List.eq_nil_of_length_eq_zero
    rw [canonEntry_values_length, he]
    rfl
  have hmap : (message.fields.map canonEntry).Pairwise OneMember := by
    rw [List.pairwise_map]
    refine h.imp (fun {a b} hab ha hb name => ?_)
    rw [canonEntry_descriptor, canonEntry_descriptor]
    exact hab (hne a ha) (hne b hb) name
  exact hmap.perm (canon_fields_perm message).symm OneMember.symm

theorem canon_unique {message : DynamicMessage}
    (h : (message.fields.map (fun entry => entry.descriptor.number)).Nodup) :
    (message.canon.fields.map (fun entry => entry.descriptor.number)).Nodup := by
  have hperm := (canon_fields_perm message).map (fun entry => entry.descriptor.number)
  rw [hperm.nodup_iff, List.map_map]
  convert h using 2
  funext entry
  simp only [Function.comp_apply, canonEntry_descriptor]

theorem BelowCanon.typed (hb : BelowCanon N E I) {message : DynamicMessage}
    (h : MessageTypedWith registry levels N E I file message) :
    MessageTypedWith registry levels N E I file message.canon := by
  constructor
  · intro hset entry hm
    rw [canon_descriptor] at hset ⊢
    obtain ⟨e, he, rfl⟩ := mem_canon_fields hm
    have ht := h.entries hset e he
    constructor
    · rw [canonEntry_descriptor]; exact ht.found
    · rw [canonEntry_descriptor]; exact ht.number
    · rw [canonEntry_descriptor]; exact ht.targets
    · rw [canonEntry_descriptor]; exact ht.packs
    · intro value hv
      obtain ⟨v, hmem, rfl⟩ := mem_canonEntry_values hv
      rw [canonEntry_descriptor]
      exact hb.value (ht.typed v hmem)
    · rw [canonEntry_descriptor, canonEntry_values_length]; exact ht.singular
    · exact (distinctKeys_canon ht.keys).perm (canonEntry_values_perm e).symm
  · intro hset entry hm
    rw [canon_descriptor] at hset ⊢
    obtain ⟨e, he, rfl⟩ := mem_canon_fields hm
    have ht := h.items hset e he
    constructor
    · rw [canonEntry_descriptor]; exact ht.found
    · rw [canonEntry_descriptor]; exact ht.number
    · rw [canonEntry_descriptor]; exact ht.allowed
    · intro value hv
      obtain ⟨v, hmem, rfl⟩ := mem_canonEntry_values hv
      obtain ⟨name, m, hkind, rfl, hr, hm⟩ := ht.typed v hmem
      refine ⟨name, m.canon, by rw [canonEntry_descriptor]; exact hkind, rfl, ?_, ?_⟩
      · rw [canon_descriptor]; exact hr
      · rw [canon_descriptor]; exact hb.item _ m hm
    · rw [canonEntry_values_length]; exact ht.singular
  · exact canon_unique h.unique
  · exact canon_oneofs h.oneofs
  · intro unknown hu
    rw [canon_descriptor]
    apply h.unknown
    obtain ⟨descriptor, fields, unknownFields⟩ := message
    exact mem_sortByKey.mp hu

end

theorem belowCanon (registry : Option Registry) (levels : Nat) :
    BelowCanon (NestedTypedWith registry levels) (NestedEntryTypedWith registry levels)
      (NestedItemTypedWith registry levels) := by
  induction levels with
  | zero =>
      exact ⟨fun _ _ h => absurd h id, fun _ _ _ _ _ _ _ h => absurd h id,
        fun _ _ h => absurd h id⟩
  | succ levels ih =>
      constructor
      · intro file m h
        exact ih.typed h
      · intro file current field keyType valueKind k v h
        exact ⟨h.1, ih.element h.2⟩
      · exact ih.message

/-! ## What is read back differs in its order only -/

section

variable (registry : Option Registry)

theorem settled_number (descriptor : MessageDescriptor) (unknown : UnknownField) :
    (unknown.settled descriptor).number = unknown.number := by
  unfold UnknownField.settled
  split
  · split
    · split
      · split <;> rfl
      · rfl
    · rfl
  · rfl

/-- The canonical order of the unknown fields does not show for one number. -/
theorem settled_filter (descriptor : MessageDescriptor) (unknownFields : List UnknownField)
    (number : Nat) :
    (unknownFields.map (UnknownField.settled descriptor)).filter
        (fun unknown => unknown.number == number)
      = ((sortUnknownFields unknownFields).map (UnknownField.settled descriptor)).filter
          (fun unknown => unknown.number == number) := by
  have hfilter : ∀ fields : List UnknownField,
      (fields.map (UnknownField.settled descriptor)).filter
          (fun unknown => unknown.number == number)
        = (fields.filter (fun unknown => unknown.number == number)).map
            (UnknownField.settled descriptor) := by
    intro fields
    rw [List.filter_map]
    congr 2
    funext unknown
    simp only [Function.comp_apply, settled_number]
  rw [hfilter, hfilter, sortUnknownFields, filter_sortByKey]

theorem pruneEntriesWith_eq_flatMap (file : FileDescriptor) (current : MessageDescriptor)
    (entries : List FieldValue) :
    pruneEntriesWith registry file current entries
      = entries.flatMap (pruneEntryWith registry file current) := by
  induction entries with
  | nil => rfl
  | cons entry rest ih => rw [pruneEntriesWith, ih, List.flatMap_cons]

theorem sameEntries_append {a b c d : List FieldValue} (h : SameEntries a c)
    (h' : SameEntries b d) : SameEntries (a ++ b) (c ++ d) := by
  induction a generalizing c with
  | nil =>
      rw [SameEntries] at h
      rw [h]
      exact h'
  | cons entry rest ih =>
      rw [SameEntries] at h
      obtain ⟨other, tail, rfl, hentry, htail⟩ := h
      rw [List.cons_append, SameEntries]
      exact ⟨other, tail ++ d, rfl, hentry, ih htail⟩

mutual

/-- Pruning a message and pruning its canonical form give the same up to the order. -/
theorem pruneWith_sameAs (file : FileDescriptor) : ∀ message : DynamicMessage,
    (message.pruneWith registry file).SameAs (message.canon.pruneWith registry file)
  | { descriptor, fields, unknownFields } => by
      rw [DynamicMessage.canon, DynamicMessage.pruneWith, DynamicMessage.pruneWith,
        DynamicMessage.SameAs]
      refine ⟨rfl, ⟨pruneEntriesWith registry file descriptor (canonEntries fields), ?_,
        pruneEntriesWith_same file descriptor fields⟩, settled_filter descriptor unknownFields⟩
      rw [pruneEntriesWith_eq_flatMap, pruneEntriesWith_eq_flatMap]
      exact (sortByKey_perm _ _).symm.flatMap_right _
termination_by structural x => x

theorem pruneEntriesWith_same (file : FileDescriptor) (current : MessageDescriptor) :
    ∀ entries : List FieldValue,
      SameEntries (pruneEntriesWith registry file current entries)
        (pruneEntriesWith registry file current (canonEntries entries))
  | [] => rfl
  | entry :: rest => by
      rw [canonEntries, pruneEntriesWith, pruneEntriesWith]
      exact sameEntries_append (pruneEntryWith_same file current entry)
        (pruneEntriesWith_same file current rest)
termination_by structural x => x

theorem pruneEntryWith_same (file : FileDescriptor) (current : MessageDescriptor) :
    ∀ entry : FieldValue,
      SameEntries (pruneEntryWith registry file current entry)
        (pruneEntryWith registry file current (canonEntry entry))
  | { descriptor := field, values } => by
      have hsame := pruneValuesWith_same (elementFile registry file current field) values
      have hlength : (canonEntry { descriptor := field, values }).values.isEmpty
          = values.isEmpty := by
        rw [(canonEntry_values_perm _).isEmpty_eq, List.isEmpty_map]
      rw [canonEntry] at hlength ⊢
      by_cases hmap : field.kind.isMap = true
      · rw [if_pos hmap] at hlength ⊢
        rw [pruneEntryWith, pruneEntryWith, skipsDefault_of_isMap hmap, skipsDefault_of_isMap hmap,
          show (sort mapEntryLessThan (canonValues values)).isEmpty = values.isEmpty from hlength]
        split
        · rfl
        · rw [SameEntries]
          refine ⟨_, [], rfl, ?_, rfl⟩
          rw [SameEntry]
          refine ⟨rfl, _, ?_, hsame⟩
          rw [if_pos hmap, pruneValuesWith_eq_map, pruneValuesWith_eq_map]
          exact (sort_perm _ _).symm.map _
      · rw [if_neg hmap] at hlength ⊢
        rw [pruneEntryWith, pruneEntryWith, skipsDefault_canon,
          show (canonValues values).isEmpty = values.isEmpty from hlength]
        split
        · rfl
        · rw [SameEntries]
          refine ⟨_, [], rfl, ?_, rfl⟩
          rw [SameEntry]
          refine ⟨rfl, _, ?_, hsame⟩
          rw [if_neg hmap]
termination_by structural x => x

theorem pruneValuesWith_same (file : FileDescriptor) : ∀ values : List Value,
    SameValues (pruneValuesWith registry file values)
      (pruneValuesWith registry file (canonValues values))
  | [] => rfl
  | value :: rest => by
      rw [canonValues, pruneValuesWith, pruneValuesWith, SameValues]
      exact ⟨_, _, rfl, valuePruneWith_sameAs file value, pruneValuesWith_same file rest⟩
termination_by structural x => x

theorem valuePruneWith_sameAs (file : FileDescriptor) : ∀ value : Value,
    (value.pruneWith registry file).SameAs (value.canon.pruneWith registry file)
  | .message message => by
      rw [Value.canon, Value.pruneWith, Value.pruneWith, canon_descriptor, Value.SameAs]
      exact ⟨_, rfl, pruneWith_sameAs _ message⟩
  | .group message => by
      rw [Value.canon, Value.pruneWith, Value.pruneWith, canon_descriptor, Value.SameAs]
      exact ⟨_, rfl, pruneWith_sameAs _ message⟩
  | .mapEntry key value => by
      rw [Value.canon, Value.pruneWith, Value.pruneWith, Value.SameAs]
      exact ⟨_, rfl, valuePruneWith_sameAs file value⟩
  | .double v | .float v | .int32 v | .int64 v | .uint32 v | .uint64 v | .sint32 v | .sint64 v
  | .fixed32 v | .fixed64 v | .sfixed32 v | .sfixed64 v | .boolean v | .string v | .bytes v
  | .enumeration v => rfl
termination_by structural x => x

end

end

def scoresField : FieldDescriptor :=
  { name := ascii "scores", number := 2, cardinality := .repeated,
    kind := .map .int32 (.scalar .int32) }

def titleField : FieldDescriptor :=
  { name := ascii "title", number := 1, cardinality := .optional, kind := .scalar .string }

def boardDescriptor : MessageDescriptor :=
  { name := ascii "Board", fields := [titleField, scoresField] }

def boardFile : FileDescriptor := { messages := [boardDescriptor] }

/-- A board with some scores, its entries in either order, and an unknown field. -/
def boardMessage (titleFirst : Bool) (scores : List Value) : DynamicMessage :=
  let title : FieldValue := { descriptor := titleField, values := [.string (ascii "a")] }
  let entry : FieldValue := { descriptor := scoresField, values := scores }
  { descriptor := boardDescriptor,
    fields := if titleFirst then [title, entry] else [entry, title],
    unknownFields := [{ number := 9, wireType := .varint, data := [0x48, 0x01] }] }

def scoreEntry (key value : BitVec 32) : Value := .mapEntry (.int32 key) (.int32 value)

theorem boardMessage_typed :
    WellTypedWith none boardFile recursionLimit
      (boardMessage false [scoreEntry 2 7, scoreEntry 1 8]) where
  entries := by
    intro _ entry he
    simp only [boardMessage, Bool.false_eq_true, if_false, List.mem_cons, List.not_mem_nil,
      or_false] at he
    rcases he with rfl | rfl
    · refine ⟨rfl, ⟨by decide, by decide⟩, rfl, fun _ => rfl, ?_, ?_, ?_⟩
      · intro value hv
        simp only [List.mem_cons, List.not_mem_nil, or_false] at hv
        rcases hv with rfl | rfl <;>
          exact ⟨⟨rfl, fun _ hs => by simp at hs⟩, ⟨rfl, fun _ hs => by simp at hs⟩⟩
      · exact fun h => absurd h (by decide)
      · refine List.pairwise_pair.mpr (fun k v hv => ?_)
        simp only [scoreEntry, Value.mapEntry.injEq] at hv
        rw [← hv.1]
        decide
    · refine ⟨rfl, ⟨by decide, by decide⟩, rfl, fun _ => rfl, ?_, fun _ => Nat.le_refl _,
        List.pairwise_singleton _ _⟩
      intro value hv
      rw [List.mem_singleton] at hv
      subst hv
      exact ⟨rfl, fun _ _ hs => absurd hs (by decide)⟩
  items := fun h => absurd h (by decide)
  unique := show [scoresField.number, titleField.number].Nodup by decide
  oneofs := by
    refine List.pairwise_pair.mpr (fun _ _ name h => ?_)
    simp [scoresField] at h
  unknown := by
    intro unknown hu
    simp only [boardMessage, List.mem_singleton] at hu
    subst hu
    refine ⟨[0x48, 0x01], rfl, fun endGroup rest => ?_⟩
    have hread : readFieldAt none recursionLimit boardFile endGroup boardDescriptor
        ([0x48, 0x01] ++ rest)
        = { actions := [.unknown [⟨9, .varint, consumed ([0x48, 0x01] ++ rest) rest⟩]],
            ending := .next rest } := by
      rw [readFieldAt, readField, show ([0x48, 0x01] : Bytes) ++ rest
        = writeVarint (9 * 8 + WireType.varint.toNat) ++ (writeVarint 1 ++ rest) from rfl,
        nextTag_tag ⟨by decide, by decide⟩]
      have hfield : fieldForNumber none boardDescriptor 9 = none := rfl
      have hset : boardDescriptor.messageSetWireFormat = false := rfl
      simp only [reduceCtorEq, if_false, hset, Bool.false_and, Bool.false_eq_true, hfield,
        skipValue, skipWith, readVarint_writeVarint (show 1 < 2 ^ 64 by omega), restOf]
    have happ := consumed_append [0x48, 0x01] [] rest
    rw [List.nil_append] at happ
    rw [happ] at hread
    exact hread

end Pbz
