import Mathlib.Data.Prod.Lex
import Mathlib.Data.List.Lex
import Pbz.Lib.StableSort
import Pbz.Wire.Reader

set_option autoImplicit false

/-! # Raw fields in a deterministic order

`writeRawFieldsDeterministic` of `wire.zig`: preserved raw fields are written in the order of their
numbers, then wire types, then bytes. Fields that `validateRawField` accepts start with a tag, and
on those and the empty ones the comparison is the order of a key that tells them all apart.
-/

namespace Pbz

open StableSort

/-! ## Writing -/

def validateRawField (raw : Bytes) : Except Error Unit :=
  match nextTag raw with
  | .error e => .error e
  | .ok none => .error .invalidWireType
  | .ok (some (tag, rest)) =>
      match skipValue recursionLimit tag rest with
      | .error e => .error e
      | .ok rest => if rest.isEmpty then .ok () else .error .invalidWireType

def rawFieldFirstTag (raw : Bytes) : Option Tag :=
  match readVarint raw with
  | .error _ => none
  | .ok (value, rest) =>
      if raw.length - rest.length > 5 then none else (Tag.decode value).toOption

/-- `deterministicRawFieldIndexLessThan` on the fields that stand at the two indexes. -/
def deterministicRawFieldLessThan (a b : Bytes) : Bool :=
  match rawFieldFirstTag a, rawFieldFirstTag b with
  | some tagA, some tagB =>
      if tagA.number ≠ tagB.number then decide (tagA.number < tagB.number)
      else if tagA.wireType ≠ tagB.wireType then
        decide (tagA.wireType.toNat < tagB.wireType.toNat)
      else decide (a < b)
  | _, _ => decide (a < b)

def deterministicRawFieldIndexLessThan (fields : List Bytes) (a b : Nat) : Bool :=
  deterministicRawFieldLessThan (fields.getD a []) (fields.getD b [])

def deterministicRawFieldIndexes (fields : List Bytes) : List Nat :=
  sort (deterministicRawFieldIndexLessThan fields) (List.range fields.length)

/-- The bytes that are appended; the variant that assumes capacity appends the same. -/
def writeRawFieldsDeterministic (fields : List Bytes) : Bytes :=
  match fields with
  | [] => []
  | [field] => field
  | _ => (deterministicRawFieldIndexes fields).flatMap (fun index => fields.getD index [])

/-! ## The order -/

/-- What raw fields are ordered by: their number, wire type and bytes. An empty one has no tag and
comes first. -/
def rawFieldKey (raw : Bytes) : Nat ×ₗ Nat ×ₗ List Nat :=
  match rawFieldFirstTag raw with
  | none => toLex (0, toLex (0, raw.map UInt8.toNat))
  | some tag => toLex (tag.number, toLex (tag.wireType.toNat, raw.map UInt8.toNat))

def WritableRawField (raw : Bytes) : Prop := raw = [] ∨ validateRawField raw = .ok ()

theorem rawFieldFirstTag_nil : rawFieldFirstTag [] = none := rfl

theorem rawFieldFirstTag_of_nextTag {raw rest : Bytes} {tag : Tag}
    (h : nextTag raw = .ok (some (tag, rest))) : rawFieldFirstTag raw = some tag := by
  obtain ⟨value, hread, hlen, htag⟩ := nextTag_some h
  rw [rawFieldFirstTag, hread]
  simp only
  rw [if_neg (by omega), htag]
  rfl

theorem number_pos_of_decode {value : Nat} {tag : Tag} (h : Tag.decode value = .ok tag) :
    0 < tag.number := by
  unfold Tag.decode at h
  simp only at h
  split at h
  · simp at h
  · next hn =>
    cases hw : WireType.fromInt (value % 8) with
    | error e => rw [hw] at h; simp at h
    | ok wireType =>
        rw [hw] at h
        simp only [Except.ok.injEq] at h
        rw [← h]
        simp only
        omega

theorem nextTag_of_valid {raw : Bytes} (h : validateRawField raw = .ok ()) :
    ∃ tag rest, nextTag raw = .ok (some (tag, rest)) := by
  unfold validateRawField at h
  cases hnext : nextTag raw with
  | error e => rw [hnext] at h; cases h
  | ok next =>
      cases next with
      | none => rw [hnext] at h; cases h
      | some pair => exact ⟨pair.1, pair.2, rfl⟩

/-- A field that is accepted starts with a tag, whose number is not 0. -/
theorem rawFieldFirstTag_of_valid {raw : Bytes} (h : validateRawField raw = .ok ()) :
    ∃ tag, rawFieldFirstTag raw = some tag ∧ 0 < tag.number := by
  obtain ⟨tag, rest, hnext⟩ := nextTag_of_valid h
  obtain ⟨value, _, _, htag⟩ := nextTag_some hnext
  exact ⟨tag, rawFieldFirstTag_of_nextTag hnext, number_pos_of_decode htag⟩

theorem toNat_injective : Function.Injective WireType.toNat := by
  intro a b h
  cases a <;> cases b <;> first | rfl | exact absurd h (by decide)

/-- Bytes compare like the numbers they stand for. -/
theorem lt_iff_map_toNat (a b : Bytes) : a < b ↔ a.map UInt8.toNat < b.map UInt8.toNat := by
  induction a generalizing b with
  | nil =>
      cases b with
      | nil => simp
      | cons x b => simp
  | cons x a ih =>
      cases b with
      | nil => simp
      | cons y b =>
          rw [List.map_cons, List.map_cons, List.cons_lt_cons_iff, List.cons_lt_cons_iff, ih b,
            UInt8.lt_iff_toNat_lt, UInt8.toNat_inj]

theorem rawFieldKey_injective : Function.Injective rawFieldKey := by
  have hbytes : ∀ raw, (ofLex (ofLex (rawFieldKey raw)).2).2 = raw.map UInt8.toNat := by
    intro raw
    unfold rawFieldKey
    split <;> rfl
  intro a b h
  have hmap : a.map UInt8.toNat = b.map UInt8.toNat := by rw [← hbytes, ← hbytes, h]
  exact List.map_injective_iff.mpr (fun _ _ => UInt8.toNat_inj.mp) hmap

theorem rawFieldKey_of_tag {raw : Bytes} {tag : Tag} (h : rawFieldFirstTag raw = some tag) :
    rawFieldKey raw = toLex (tag.number, toLex (tag.wireType.toNat, raw.map UInt8.toNat)) := by
  rw [rawFieldKey, h]

theorem rawFieldKey_nil : rawFieldKey [] = toLex (0, toLex (0, [])) := rfl

theorem lessThan_of_tags {a b : Bytes} {tagA tagB : Tag} (ha : rawFieldFirstTag a = some tagA)
    (hb : rawFieldFirstTag b = some tagB) :
    deterministicRawFieldLessThan a b = true ↔ rawFieldKey a < rawFieldKey b := by
  rw [rawFieldKey_of_tag ha, rawFieldKey_of_tag hb, Prod.Lex.toLex_lt_toLex,
    Prod.Lex.toLex_lt_toLex, deterministicRawFieldLessThan, ha, hb]
  simp only
  by_cases hnumber : tagA.number = tagB.number
  · by_cases htype : tagA.wireType = tagB.wireType
    · rw [if_neg (not_not.mpr hnumber), if_neg (not_not.mpr htype), decide_eq_true_eq,
        lt_iff_map_toNat]
      simp [hnumber, htype]
    · have hne : tagA.wireType.toNat ≠ tagB.wireType.toNat := fun hc => htype (toNat_injective hc)
      rw [if_neg (not_not.mpr hnumber), if_pos htype, decide_eq_true_eq]
      simp [hnumber, hne]
  · rw [if_pos hnumber, decide_eq_true_eq]
    simp [hnumber]

/-- On fields that may be written the comparison is the order of their keys. -/
theorem lessThan_eq_key {a b : Bytes} (ha : WritableRawField a) (hb : WritableRawField b) :
    deterministicRawFieldLessThan a b = decide (rawFieldKey a < rawFieldKey b) := by
  rw [Bool.eq_iff_iff, decide_eq_true_eq]
  -- an empty field has no tag: the bytes are compared, and it comes before every other field
  rcases ha with rfl | ha
  · rcases hb with rfl | hb
    · decide
    · obtain ⟨tag, htag, hpos⟩ := rawFieldFirstTag_of_valid hb
      have hne : b ≠ [] := by
        rintro rfl
        rw [rawFieldFirstTag_nil] at htag
        exact absurd htag (by simp)
      obtain ⟨first, rest, rfl⟩ := List.exists_cons_of_ne_nil hne
      rw [rawFieldKey_nil, rawFieldKey_of_tag htag, Prod.Lex.toLex_lt_toLex]
      rw [deterministicRawFieldLessThan, rawFieldFirstTag_nil]
      simp [hpos]
  · obtain ⟨tagA, htagA, hposA⟩ := rawFieldFirstTag_of_valid ha
    rcases hb with rfl | hb
    · rw [rawFieldKey_nil, rawFieldKey_of_tag htagA, Prod.Lex.toLex_lt_toLex,
        deterministicRawFieldLessThan, rawFieldFirstTag_nil]
      simp
      omega
    · obtain ⟨tagB, htagB, _⟩ := rawFieldFirstTag_of_valid hb
      exact lessThan_of_tags htagA htagB

/-! ## The canonical bytes -/

/-- The fields that are written, in their order. -/
theorem writeRawFieldsDeterministic_eq (fields : List Bytes) :
    writeRawFieldsDeterministic fields = (sort deterministicRawFieldLessThan fields).flatten := by
  have hmap : (deterministicRawFieldIndexes fields).map (fun index => fields.getD index [])
      = sort deterministicRawFieldLessThan fields := by
    have hcommute := @map_sort _ _ (deterministicRawFieldIndexLessThan fields)
      deterministicRawFieldLessThan (fun index => fields.getD index [])
      (List.range fields.length) (fun _ _ _ _ => rfl)
    rw [deterministicRawFieldIndexes, hcommute]
    congr 1
    refine List.ext_getElem (by simp) (fun i hi hi' => ?_)
    simp [List.getD, hi']
  have hflat : (deterministicRawFieldIndexes fields).flatMap (fun index => fields.getD index [])
      = (sort deterministicRawFieldLessThan fields).flatten := by
    rw [← hmap, List.flatMap]
  unfold writeRawFieldsDeterministic
  split
  · simp [sort]
  · simp [sort]
  · exact hflat

section

variable {fields : List Bytes}

theorem strictOrder_rawFields (h : ∀ raw ∈ fields, WritableRawField raw) :
    StrictOrder deterministicRawFieldLessThan fields := by
  constructor
  · intro a ha b hb
    rw [lessThan_eq_key (h a ha) (h b hb), lessThan_eq_key (h b hb) (h a ha), decide_eq_true_eq,
      decide_eq_false_iff_not]
    exact fun hab => not_lt_of_gt hab
  · intro a ha b hb c hc
    rw [lessThan_eq_key (h b hb) (h a ha), lessThan_eq_key (h c hc) (h b hb),
      lessThan_eq_key (h c hc) (h a ha), decide_eq_false_iff_not, decide_eq_false_iff_not,
      decide_eq_false_iff_not, not_lt, not_lt, not_lt]
    exact fun hab hbc => hab.trans hbc

/-- Fields that the comparison does not tell apart are the same bytes. -/
theorem apart_rawFields (h : ∀ raw ∈ fields, WritableRawField raw) :
    Apart deterministicRawFieldLessThan fields := by
  intro a ha b hb hab hba
  rw [lessThan_eq_key (h a ha) (h b hb), decide_eq_false_iff_not, not_lt] at hab
  rw [lessThan_eq_key (h b hb) (h a ha), decide_eq_false_iff_not, not_lt] at hba
  exact rawFieldKey_injective (le_antisymm hba hab)

/-- Permutations of fields that may be written are written alike: as the concatenation of the
fields in the order of their numbers, then wire types, then bytes. -/
theorem writeRawFieldsDeterministic_canonical {fields' : List Bytes} (hp : fields.Perm fields')
    (h : ∀ raw ∈ fields, raw = [] ∨ validateRawField raw = .ok ()) :
    writeRawFieldsDeterministic fields = writeRawFieldsDeterministic fields'
      ∧ ∃ sorted : List Bytes, sorted.Perm fields
        ∧ sorted.Pairwise (fun a b => rawFieldKey a ≤ rawFieldKey b)
        ∧ writeRawFieldsDeterministic fields = sorted.flatten := by
  constructor
  · rw [writeRawFieldsDeterministic_eq, writeRawFieldsDeterministic_eq,
      sort_eq_of_perm (strictOrder_rawFields h) (apart_rawFields h) hp]
  · refine ⟨sort deterministicRawFieldLessThan fields, sort_perm _ _, ?_,
      writeRawFieldsDeterministic_eq fields⟩
    refine (pairwise_sort (strictOrder_rawFields h)).imp_of_mem (fun {a b} ha hb hab => ?_)
    have ha' := h a (mem_sort.mp ha)
    have hb' := h b (mem_sort.mp hb)
    rw [lessThan_eq_key hb' ha', decide_eq_false_iff_not, not_lt] at hab
    exact hab

end

/-- Two fields with one number, in either order. -/
theorem writeRawFieldsDeterministic_canonical_two :
    writeRawFieldsDeterministic [[0x90, 0x03, 0x02], [0xc0, 0x02, 0x01]]
      = writeRawFieldsDeterministic [[0xc0, 0x02, 0x01], [0x90, 0x03, 0x02]] :=
  (writeRawFieldsDeterministic_canonical (List.Perm.swap _ _ _) (by decide)).1

end Pbz
