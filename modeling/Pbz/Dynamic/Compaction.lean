import Pbz.Dynamic.Contents
import Pbz.Lib.InPlace

set_option autoImplicit false

/-! # Compaction of map entries in place

The two loops of `deduplicateDecodedMapField` with their read and write indexes, and the hash map
of the second one. They leave what putting the entries in one after the other leaves, which is what
`deduplicateDecodedMapField` of the store computes: each key once, at the place of its first entry
and with its last entry.

The hash map is a parameter. That it is a map is assumed for contexts in which equal keys have
equal hashes; `MapKeyContext` is such a context.
-/

namespace Pbz

/-! ## Hash maps -/

/-- The operations of a hash map that a compaction uses. `getOrPut` is split into the search, the
insertion of a key that was not found and the change of the stored key of one that was. -/
structure HashMapOps (κ ν : Type) where
  Map : Type
  empty : Map
  find : Map → κ → Option ν
  put : Map → κ → ν → Map
  rekey : Map → κ → Map

/-- Keys are equal as elements of a map; equal keys have equal hashes. -/
structure ConsistentContext {κ : Type} (hash : κ → UInt64) (eql : κ → κ → Bool) : Prop where
  symm : ∀ a b, eql a b = true → eql b a = true
  trans : ∀ a b c, eql a b = true → eql b c = true → eql a c = true
  hash : ∀ a b, eql a b = true → hash a = hash b

/-- The operations are those of a map whose keys are compared by `eql`. -/
structure HashMapOps.Lawful {κ ν : Type} (ops : HashMapOps κ ν) (eql : κ → κ → Bool) : Prop where
  find_empty : ∀ key, ops.find ops.empty key = none
  find_put : ∀ map key value other, ops.find map key = none →
    ops.find (ops.put map key value) other
      = if eql key other then some value else ops.find map other
  find_rekey : ∀ map key other, ops.find map key ≠ none →
    ops.find (ops.rekey map key) other = ops.find map other

/-! ## `MapKeyContext` -/

/-- The number of the tag of a value, in the order of the union's fields. -/
def Value.tagNumber : Value → UInt8
  | .double _ => 0
  | .float _ => 1
  | .int32 _ => 2
  | .int64 _ => 3
  | .uint32 _ => 4
  | .uint64 _ => 5
  | .sint32 _ => 6
  | .sint64 _ => 7
  | .fixed32 _ => 8
  | .fixed64 _ => 9
  | .sfixed32 _ => 10
  | .sfixed64 _ => 11
  | .boolean _ => 12
  | .string _ => 13
  | .bytes _ => 14
  | .enumeration _ => 15
  | .message _ => 16
  | .group _ => 17
  | .mapEntry _ _ => 18

namespace MapKeyContext

/-- The bytes with which the hasher is updated. -/
def hashInput (key : Value) : Bytes :=
  key.tagNumber :: match key with
    | .boolean v => [if v then 1 else 0]
    | .int32 v => littleBytes 4 v.toNat
    | .int64 v => littleBytes 8 v.toNat
    | .uint32 v => littleBytes 4 v.toNat
    | .uint64 v => littleBytes 8 v.toNat
    | .sint32 v => littleBytes 4 v.toNat
    | .sint64 v => littleBytes 8 v.toNat
    | .fixed32 v => littleBytes 4 v.toNat
    | .fixed64 v => littleBytes 8 v.toNat
    | .sfixed32 v => littleBytes 4 v.toNat
    | .sfixed64 v => littleBytes 8 v.toNat
    | .string bytes => bytes
    | _ => []

/-- `MapKeyContext.hash` over a hash function on bytes, `std.hash.Wyhash` with the seed 0. -/
def hash (wyhash : Bytes → UInt64) (key : Value) : UInt64 := wyhash (hashInput key)

def eql (a b : Value) : Bool := valueEqual a b

theorem hashInput_eq {a b : Value} (h : eql a b = true) : hashInput a = hashInput b := by
  cases a <;> cases b <;> simp only [eql, valueEqual, Bool.false_eq_true, beq_iff_eq] at h <;>
    first
    | rfl
    | rw [h]

theorem consistent (wyhash : Bytes → UInt64) : ConsistentContext (hash wyhash) eql where
  symm a b h := by
    rw [eql, valueEqual_comm]
    exact h
  trans a b c h1 h2 := valueEqual_trans h1 h2
  hash a b h := by rw [MapKeyContext.hash, MapKeyContext.hash, hashInput_eq h]

end MapKeyContext

/-! ## The loops -/

/-- The items of the list, `none` where they are `undefined`, and the write index. -/
structure Items where
  slots : List (Option Value)
  writeIndex : Nat

namespace Items

/-- The value that was read is kept. -/
def keep (items : Items) (readIndex : Nat) (value : Value) : Items :=
  { slots := InPlace.keep items.slots items.writeIndex readIndex value,
    writeIndex := items.writeIndex + 1 }

/-- The value that was read replaces one that was kept. -/
def replace (items : Items) (index readIndex : Nat) (value : Value) : Items :=
  { items with slots := InPlace.replace items.slots index readIndex value }

/-- The inner loop of the linear compaction: the first retained entry with the key. -/
def duplicateIndex (items : Items) (key : Value) : Option Nat :=
  (items.slots.take items.writeIndex).findIdx? (fun slot =>
    match slot with
    | some retained => retained.hasKey key
    | none => false)

/-- One pass of the loop of `deduplicateDecodedMapFieldLinear`. -/
def linearPass (items : Items) (readIndex : Nat) : Items :=
  match items.slots[readIndex]? with
  | some (some (.mapEntry key value)) =>
      match items.duplicateIndex key with
      | some index => items.replace index readIndex (.mapEntry key value)
      | none => items.keep readIndex (.mapEntry key value)
  | some (some value) => items.keep readIndex value
  | _ => items

end Items

/-- The items up to the write index, as the loop leaves them. -/
def deduplicateDecodedMapFieldLinear (values : List Value) : List (Option Value) :=
  let items := (List.range' 0 values.length).foldl Items.linearPass
    { slots := values.map some, writeIndex := 0 }
  items.slots.take items.writeIndex

section

variable (ops : HashMapOps Value Nat)

/-- The state of the hash-assisted loop. -/
structure HashedItems where
  items : Items
  retainedByKey : ops.Map

variable {ops}

/-- One pass of the hash-assisted loop. -/
def HashedItems.pass (state : HashedItems ops) (readIndex : Nat) : HashedItems ops :=
  match state.items.slots[readIndex]? with
  | some (some (.mapEntry key value)) =>
      match ops.find state.retainedByKey key with
      | some retainedIndex =>
          { items := state.items.replace retainedIndex readIndex (.mapEntry key value),
            retainedByKey := ops.rekey state.retainedByKey key }
      | none =>
          { items := state.items.keep readIndex (.mapEntry key value),
            retainedByKey := ops.put state.retainedByKey key state.items.writeIndex }
  | some (some value) => { state with items := state.items.keep readIndex value }
  | _ => state

variable (ops)

def deduplicateHashed (values : List Value) : List (Option Value) :=
  let state := (List.range' 0 values.length).foldl HashedItems.pass
    { items := { slots := values.map some, writeIndex := 0 }, retainedByKey := ops.empty }
  state.items.slots.take state.items.writeIndex

/-- `error.OutOfMemory` -/
inductive AllocatorError where
  | outOfMemory
  deriving DecidableEq, Repr

/-- `deduplicateDecodedMapField` on the items of an entry. The hash map takes the number of the
items as a `u32`. -/
def deduplicateInPlace (values : List Value) : Except AllocatorError (List (Option Value)) :=
  if values.length < 2 then .ok (values.map some)
  else if values.length < 16 then .ok (deduplicateDecodedMapFieldLinear values)
  else if values.length < 2 ^ 32 then .ok (deduplicateHashed ops values)
  else .error .outOfMemory

end

/-! ## One pass -/

theorem putMapEntry_of_some {kept : List Value} {key value : Value} {index : Nat}
    (h : kept.findIdx? (fun retained : Value => retained.hasKey key) = some index) :
    putMapEntry kept (.mapEntry key value) = kept.set index (.mapEntry key value) := by
  obtain ⟨hlt, hk, -⟩ := List.findIdx?_eq_some_iff_getElem.mp h
  obtain ⟨front, found, back, rfl, hf, hfront⟩ :=
    exists_first_key ⟨kept[index], List.getElem_mem hlt, hk⟩
  have hnone : front.findIdx? (fun retained : Value => retained.hasKey key) = none :=
    List.findIdx?_eq_none_iff.mpr hfront
  rw [List.findIdx?_append, hnone, List.findIdx?_cons, if_pos hf] at h
  have hindex : index = front.length := by simpa using h.symm
  rw [putMapEntry_split hf hfront, hindex]
  simp

theorem putMapEntry_of_none {kept : List Value} {key value : Value}
    (h : kept.findIdx? (fun retained : Value => retained.hasKey key) = none) :
    putMapEntry kept (.mapEntry key value) = kept ++ [.mapEntry key value] :=
  putMapEntry_fresh (List.findIdx?_eq_none_iff.mp h)

/-- The items hold what was kept and what was not read yet. -/
def Items.Holds (items : Items) (readIndex : Nat) (kept rest : List Value) : Prop :=
  InPlace.Holds items.slots items.writeIndex readIndex kept rest

section

variable {items : Items} {readIndex : Nat} {kept rest : List Value}

theorem Items.Holds.writeIndex_eq (h : items.Holds readIndex kept rest) :
    kept.length = items.writeIndex := by
  obtain ⟨gap, -, hw, -⟩ := h
  exact hw

theorem duplicateIndex_eq (h : items.Holds readIndex kept rest) (key : Value) :
    items.duplicateIndex key = kept.findIdx? (fun retained : Value => retained.hasKey key) := by
  rw [Items.duplicateIndex, InPlace.Holds.kept_eq h, List.findIdx?_map]
  rfl

/-- An entry whose key was found replaces the retained one. -/
theorem Items.Holds.replaced {key value : Value} {index : Nat}
    (h : items.Holds readIndex kept (.mapEntry key value :: rest))
    (hf : kept.findIdx? (fun retained : Value => retained.hasKey key) = some index) :
    (items.replace index readIndex (.mapEntry key value)).Holds (readIndex + 1)
      (putMapEntry kept (.mapEntry key value)) rest := by
  have hlt : index < items.writeIndex := by
    rw [← h.writeIndex_eq]
    exact (List.findIdx?_eq_some_iff_getElem.mp hf).1
  rw [putMapEntry_of_some hf]
  exact InPlace.Holds.replace h hlt

/-- An entry with a new key is kept. -/
theorem Items.Holds.appended {key value : Value}
    (h : items.Holds readIndex kept (.mapEntry key value :: rest))
    (hf : kept.findIdx? (fun retained : Value => retained.hasKey key) = none) :
    (items.keep readIndex (.mapEntry key value)).Holds (readIndex + 1)
      (putMapEntry kept (.mapEntry key value)) rest := by
  rw [putMapEntry_of_none hf]
  exact InPlace.Holds.keep h

theorem linearPass_holds {value : Value} (h : items.Holds readIndex kept (value :: rest)) :
    (items.linearPass readIndex).Holds (readIndex + 1) (putMapEntry kept value) rest := by
  rw [Items.linearPass, InPlace.Holds.get h]
  cases value with
  | mapEntry key value =>
      simp only
      rw [duplicateIndex_eq h]
      cases hf : kept.findIdx? (fun retained : Value => retained.hasKey key) with
      | some index => exact h.replaced hf
      | none => exact h.appended hf
  | _ => exact InPlace.Holds.keep h

end

/-! ## The hash map -/

section

variable {ops : HashMapOps Value Nat} {state : HashedItems ops} {readIndex : Nat}
  {kept rest : List Value}

/-- Beside the items, the hash map finds the places of the keys that were kept. -/
def HashedItems.Holds (state : HashedItems ops) (readIndex : Nat) (kept rest : List Value) :
    Prop :=
  state.items.Holds readIndex kept rest
    ∧ ∀ key, ops.find state.retainedByKey key
        = kept.findIdx? (fun retained : Value => retained.hasKey key)

/-- A change of one value that keeps its key is not seen by a search for a key. -/
theorem findIdx?_set_congr {p : Value → Bool} {values : List Value} {index : Nat} {new : Value}
    (h : ∀ old, values[index]? = some old → p old = p new) :
    (values.set index new).findIdx? p = values.findIdx? p := by
  induction values generalizing index with
  | nil => rfl
  | cons value rest ih =>
      cases index with
      | zero =>
          have hp : p value = p new := h value rfl
          rw [List.set_cons_zero, List.findIdx?_cons, List.findIdx?_cons, hp]
      | succ index =>
          rw [List.set_cons_succ, List.findIdx?_cons, List.findIdx?_cons, ih h]

theorem hasKey_of_same {a b key other : Value} (h : a.hasKey key = true)
    (hb : b.hasKey key = true) : a.hasKey other = b.hasKey other := by
  cases a <;> simp only [Value.hasKey, Bool.false_eq_true] at h
  cases b <;> simp only [Value.hasKey, Bool.false_eq_true] at hb
  rw [Value.hasKey, Value.hasKey, Bool.eq_iff_iff]
  rw [valueEqual_comm] at hb
  constructor
  · intro ho
    rw [valueEqual_comm] at h hb
    exact valueEqual_trans hb (valueEqual_trans h ho)
  · intro ho
    exact valueEqual_trans h (valueEqual_trans hb ho)

theorem hashedPass_holds (hops : ops.Lawful MapKeyContext.eql) {value : Value}
    (h : state.Holds readIndex kept (value :: rest)) :
    (state.pass readIndex).Holds (readIndex + 1) (putMapEntry kept value) rest := by
  obtain ⟨hitems, hfind⟩ := h
  rw [HashedItems.pass, InPlace.Holds.get hitems]
  cases value with
  | mapEntry key value =>
      simp only
      rw [hfind key]
      cases hf : kept.findIdx? (fun retained : Value => retained.hasKey key) with
      | some index =>
          refine ⟨hitems.replaced hf, fun other => ?_⟩
          simp only
          rw [putMapEntry_of_some hf, hops.find_rekey _ _ _ (by rw [hfind key, hf]; simp), hfind other]
          refine (findIdx?_set_congr (fun old hold => ?_)).symm
          obtain ⟨hlt, hkey, -⟩ := List.findIdx?_eq_some_iff_getElem.mp hf
          rw [List.getElem?_eq_getElem hlt, Option.some.injEq] at hold
          rw [hold] at hkey
          -- a key that is not equal to itself is found nowhere
          have hself : valueEqual key key = true := by
            cases old <;> simp only [Value.hasKey, Bool.false_eq_true] at hkey
            have hback := hkey
            rw [valueEqual_comm] at hback
            exact valueEqual_trans hback hkey
          exact hasKey_of_same hkey hself
      | none =>
          refine ⟨hitems.appended hf, fun other => ?_⟩
          simp only
          rw [putMapEntry_of_none hf, hops.find_put _ _ _ _ (by rw [hfind key, hf]), hfind other,
            List.findIdx?_append, ← hitems.writeIndex_eq]
          by_cases ho : valueEqual key other = true
          · have hother : kept.findIdx? (fun retained : Value => retained.hasKey other) = none := by
              rw [List.findIdx?_eq_none_iff] at hf ⊢
              intro retained hr
              rw [← Bool.not_eq_true]
              intro hk
              have hno := hf retained hr
              cases retained <;> simp only [Value.hasKey, Bool.false_eq_true] at hk hno
              rw [valueEqual_comm] at ho
              rw [valueEqual_trans hk ho] at hno
              simp at hno
            rw [MapKeyContext.eql, if_pos ho, hother, List.findIdx?_cons]
            simp [Value.hasKey, ho]
          · rw [MapKeyContext.eql, if_neg ho, List.findIdx?_cons]
            simp [Value.hasKey, ho]
  | _ =>
      refine ⟨InPlace.Holds.keep hitems, fun other => ?_⟩
      simp only [putMapEntry]
      rw [hfind other, List.findIdx?_append, List.findIdx?_cons]
      simp [Value.hasKey]

end

/-! ## The whole compaction -/

theorem deduplicateDecodedMapFieldLinear_eq (values : List Value) :
    deduplicateDecodedMapFieldLinear values = (values.foldl putMapEntry []).map some := by
  have hstart : Items.Holds { slots := values.map some, writeIndex := 0 } 0 [] values :=
    InPlace.holds_start values
  have hrun := InPlace.foldl_range' (I := Items.Holds)
    (fun _ _ _ _ _ h => linearPass_holds h) values _ 0 [] hstart
  exact InPlace.Holds.kept_eq hrun

theorem deduplicateHashed_eq {ops : HashMapOps Value Nat} (hops : ops.Lawful MapKeyContext.eql)
    (values : List Value) :
    deduplicateHashed ops values = (values.foldl putMapEntry []).map some := by
  have hstart : @HashedItems.Holds ops
      { items := { slots := values.map some, writeIndex := 0 }, retainedByKey := ops.empty } 0 []
      values :=
    ⟨InPlace.holds_start values, fun key => hops.find_empty key⟩
  have hrun := InPlace.foldl_range' (I := HashedItems.Holds)
    (fun _ _ _ _ _ h => hashedPass_holds hops h) values _ 0 [] hstart
  exact InPlace.Holds.kept_eq hrun.1

/-- Both loops leave what the store's deduplication leaves. -/
theorem deduplicateInPlace_eq {ops : HashMapOps Value Nat} (hops : ops.Lawful MapKeyContext.eql)
    {values : List Value} (h : values.length < 2 ^ 32) :
    deduplicateInPlace ops values = .ok ((deduplicateDecodedMapField values).map some) := by
  rw [deduplicateDecodedMapField_eq, deduplicateInPlace, deduplicateDecodedMapFieldLinear_eq,
    deduplicateHashed_eq hops, if_pos h]
  split
  · next hshort =>
    rw [← deduplicateDecodedMapField_eq, deduplicateDecodedMapField, if_pos hshort]
  · split <;> rfl

/-! ## Adding -/

/-- A message with at most an entry for the field, after a value has been added to it. -/
theorem add_to_map {field : FieldDescriptor} (hm : field.kind.isMap = true)
    (descriptor : MessageDescriptor) (values : List Value) (value : Value) :
    (DynamicMessage.mk descriptor [{ descriptor := field, values }] []).add field value
      = DynamicMessage.mk descriptor [{ descriptor := field, values := putMapEntry values value }]
          [] := by
  rw [DynamicMessage.add, DynamicMessage.mergeSingularMessageValue_eq_none
    (DynamicMessage.mergeTarget_eq_none (Or.inl (isRepeatedLike_of_isMap hm)))]
  simp only
  rw [DynamicMessage.insert, DynamicMessage.leaveOneof_eq_self (by simp)]
  simp [updateOrCreate, addToValues_of_isMap hm]

theorem add_first_to_map {field : FieldDescriptor} (hm : field.kind.isMap = true)
    (descriptor : MessageDescriptor) (value : Value) :
    (DynamicMessage.init descriptor).add field value
      = DynamicMessage.mk descriptor [{ descriptor := field, values := putMapEntry [] value }]
          [] := by
  rw [DynamicMessage.add, DynamicMessage.mergeSingularMessageValue_eq_none
    (DynamicMessage.mergeTarget_eq_none (Or.inl (isRepeatedLike_of_isMap hm)))]
  simp only
  rw [DynamicMessage.insert, DynamicMessage.leaveOneof_eq_self (by simp [DynamicMessage.init])]
  simp [DynamicMessage.init, updateOrCreate, addToValues_of_isMap hm]

/-- The values of a map field after some have been added, one after the other. -/
theorem contents_foldl_add {field : FieldDescriptor} (hm : field.kind.isMap = true)
    (descriptor : MessageDescriptor) (values : List Value) :
    (values.foldl (fun message value => message.add field value)
      (DynamicMessage.init descriptor)).contents field.number = values.foldl putMapEntry [] := by
  have key : ∀ values kept : List Value,
      values.foldl (fun message value => message.add field value)
        (DynamicMessage.mk descriptor [{ descriptor := field, values := kept }] [])
        = DynamicMessage.mk descriptor
            [{ descriptor := field, values := values.foldl putMapEntry kept }] [] := by
    intro values
    induction values with
    | nil => exact fun kept => rfl
    | cons value rest ih =>
        intro kept
        rw [List.foldl_cons, add_to_map hm, ih, List.foldl_cons]
  cases values with
  | nil => rfl
  | cons value rest =>
      rw [List.foldl_cons, add_first_to_map hm, key, List.foldl_cons, DynamicMessage.contents,
        contentsOf_cons, if_pos rfl]

/-! ## A list as a hash map -/

/-- A hash map that is a list of its keys and values. -/
def listMap : HashMapOps Value Nat where
  Map := List (Value × Nat)
  empty := []
  find map key := (map.find? (fun slot => MapKeyContext.eql slot.1 key)).map Prod.snd
  put map key value := map ++ [(key, value)]
  rekey map key := map.map (fun slot => if MapKeyContext.eql slot.1 key then (key, slot.2) else slot)

theorem find?_concat_slot {map : List (Value × Nat)} {key : Value}
    (h : map.find? (fun slot => MapKeyContext.eql slot.1 key) = none) (value : Nat)
    (other : Value) :
    ((map ++ [(key, value)]).find? (fun slot => MapKeyContext.eql slot.1 other)).map Prod.snd
      = if MapKeyContext.eql key other then some value
        else (map.find? (fun slot => MapKeyContext.eql slot.1 other)).map Prod.snd := by
  rw [List.find?_append, List.find?_cons]
  by_cases ho : MapKeyContext.eql key other = true
  · have hnone : map.find? (fun slot => MapKeyContext.eql slot.1 other) = none := by
      rw [List.find?_eq_none] at h ⊢
      intro slot hs hk
      refine h slot hs ?_
      rw [MapKeyContext.eql, valueEqual_comm] at ho
      exact valueEqual_trans hk ho
    rw [hnone, if_pos ho, ho]
    rfl
  · rw [if_neg ho]
    simp [ho]

theorem find?_map_rekey (map : List (Value × Nat)) (key other : Value) :
    ((map.map (fun slot => if MapKeyContext.eql slot.1 key then (key, slot.2) else slot)).find?
        (fun slot => MapKeyContext.eql slot.1 other)).map Prod.snd
      = (map.find? (fun slot => MapKeyContext.eql slot.1 other)).map Prod.snd := by
  induction map with
  | nil => rfl
  | cons slot rest ih =>
      rw [List.map_cons, List.find?_cons, List.find?_cons]
      by_cases hk : MapKeyContext.eql slot.1 key = true
      · rw [if_pos hk]
        have hsame : MapKeyContext.eql key other = MapKeyContext.eql slot.1 other := by
          rw [MapKeyContext.eql] at hk
          rw [Bool.eq_iff_iff]
          have hback := hk
          rw [valueEqual_comm] at hback
          exact ⟨fun h => valueEqual_trans hk h, fun h => valueEqual_trans hback h⟩
        rw [hsame]
        cases MapKeyContext.eql slot.1 other with
        | true => rfl
        | false => exact ih
      · rw [if_neg hk]
        cases MapKeyContext.eql slot.1 other with
        | true => rfl
        | false => exact ih

theorem listMap_lawful : listMap.Lawful MapKeyContext.eql where
  find_empty _ := rfl
  find_put _ _ value other h := find?_concat_slot (Option.map_eq_none_iff.mp h) value other
  find_rekey map key other _ := find?_map_rekey map key other

/-! ## The whole function -/

end Pbz
