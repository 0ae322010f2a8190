import Pbz.Dynamic.Store
import Pbz.Lib.Upsert

set_option autoImplicit false

/-! # Deduplication of map entries

The two ways in which `deduplicateDecodedMapField` compacts the decoded entries give the same
list: the entries put in one after the other, a later one in the place of an earlier one with the
same key.
-/

namespace Pbz

/-! ## Keys -/

/-- The second value is a map entry, and the first one is an entry with its key. -/
def sameKey (a b : Value) : Bool :=
  match b with
  | .mapEntry key _ => a.hasKey key
  | _ => false

theorem sameKey_partialKey : Upsert.PartialKey sameKey := by
  constructor
  · intro x y h
    cases x <;> cases y <;> simp only [sameKey, Value.hasKey, Bool.false_eq_true] at h ⊢
    rw [valueEqual_comm]
    exact h
  · intro x y z hxy hyz
    cases x <;> cases y <;> simp only [sameKey, Value.hasKey, Bool.false_eq_true] at hxy
    cases z <;> simp only [sameKey, Value.hasKey, Bool.false_eq_true] at hyz ⊢
    exact valueEqual_trans hxy hyz

theorem getD_replaceKey (key value : Value) (values : List Value) :
    (replaceKey key (.mapEntry key value) values).getD (values ++ [.mapEntry key value])
      = Upsert.upsert sameKey values (.mapEntry key value) := by
  induction values with
  | nil => rfl
  | cons v rest ih =>
      rw [replaceKey, Upsert.upsert, ← ih]
      cases hk : v.hasKey key with
      | true => simp only [sameKey, hk, if_true, Option.getD_some]
      | false =>
          simp only [sameKey, hk, Bool.false_eq_true, if_false]
          cases replaceKey key (.mapEntry key value) rest <;> rfl

/-- Putting a map entry in is `upsert`. -/
theorem putMapEntry_eq (values : List Value) (value : Value) :
    putMapEntry values value = Upsert.upsert sameKey values value := by
  cases value with
  | mapEntry key value => exact getD_replaceKey key value values
  | _ => exact (Upsert.upsert_fresh (fun _ _ => rfl)).symm

theorem foldl_putMapEntry_eq (values retained : List Value) :
    values.foldl putMapEntry retained = values.foldl (Upsert.upsert sameKey) retained :=
  List.foldl_ext _ _ _ (fun retained value _ => putMapEntry_eq retained value)

/-- An entry with a new key goes to the end. -/
theorem putMapEntry_fresh {key value : Value} {values : List Value}
    (h : ∀ v ∈ values, v.hasKey key = false) :
    putMapEntry values (.mapEntry key value) = values ++ [.mapEntry key value] := by
  rw [putMapEntry_eq]
  exact Upsert.upsert_fresh h

theorem putMapEntry_split {key value found : Value} {front back : List Value}
    (hf : found.hasKey key = true) (h : ∀ v ∈ front, v.hasKey key = false) :
    putMapEntry (front ++ found :: back) (.mapEntry key value)
      = front ++ .mapEntry key value :: back := by
  rw [putMapEntry_eq]
  exact Upsert.upsert_split hf h

/-- The first entry with a key, and what lies before and behind it. -/
theorem exists_first_key {key : Value} {values : List Value}
    (h : ∃ value ∈ values, value.hasKey key = true) :
    ∃ front found back, values = front ++ found :: back ∧ found.hasKey key = true
      ∧ ∀ value ∈ front, value.hasKey key = false := by
  have hsome : (values.find? (fun value => value.hasKey key)).isSome = true := by
    rw [List.find?_isSome]
    exact h
  obtain ⟨found, hf⟩ := Option.isSome_iff_exists.mp hsome
  obtain ⟨hk, front, back, he, hfront⟩ := List.find?_eq_some_iff_append.mp hf
  exact ⟨front, found, back, he, hk, fun value hv => by simpa using hfront value hv⟩

/-! ## The hash map -/

/-- The keys of some values and their places, counted from `start`. -/
def keyPlaces : Nat → List Value → List (Value × Nat)
  | _, [] => []
  | start, .mapEntry key _ :: rest => (key, start) :: keyPlaces (start + 1) rest
  | start, _ :: rest => keyPlaces (start + 1) rest

theorem keyPlaces_append (start : Nat) (a b : List Value) :
    keyPlaces start (a ++ b) = keyPlaces start a ++ keyPlaces (start + a.length) b := by
  induction a generalizing start with
  | nil => simp [keyPlaces]
  | cons value rest ih =>
      have hlen : start + (rest.length + 1) = start + 1 + rest.length := by omega
      cases value <;>
        simp only [List.cons_append, keyPlaces, ih, List.length_cons, hlen]

theorem mem_keyPlaces {start : Nat} {values : List Value} {slot : Value × Nat}
    (h : slot ∈ keyPlaces start values) : ∃ value, .mapEntry slot.1 value ∈ values := by
  induction values generalizing start with
  | nil => simp [keyPlaces] at h
  | cons v rest ih =>
      have hrest : slot ∈ keyPlaces (start + 1) rest →
          ∃ value, Value.mapEntry slot.1 value ∈ v :: rest := by
        intro hs
        obtain ⟨value, hv⟩ := ih hs
        exact ⟨value, List.mem_cons_of_mem _ hv⟩
      cases v with
      | mapEntry key value =>
          rw [keyPlaces, List.mem_cons] at h
          rcases h with rfl | hs
          · exact ⟨value, List.mem_cons_self⟩
          · exact hrest hs
      | _ => exact hrest (by simpa only [keyPlaces] using h)

/-- No retained key is found when no retained value has it. -/
theorem findIdx?_keyPlaces {key : Value} {start : Nat} {values : List Value}
    (h : ∀ v ∈ values, v.hasKey key = false) :
    (keyPlaces start values).findIdx? (fun slot => valueEqual slot.1 key) = none := by
  rw [List.findIdx?_eq_none_iff]
  intro slot hs
  obtain ⟨value, hv⟩ := mem_keyPlaces hs
  exact h _ hv

/-- The hash map holds the keys of the retained values; pushing is putting. -/
theorem Retained.push_eq {retained : Retained} (h : retained.byKey = keyPlaces 0 retained.values)
    (value : Value) :
    (retained.push value).values = putMapEntry retained.values value
      ∧ (retained.push value).byKey = keyPlaces 0 (retained.push value).values := by
  obtain ⟨values, byKey⟩ := retained
  simp only at h
  subst h
  cases value with
  | mapEntry key value =>
      by_cases hk : ∃ v ∈ values, v.hasKey key = true
      · obtain ⟨front, found, back, rfl, hf, hfront⟩ := exists_first_key hk
        obtain ⟨k, w, rfl, hkey⟩ : ∃ k w, found = .mapEntry k w ∧ valueEqual k key = true := by
          cases found <;> simp only [Value.hasKey, Bool.false_eq_true] at hf
          exact ⟨_, _, rfl, hf⟩
        have hplaces : keyPlaces 0 (front ++ .mapEntry k w :: back)
            = keyPlaces 0 front ++ (k, front.length) :: keyPlaces (front.length + 1) back := by
          rw [keyPlaces_append, keyPlaces, Nat.zero_add]
        have hfind : (keyPlaces 0 (front ++ .mapEntry k w :: back)).findIdx?
            (fun slot => valueEqual slot.1 key) = some (keyPlaces 0 front).length := by
          rw [hplaces, List.findIdx?_append, findIdx?_keyPlaces hfront, List.findIdx?_cons]
          simp [hkey]
        have hget : (keyPlaces 0 (front ++ .mapEntry k w :: back))[(keyPlaces 0 front).length]?
            = some (k, front.length) := by
          rw [hplaces]; simp
        rw [putMapEntry_split hf hfront]
        simp only [Retained.push, hfind, hget, Option.map_some, Option.getD_some]
        have hset : (front ++ Value.mapEntry k w :: back).set front.length (.mapEntry key value)
            = front ++ .mapEntry key value :: back := by simp
        refine ⟨hset, ?_⟩
        rw [hset, hplaces, keyPlaces_append, keyPlaces, Nat.zero_add]
        simp
      · have hfresh : ∀ v ∈ values, v.hasKey key = false := by
          intro v hv
          cases hb : v.hasKey key with
          | false => rfl
          | true => exact absurd ⟨v, hv, hb⟩ hk
        rw [putMapEntry_fresh hfresh]
        simp only [Retained.push, findIdx?_keyPlaces hfresh, true_and]
        rw [keyPlaces_append]
        simp [keyPlaces]
  | _ =>
      refine ⟨rfl, ?_⟩
      simp only [Retained.push, keyPlaces_append]
      simp [keyPlaces]

theorem foldl_push_eq (values : List Value) :
    ∀ retained : Retained, retained.byKey = keyPlaces 0 retained.values →
      (values.foldl Retained.push retained).values = values.foldl putMapEntry retained.values := by
  induction values with
  | nil => intro retained _; rfl
  | cons value rest ih =>
      intro retained h
      obtain ⟨hv, hk⟩ := Retained.push_eq h value
      rw [List.foldl_cons, List.foldl_cons, ih _ hk, hv]

/-- Every path of the deduplication puts the entries in one after the other. -/
theorem deduplicateDecodedMapField_eq (values : List Value) :
    deduplicateDecodedMapField values = values.foldl putMapEntry [] := by
  rw [deduplicateDecodedMapField]
  split
  · next h =>
    match values, h with
    | [], _ => rfl
    | [value], _ => cases value <;> rfl
    | _ :: _ :: _, h => simp at h
  · split
    · rfl
    · exact foldl_push_eq values {} rfl

/-! ## Entries with different keys -/

/-- The two are not map entries with one key. -/
def KeysApart (a b : Value) : Prop := ∀ k v, b = .mapEntry k v → a.hasKey k = false

theorem keysApart_iff {a b : Value} : KeysApart a b ↔ sameKey a b = false := by
  cases b with
  | mapEntry key value =>
      exact ⟨fun h => h key value rfl, fun h k v he => by
        simp only [Value.mapEntry.injEq] at he
        rw [← he.1]
        exact h⟩
  | _ => exact ⟨fun _ => rfl, fun _ k v he => by simp at he⟩

theorem KeysApart.symm {a b : Value} (h : KeysApart a b) : KeysApart b a :=
  keysApart_iff.mpr (sameKey_partialKey.symm_false (keysApart_iff.mp h))

/-- Values of which no two are map entries with one key. -/
def DistinctKeys (values : List Value) : Prop := values.Pairwise KeysApart

theorem distinctKeys_iff {values : List Value} :
    DistinctKeys values ↔ Upsert.Distinct sameKey values :=
  List.Pairwise.iff (fun _ _ => keysApart_iff)

theorem DistinctKeys.perm {a b : List Value} (h : DistinctKeys a) (hp : a.Perm b) :
    DistinctKeys b :=
  List.Pairwise.perm h hp KeysApart.symm

theorem DistinctKeys.sublist {a b : List Value} (h : DistinctKeys b) (hs : a.Sublist b) :
    DistinctKeys a :=
  List.Pairwise.sublist hs h

/-- Putting an entry in keeps the keys apart. -/
theorem putMapEntry_distinct {values : List Value} (h : DistinctKeys values) (value : Value) :
    DistinctKeys (putMapEntry values value) := by
  rw [putMapEntry_eq]
  exact distinctKeys_iff.mpr ((distinctKeys_iff.mp h).upsert sameKey_partialKey value)

theorem foldl_putMapEntry_keys {values retained : List Value} (h : DistinctKeys retained) :
    DistinctKeys (values.foldl putMapEntry retained) := by
  rw [foldl_putMapEntry_eq]
  exact distinctKeys_iff.mpr ((distinctKeys_iff.mp h).foldl_upsert sameKey_partialKey)

/-- What a deduplication leaves has different keys. -/
theorem deduplicateDecodedMapField_keys (values : List Value) :
    DistinctKeys (deduplicateDecodedMapField values) := by
  rw [deduplicateDecodedMapField_eq]
  exact foldl_putMapEntry_keys List.Pairwise.nil

theorem foldl_putMapEntry_distinct {values : List Value} :
    ∀ {retained : List Value}, DistinctKeys (retained ++ values) →
      values.foldl putMapEntry retained = retained ++ values := by
  induction values with
  | nil => intro retained _; simp
  | cons value rest ih =>
      intro retained h
      have hput : putMapEntry retained value = retained ++ [value] := by
        cases value with
        | mapEntry k v =>
            refine putMapEntry_fresh (fun a ha => ?_)
            exact (List.pairwise_append.mp h).2.2 a ha _ List.mem_cons_self k v rfl
        | _ => rfl
      rw [List.foldl_cons, hput, ih (by simpa using h)]
      simp

/-- Entries with different keys are left as they are. -/
theorem deduplicateDecodedMapField_distinct {values : List Value} (h : DistinctKeys values) :
    deduplicateDecodedMapField values = values := by
  rw [deduplicateDecodedMapField_eq, foldl_putMapEntry_distinct (by simpa using h)]
  rfl

end Pbz
