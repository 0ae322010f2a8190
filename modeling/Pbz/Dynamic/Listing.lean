import Pbz.Dynamic.Store
import Pbz.Lib.StableSort

set_option autoImplicit false

/-! # Listing the present fields

`listFieldsAlloc` sorts the descriptors of the fields that hold a value. `listFieldAt` and
`listFieldIndex` never build that list: they step through it by searching, again and again, for the
least number above the last one. `IsListing` is what the two have in common, the ascending list of
what lies above a bound, and each step takes its head away.
-/

namespace Pbz

namespace DynamicMessage

def listFieldsAlloc (self : DynamicMessage) : List FieldDescriptor :=
  StableSort.sortByKey FieldDescriptor.number
    ((self.fields.filter (fun entry => !entry.values.isEmpty)).map FieldValue.descriptor)

def listFieldCount (self : DynamicMessage) : Nat :=
  self.fields.foldl (fun count entry => if entry.values.isEmpty then count else count + 1) 0

/-- One pass of the inner loop of `listFieldAt` and `listFieldIndex`. -/
def betterField (lowerBound : Nat) (best : Option FieldDescriptor) (entry : FieldValue) :
    Option FieldDescriptor :=
  if entry.values.isEmpty then best
  else if entry.descriptor.number ≤ lowerBound then best
  else match best with
    | none => some entry.descriptor
    | some found =>
        if entry.descriptor.number < found.number then some entry.descriptor else some found

/-- The inner loop: the present field with the least number above the bound. -/
def nextField (self : DynamicMessage) (lowerBound : Nat) : Option FieldDescriptor :=
  self.fields.foldl (betterField lowerBound) none

def listFieldAtFrom (self : DynamicMessage) (lowerBound : Nat) : Nat → Option FieldDescriptor
  | 0 => self.nextField lowerBound
  | remaining + 1 =>
      match self.nextField lowerBound with
      | none => none
      | some current => listFieldAtFrom self current.number remaining

def listFieldAt (self : DynamicMessage) (index : Nat) : Option FieldDescriptor :=
  self.listFieldAtFrom 0 index

/-! ## The next field -/

/-- The descriptors of the fields that hold a value, in the order of storage. -/
def present (self : DynamicMessage) : List FieldDescriptor :=
  (self.fields.filter (fun entry => !entry.values.isEmpty)).map FieldValue.descriptor

/-- `best` is the least field above the bound among some. -/
def IsLeast (lowerBound : Nat) (fields : List FieldDescriptor) : Option FieldDescriptor → Prop
  | none => ∀ field ∈ fields, field.number ≤ lowerBound
  | some best => best ∈ fields ∧ lowerBound < best.number
      ∧ ∀ field ∈ fields, lowerBound < field.number → best.number ≤ field.number

theorem IsLeast.push {lowerBound : Nat} {seen : List FieldDescriptor}
    {best : Option FieldDescriptor} (h : IsLeast lowerBound seen best) {entry : FieldValue}
    (hp : entry.values.isEmpty = false) :
    IsLeast lowerBound (seen ++ [entry.descriptor]) (betterField lowerBound best entry) := by
  unfold betterField
  rw [hp, if_neg (by simp)]
  by_cases hle : entry.descriptor.number ≤ lowerBound
  · rw [if_pos hle]
    cases best with
    | none =>
        intro field hf
        rcases List.mem_append.mp hf with hf | hf
        · exact h field hf
        · rw [List.mem_singleton.mp hf]
          exact hle
    | some found =>
        obtain ⟨hmem, habove, hleast⟩ := h
        refine ⟨List.mem_append_left _ hmem, habove, fun field hf hlt => ?_⟩
        rcases List.mem_append.mp hf with hf | hf
        · exact hleast field hf hlt
        · rw [List.mem_singleton.mp hf] at hlt
          omega
  · rw [if_neg hle]
    have hnew : entry.descriptor ∈ seen ++ [entry.descriptor] := by simp
    cases best with
    | none =>
        refine ⟨hnew, by omega, fun field hf hlt => ?_⟩
        rcases List.mem_append.mp hf with hf | hf
        · have hno := h field hf
          omega
        · rw [List.mem_singleton.mp hf]
    | some found =>
        obtain ⟨hmem, habove, hleast⟩ := h
        simp only
        by_cases hlt : entry.descriptor.number < found.number
        · rw [if_pos hlt]
          refine ⟨hnew, by omega, fun field hf hb => ?_⟩
          rcases List.mem_append.mp hf with hf | hf
          · have hno := hleast field hf hb
            omega
          · rw [List.mem_singleton.mp hf]
        · rw [if_neg hlt]
          refine ⟨List.mem_append_left _ hmem, habove, fun field hf hb => ?_⟩
          rcases List.mem_append.mp hf with hf | hf
          · exact hleast field hf hb
          · rw [List.mem_singleton.mp hf]
            omega

theorem isLeast_foldl {lowerBound : Nat} {entries : List FieldValue} :
    ∀ {seen : List FieldDescriptor} {best : Option FieldDescriptor}, IsLeast lowerBound seen best →
      IsLeast lowerBound
        (seen ++ (entries.filter (fun entry => !entry.values.isEmpty)).map FieldValue.descriptor)
        (entries.foldl (betterField lowerBound) best) := by
  induction entries with
  | nil =>
      intro seen best h
      simpa using h
  | cons entry rest ih =>
      intro seen best h
      rw [List.foldl_cons]
      cases hp : entry.values.isEmpty with
      | true =>
          have hskip : betterField lowerBound best entry = best := by
            unfold betterField
            rw [if_pos hp]
          rw [hskip, List.filter_cons_of_neg (by simp [hp])]
          exact ih h
      | false =>
          rw [List.filter_cons_of_pos (by simp [hp]), List.map_cons]
          have hstep := ih (h.push hp)
          rw [List.append_assoc, List.singleton_append] at hstep
          exact hstep

/-- The inner loop finds the least present field above the bound. -/
theorem nextField_isLeast (self : DynamicMessage) (lowerBound : Nat) :
    IsLeast lowerBound self.present (self.nextField lowerBound) := by
  have hstart : IsLeast lowerBound [] none := by simp [IsLeast]
  have h : IsLeast lowerBound ([] ++ self.present) (self.nextField lowerBound) :=
    isLeast_foldl hstart
  rw [List.nil_append] at h
  exact h

/-- How many present fields lie above the bound. -/
def above (self : DynamicMessage) (lowerBound : Nat) : Nat :=
  (self.present.filter (fun field => decide (lowerBound < field.number))).length

theorem above_lt {self : DynamicMessage} {lowerBound : Nat} {current : FieldDescriptor}
    (h : self.nextField lowerBound = some current) :
    self.above current.number < self.above lowerBound := by
  have hleast := self.nextField_isLeast lowerBound
  rw [h] at hleast
  obtain ⟨hmem, habove, -⟩ := hleast
  have hsub : (self.present.filter (fun field => decide (current.number < field.number))).Sublist
      (self.present.filter (fun field => decide (lowerBound < field.number))) := by
    refine List.monotone_filter_right _ (fun field hf => ?_)
    simp only [decide_eq_true_eq] at hf ⊢
    omega
  refine Nat.lt_of_le_of_ne hsub.length_le (fun heq => ?_)
  have hin : current ∈ self.present.filter (fun field => decide (lowerBound < field.number)) :=
    List.mem_filter.mpr ⟨hmem, by simpa using habove⟩
  rw [← hsub.eq_of_length heq, List.mem_filter] at hin
  simp at hin

/-- `listFieldIndex` from some field on. Descriptors are compared as pointers: the address of a
descriptor is a part of it. -/
def listFieldIndexFrom (self : DynamicMessage) (descriptor : FieldDescriptor)
    (lowerBound index : Nat) : Option Nat :=
  match _h : self.nextField lowerBound with
  | none => none
  | some current =>
      if current = descriptor then some index
      else listFieldIndexFrom self descriptor current.number (index + 1)
termination_by self.above lowerBound
decreasing_by exact above_lt _h

def listFieldIndex (self : DynamicMessage) (descriptor : FieldDescriptor) : Option Nat :=
  self.listFieldIndexFrom descriptor 0 0

theorem nextField_above {self : DynamicMessage} {lowerBound : Nat} {current : FieldDescriptor}
    (h : self.nextField lowerBound = some current) : lowerBound < current.number := by
  have hleast := self.nextField_isLeast lowerBound
  rw [h] at hleast
  exact hleast.2.1

theorem listFieldAtFrom_above {self : DynamicMessage} {lowerBound index : Nat}
    {field : FieldDescriptor} (h : self.listFieldAtFrom lowerBound index = some field) :
    lowerBound < field.number := by
  induction index generalizing lowerBound with
  | zero => exact nextField_above h
  | succ index ih =>
      rw [listFieldAtFrom] at h
      cases hn : self.nextField lowerBound with
      | none => rw [hn] at h; simp at h
      | some current =>
          rw [hn] at h
          have hstep := nextField_above hn
          have hrest := ih h
          omega

/-! ## Listings -/

/-- The ascending list of the present fields above a bound. -/
structure IsListing (message : DynamicMessage) (lowerBound : Nat)
    (fields : List FieldDescriptor) : Prop where
  ascending : fields.Pairwise (fun a b => a.number < b.number)
  mem : ∀ field, field ∈ fields ↔ field ∈ message.present ∧ lowerBound < field.number

theorem IsListing.nextField_eq {self : DynamicMessage} {lowerBound : Nat}
    {fields : List FieldDescriptor} (h : IsListing self lowerBound fields) :
    self.nextField lowerBound = fields.head? := by
  have hleast := self.nextField_isLeast lowerBound
  cases fields with
  | nil =>
      cases hn : self.nextField lowerBound with
      | none => rfl
      | some best =>
          rw [hn] at hleast
          have hin := (h.mem best).mpr ⟨hleast.1, hleast.2.1⟩
          simp at hin
  | cons first rest =>
      have hfirst := (h.mem first).mp List.mem_cons_self
      cases hn : self.nextField lowerBound with
      | none =>
          rw [hn] at hleast
          have hno := hleast first hfirst.1
          omega
      | some best =>
          rw [hn] at hleast
          obtain ⟨hmem, habove, hall⟩ := hleast
          have hle := hall first hfirst.1 hfirst.2
          rcases List.mem_cons.mp ((h.mem best).mpr ⟨hmem, habove⟩) with rfl | hb
          · rfl
          · have hlt := (List.pairwise_cons.mp h.ascending).1 best hb
            omega

/-- Behind its first field, a listing is the listing above it. -/
theorem IsListing.tail {self : DynamicMessage} {lowerBound : Nat} {first : FieldDescriptor}
    {rest : List FieldDescriptor} (h : IsListing self lowerBound (first :: rest)) :
    IsListing self first.number rest := by
  obtain ⟨hhead, htail⟩ := List.pairwise_cons.mp h.ascending
  refine ⟨htail, fun field => ?_⟩
  constructor
  · intro hf
    exact ⟨((h.mem field).mp (List.mem_cons_of_mem _ hf)).1, hhead field hf⟩
  · rintro ⟨hp, hlt⟩
    have hbound := ((h.mem first).mp List.mem_cons_self).2
    rcases List.mem_cons.mp ((h.mem field).mpr ⟨hp, by omega⟩) with rfl | hf
    · omega
    · exact hf

/-- The loop of `listFieldAt` counts along the listing. -/
theorem IsListing.listFieldAtFrom_eq {self : DynamicMessage} {fields : List FieldDescriptor}
    {lowerBound : Nat} (h : IsListing self lowerBound fields) (index : Nat) :
    self.listFieldAtFrom lowerBound index = fields[index]? := by
  induction index generalizing lowerBound fields with
  | zero => rw [listFieldAtFrom, h.nextField_eq, List.head?_eq_getElem?]
  | succ index ih =>
      rw [listFieldAtFrom, h.nextField_eq]
      cases fields with
      | nil => rfl
      | cons first rest =>
          simp only [List.head?_cons, List.getElem?_cons_succ]
          exact ih h.tail

theorem listFieldIndexFrom_of_none {self : DynamicMessage} {lowerBound : Nat}
    (h : self.nextField lowerBound = none) (descriptor : FieldDescriptor) (index : Nat) :
    self.listFieldIndexFrom descriptor lowerBound index = none := by
  rw [listFieldIndexFrom]
  split
  · rfl
  · next current hc => rw [h] at hc; simp at hc

theorem listFieldIndexFrom_of_some {self : DynamicMessage} {lowerBound : Nat}
    {current : FieldDescriptor} (h : self.nextField lowerBound = some current)
    (descriptor : FieldDescriptor) (index : Nat) :
    self.listFieldIndexFrom descriptor lowerBound index
      = if current = descriptor then some index
        else self.listFieldIndexFrom descriptor current.number (index + 1) := by
  rw [listFieldIndexFrom]
  split
  · next hc => rw [h] at hc; simp at hc
  · next other hc =>
    rw [h, Option.some.injEq] at hc
    rw [hc]

/-- The loop of `listFieldIndex` finds the place in the listing. -/
theorem IsListing.listFieldIndexFrom_eq {self : DynamicMessage} {fields : List FieldDescriptor}
    (descriptor : FieldDescriptor) {lowerBound : Nat} (h : IsListing self lowerBound fields)
    (start index : Nat) :
    self.listFieldIndexFrom descriptor lowerBound start = some index
      ↔ start ≤ index ∧ fields[index - start]? = some descriptor := by
  induction fields generalizing lowerBound start with
  | nil =>
      have hnone : self.nextField lowerBound = none := h.nextField_eq
      rw [listFieldIndexFrom_of_none hnone]
      simp
  | cons first rest ih =>
      have hsome : self.nextField lowerBound = some first := h.nextField_eq
      rw [listFieldIndexFrom_of_some hsome]
      by_cases hd : first = descriptor
      · rw [if_pos hd, Option.some.injEq]
        constructor
        · rintro rfl
          simp [hd]
        · rintro ⟨hle, hget⟩
          by_contra hne
          -- a second place of the descriptor would have a greater number
          have hpos : index - start = (index - start - 1) + 1 := by omega
          rw [hpos, List.getElem?_cons_succ] at hget
          have hlt := (List.pairwise_cons.mp h.ascending).1 descriptor
            (List.mem_of_getElem? hget)
          rw [hd] at hlt
          omega
      · rw [if_neg hd, ih h.tail (start + 1)]
        constructor
        · rintro ⟨hle, hget⟩
          have hpos : index - start = (index - (start + 1)) + 1 := by omega
          exact ⟨by omega, by rw [hpos, List.getElem?_cons_succ, hget]⟩
        · rintro ⟨hle, hget⟩
          have hne : index ≠ start := by
            rintro rfl
            simp only [Nat.sub_self, List.getElem?_cons_zero, Option.some.injEq] at hget
            exact hd hget
          have hpos : index - start = (index - (start + 1)) + 1 := by omega
          rw [hpos, List.getElem?_cons_succ] at hget
          exact ⟨by omega, hget⟩

/-! ## The sorted list -/

/-- There is one `FieldValue` for each number. -/
def OnePerNumber (self : DynamicMessage) : Prop :=
  (self.fields.map (fun entry => entry.descriptor.number)).Nodup

theorem mem_present {self : DynamicMessage} {field : FieldDescriptor} :
    field ∈ self.present ↔ ∃ entry ∈ self.fields, entry.values ≠ [] ∧ entry.descriptor = field := by
  simp [present, and_assoc]

theorem mem_listFieldsAlloc {self : DynamicMessage} {field : FieldDescriptor} :
    field ∈ self.listFieldsAlloc ↔ field ∈ self.present :=
  StableSort.mem_sortByKey

theorem listFieldsAlloc_ascending {self : DynamicMessage} (h : self.OnePerNumber) :
    self.listFieldsAlloc.Pairwise (fun a b => a.number < b.number) := by
  have hsorted := StableSort.pairwise_sort
    (StableSort.keyLess_strictOrder FieldDescriptor.number self.present)
  have hnodup : (self.present.map FieldDescriptor.number).Nodup := by
    rw [present, List.map_map]
    exact h.sublist (List.filter_sublist.map _)
  have hdiff : self.listFieldsAlloc.Pairwise (fun a b => a.number ≠ b.number) := by
    rw [← List.pairwise_map (f := FieldDescriptor.number) (R := fun a b => a ≠ b)]
    exact ((StableSort.sortByKey_perm _ _).map _).nodup_iff.mpr hnodup
  refine (hsorted.and hdiff).imp (fun {a b} hab => ?_)
  obtain ⟨hle, hne⟩ := hab
  simp only [StableSort.keyLess, decide_eq_false_iff_not] at hle
  omega

theorem listFieldCount_eq (self : DynamicMessage) : self.listFieldCount = self.present.length := by
  have key : ∀ (entries : List FieldValue) (count : Nat),
      entries.foldl (fun count entry => if entry.values.isEmpty then count else count + 1) count
        = count + ((entries.filter (fun entry => !entry.values.isEmpty)).map
            FieldValue.descriptor).length := by
    intro entries
    induction entries with
    | nil => intro count; rfl
    | cons entry rest ih =>
        intro count
        rw [List.foldl_cons, ih]
        cases hp : entry.values.isEmpty with
        | true => simp [hp]
        | false =>
            simp [hp]
            omega
  rw [listFieldCount, key, Nat.zero_add, present]

/-- Above 0, the sorted list is the listing. -/
theorem listFieldsAlloc_isListing {self : DynamicMessage} (h : self.OnePerNumber)
    (hz : ∀ entry ∈ self.fields, entry.values ≠ [] → entry.descriptor.number ≠ 0) :
    IsListing self 0 self.listFieldsAlloc := by
  refine ⟨listFieldsAlloc_ascending h, fun field => ?_⟩
  rw [mem_listFieldsAlloc]
  constructor
  · intro hf
    obtain ⟨entry, he, hv, rfl⟩ := mem_present.mp hf
    have hne := hz entry he hv
    exact ⟨hf, by omega⟩
  · exact fun hf => hf.1

/-- The functions that list the present fields agree. -/
structure ListingAgrees (message : DynamicMessage) : Prop where
  ascending : message.listFieldsAlloc.Pairwise (fun a b => a.number < b.number)
  mem : ∀ field, field ∈ message.listFieldsAlloc
    ↔ ∃ entry ∈ message.fields, entry.values ≠ [] ∧ entry.descriptor = field
  count : message.listFieldsAlloc.length = message.listFieldCount
  «at» : ∀ index, message.listFieldAt index = message.listFieldsAlloc[index]?
  index : ∀ field index, message.listFieldIndex field = some index
    ↔ message.listFieldAt index = some field

/-- On a message with one `FieldValue` for each number, the listing functions agree if and only if
no field with a value has the number 0: the search for the next field starts above it. -/
theorem listingAgrees_iff (self : DynamicMessage) (h : self.OnePerNumber) :
    self.ListingAgrees
      ↔ ∀ entry ∈ self.fields, entry.values ≠ [] → entry.descriptor.number ≠ 0 := by
  constructor
  · intro hagrees entry he hv hz
    have hin := (hagrees.mem entry.descriptor).mpr ⟨entry, he, hv, rfl⟩
    obtain ⟨index, hget⟩ := List.mem_iff_getElem?.mp hin
    rw [← hagrees.at] at hget
    have hpos := listFieldAtFrom_above hget
    omega
  · intro hz
    have hlist := listFieldsAlloc_isListing h hz
    have hat : ∀ index, self.listFieldAt index = self.listFieldsAlloc[index]? :=
      hlist.listFieldAtFrom_eq
    refine ⟨listFieldsAlloc_ascending h, ?_, ?_, hat, ?_⟩
    · intro field
      rw [mem_listFieldsAlloc, mem_present]
    · rw [listFieldCount_eq]
      exact (StableSort.sortByKey_perm _ _).length_eq
    · intro field index
      rw [hat, listFieldIndex, hlist.listFieldIndexFrom_eq field 0 index]
      simp

/-- A message with values for two fields, not stored in the order of their numbers. -/
theorem listingAgrees_of_two :
    (DynamicMessage.mk { name := ascii "M" }
      [{ descriptor := { name := ascii "b", number := 2, kind := .scalar .bool },
         values := [.boolean true] },
       { descriptor := { name := ascii "a", number := 1, kind := .scalar .bool },
         values := [.boolean false] }] []).ListingAgrees :=
  (listingAgrees_iff _ (by simp [OnePerNumber])).mpr (by simp)

/-- A value of a field with the number 0 is listed by `listFieldsAlloc` but not found by
`listFieldAt`. -/
theorem exists_not_listingAgrees :
    ¬ ∀ message : DynamicMessage, message.OnePerNumber → message.ListingAgrees := by
  intro hall
  have h := (hall (DynamicMessage.mk { name := ascii "M" }
    [{ descriptor := { name := ascii "z", number := 0, kind := .scalar .bool },
       values := [.boolean true] }] []) (by simp [OnePerNumber])).at 0
  simp [listFieldAt, listFieldAtFrom, nextField, betterField, listFieldsAlloc,
    StableSort.sortByKey, StableSort.sort] at h

end DynamicMessage

end Pbz
