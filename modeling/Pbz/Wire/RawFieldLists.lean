import Pbz.Lib.Handles
import Pbz.Wire.RawFieldNumbers

set_option autoImplicit false

/-! # Changing lists of raw fields

`appendRawFieldsClone` and `clearRawFieldsByNumber` of `wire.zig`. A message owns the slice of its
raw fields and the bytes of each of them; a ledger follows what is allocated and released. A call
of the allocator that would make the handle `n` succeeds if `memory n`.
-/

namespace Pbz

open Handles

inductive RawListError where
  | outOfMemory
  | wire (e : Error)

/-- A raw field with the handle of its bytes. -/
structure OwnedRaw where
  raw : Bytes
  handle : Nat
  deriving DecidableEq

/-- Bytes that are empty take no memory, and `free` does nothing with them. -/
def OwnedRaw.owned (field : OwnedRaw) : List Nat := if field.raw.isEmpty then [] else [field.handle]

/-- The slice of the raw fields, with the handle of its memory, and what has been allocated and
released so far. -/
structure RawFieldList where
  fields : List OwnedRaw := []
  slice : Nat := 0
  ledger : Ledger := {}

namespace RawFieldList

/-- The handles that the list owns; an empty slice takes no memory. -/
def owned (list : RawFieldList) : List Nat :=
  (if list.fields.isEmpty then [] else [list.slice]) ++ list.fields.flatMap OwnedRaw.owned

def raws (list : RawFieldList) : List Bytes := list.fields.map OwnedRaw.raw

/-- `free` of the slice, not of its fields. -/
def freeSlice (list : RawFieldList) (ledger : Ledger) : Ledger :=
  if list.fields.isEmpty then ledger else ledger.release [list.slice]

/-- What the list owns is what has been allocated and not been released. -/
def Valid (list : RawFieldList) : Prop := list.ledger.Holds list.owned

end RawFieldList

section

variable (memory : Nat → Bool)

/-- The copies of the fields, up to one for which there is no memory, and whether that is all of
them. -/
def dupeRaws : List Bytes → Ledger → List OwnedRaw × Ledger × Bool
  | [], ledger => ([], ledger, true)
  | raw :: rest, ledger =>
      if memory ledger.made then
        let (copies, ledger', all) := dupeRaws rest ledger.make
        ({ raw, handle := ledger.made } :: copies, ledger', all)
      else ([], ledger, false)

def appendRawFieldsCloneUnchecked (list : RawFieldList) (raws : List Bytes) :
    Except RawListError Unit × RawFieldList :=
  let next := list.ledger.made
  if !memory next then (.error .outOfMemory, list)
  else
    let (copies, ledger, all) := dupeRaws memory raws list.ledger.make
    if all then
      (.ok (), { fields := list.fields ++ copies, slice := next, ledger := list.freeSlice ledger })
    else
      let freed := (ledger.release (copies.flatMap OwnedRaw.owned)).release [next]
      (.error .outOfMemory, { list with ledger := freed })

def appendRawFieldsClone (list : RawFieldList) (raws : List Bytes) :
    Except RawListError Unit × RawFieldList :=
  if raws.isEmpty then (.ok (), list)
  else match forM raws validateRawField with
    | .error e => (.error (.wire e), list)
    | .ok () => appendRawFieldsCloneUnchecked memory list raws

/-- The first loop of `clearRawFieldsByNumber`: how many fields stay and how many go. -/
def countKept (number : Nat) : List OwnedRaw → Nat → Nat → Except Error (Nat × Nat)
  | [], keepCount, removeCount => .ok (keepCount, removeCount)
  | field :: rest, keepCount, removeCount =>
      if field.raw.isEmpty then countKept number rest keepCount (removeCount + 1)
      else match rawFieldNumber field.raw with
        | .error e => .error e
        | .ok n =>
            if n = number then countKept number rest keepCount (removeCount + 1)
            else countKept number rest (keepCount + 1) removeCount

/-- The second loop writes the fields that stay into the cells of the new slice and frees the
others; `none` is its `unreachable`. -/
def moveKept (number : Nat) : List OwnedRaw → Ledger → Option (List OwnedRaw × Ledger)
  | [], ledger => some ([], ledger)
  | field :: rest, ledger =>
      if field.raw.isEmpty then moveKept number rest (ledger.release field.owned)
      else match rawFieldNumber field.raw with
        | .error _ => none
        | .ok n =>
            if n = number then moveKept number rest (ledger.release field.owned)
            else (moveKept number rest ledger).map (fun (kept, ledger) => (field :: kept, ledger))

/-- `none` is an `unreachable`, or a number of fields that does not fit the new slice. -/
def clearRawFieldsByNumber (list : RawFieldList) (number : Nat) :
    Option (Except RawListError Unit × RawFieldList) :=
  match countKept number list.fields 0 0 with
  | .error e => some (.error (.wire e), list)
  | .ok (keepCount, removeCount) =>
      if removeCount = 0 then some (.ok (), list)
      else if keepCount ≠ 0 ∧ !memory list.ledger.made then some (.error .outOfMemory, list)
      else
        let ledger := if keepCount = 0 then list.ledger else list.ledger.make
        match moveKept number list.fields ledger with
        | none => none
        | some (kept, ledger) =>
            if kept.length = keepCount then
              some (.ok (), { fields := kept, slice := list.ledger.made,
                              ledger := list.freeSlice ledger })
            else none

end

/-! ## What the loops do -/

section

variable {memory : Nat → Bool} {number : Nat} {fields : List OwnedRaw} {ledger : Ledger}
  {held : List Nat}

/-- Whether a field stays: it is not empty and has another number. -/
def stays (number : Nat) (field : OwnedRaw) : Bool :=
  !field.raw.isEmpty && !hasNumber number field.raw

theorem owned_of_ne {field : OwnedRaw} (h : field.raw ≠ []) : field.owned = [field.handle] := by
  rw [OwnedRaw.owned, if_neg (by simpa using h)]

/-- The copies are new handles; they are all there, or some memory is refused. -/
theorem dupeRaws_holds {raws : List Bytes} (h : ledger.Holds held) (hne : ∀ raw ∈ raws, raw ≠ []) :
    ∃ copies ledger' all, dupeRaws memory raws ledger = (copies, ledger', all)
      ∧ ledger'.Holds (copies.flatMap OwnedRaw.owned ++ held)
      ∧ (all = true → copies.map OwnedRaw.raw = raws)
      ∧ (all = false → ∃ n, memory n = false) := by
  induction raws generalizing ledger held with
  | nil => exact ⟨[], ledger, true, rfl, h, fun _ => rfl, fun hall => by cases hall⟩
  | cons raw rest ih =>
      obtain ⟨hraw, hrest⟩ := List.forall_mem_cons.mp hne
      cases hmemory : memory ledger.made with
      | false =>
          refine ⟨[], ledger, false, ?_, h, fun hall => (by cases hall), fun _ => ⟨_, hmemory⟩⟩
          simp only [dupeRaws, hmemory, Bool.false_eq_true, if_false]
      | true =>
          obtain ⟨copies, ledger', all, hdupe, hholds, hcopies, hrefused⟩ := ih h.make hrest
          refine ⟨{ raw, handle := ledger.made } :: copies, ledger', all, ?_, ?_, ?_, hrefused⟩
          · simp only [dupeRaws, hmemory, if_true, hdupe]
          · refine hholds.perm ?_
            rw [List.flatMap_cons, owned_of_ne hraw]
            exact List.perm_middle
          · exact fun hall => congrArg (raw :: ·) (hcopies hall)

/-- What both loops can tell about a field: it is empty or has a number. -/
def HasNumber (field : OwnedRaw) : Prop :=
  field.raw = [] ∨ ∃ n, rawFieldNumber field.raw = .ok n

theorem countKept_cons {field : OwnedRaw} (h : HasNumber field) (keepCount removeCount : Nat) :
    countKept number (field :: fields) keepCount removeCount
      = if stays number field then countKept number fields (keepCount + 1) removeCount
        else countKept number fields keepCount (removeCount + 1) := by
  by_cases hempty : field.raw.isEmpty = true
  · simp only [countKept, stays, hempty, if_true, Bool.not_true, Bool.false_and,
      Bool.false_eq_true, if_false]
  · obtain ⟨n, hn⟩ := h.resolve_left (by simpa using hempty)
    simp only [countKept, stays, hasNumber, hn, hempty]
    by_cases hnumber : n = number
    · simp [hnumber]
    · simp [hnumber]

theorem moveKept_cons {field : OwnedRaw} (h : HasNumber field) :
    moveKept number (field :: fields) ledger
      = if stays number field then
          (moveKept number fields ledger).map (fun moved => (field :: moved.1, moved.2))
        else moveKept number fields (ledger.release field.owned) := by
  by_cases hempty : field.raw.isEmpty = true
  · simp only [moveKept, stays, hempty, if_true, Bool.not_true, Bool.false_and,
      Bool.false_eq_true, if_false]
  · obtain ⟨n, hn⟩ := h.resolve_left (by simpa using hempty)
    simp only [moveKept, stays, hasNumber, hn, hempty]
    by_cases hnumber : n = number
    · simp [hnumber]
    · simp [hnumber]

/-- The first loop counts the fields that stay and the others. -/
theorem countKept_eq (number : Nat) (h : ∀ field ∈ fields, HasNumber field)
    (keepCount removeCount : Nat) :
    countKept number fields keepCount removeCount
      = .ok (keepCount + (fields.filter (stays number)).length,
          removeCount + fields.countP (!stays number ·)) := by
  induction fields generalizing keepCount removeCount with
  | nil => rfl
  | cons field rest ih =>
      obtain ⟨hfield, hrest⟩ := List.forall_mem_cons.mp h
      rw [countKept_cons hfield, ih hrest, ih hrest, List.filter_cons, List.countP_cons]
      cases stays number field with
      | true => simp [Nat.add_assoc, Nat.add_comm 1]
      | false => simp [Nat.add_assoc, Nat.add_comm 1]

/-- The first loop stops at the first field without a number. -/
theorem countKept_error (number : Nat) (h : ¬ ∀ field ∈ fields, HasNumber field)
    (keepCount removeCount : Nat) :
    ∃ e, countKept number fields keepCount removeCount = .error e
      ∧ ∃ field ∈ fields, field.raw ≠ [] ∧ rawFieldNumber field.raw = .error e := by
  induction fields generalizing keepCount removeCount with
  | nil => exact absurd (by simp) h
  | cons field rest ih =>
      by_cases hfield : HasNumber field
      · have hrest : ¬ ∀ field ∈ rest, HasNumber field :=
          fun hall => h (List.forall_mem_cons.mpr ⟨hfield, hall⟩)
        rw [countKept_cons hfield]
        split
        · obtain ⟨e, herror, bad, hbad, hread⟩ := ih hrest (keepCount + 1) removeCount
          exact ⟨e, herror, bad, List.mem_cons_of_mem field hbad, hread⟩
        · obtain ⟨e, herror, bad, hbad, hread⟩ := ih hrest keepCount (removeCount + 1)
          exact ⟨e, herror, bad, List.mem_cons_of_mem field hbad, hread⟩
      · obtain ⟨hne, hnone⟩ := not_or.mp hfield
        cases hread : rawFieldNumber field.raw with
        | ok n => exact absurd ⟨n, hread⟩ hnone
        | error e =>
            refine ⟨e, ?_, field, List.mem_cons_self, hne, hread⟩
            have hempty : ¬ field.raw.isEmpty = true := by simpa using hne
            simp only [countKept, if_neg hempty, hread]

/-- The second loop keeps the fields that stay and releases the others. -/
theorem moveKept_holds (hgood : ∀ field ∈ fields, HasNumber field)
    (h : ledger.Holds (fields.flatMap OwnedRaw.owned ++ held)) :
    ∃ ledger', moveKept number fields ledger = some (fields.filter (stays number), ledger')
      ∧ ledger'.Holds ((fields.filter (stays number)).flatMap OwnedRaw.owned ++ held) := by
  induction fields generalizing ledger held with
  | nil => exact ⟨ledger, rfl, h⟩
  | cons field rest ih =>
      obtain ⟨hfield, hrest⟩ := List.forall_mem_cons.mp hgood
      rw [List.flatMap_cons, List.append_assoc] at h
      rw [moveKept_cons hfield, List.filter_cons]
      cases hstays : stays number field with
      | true =>
          -- the handle of the field is held through the rest of the loop
          have hothers : ledger.Holds (rest.flatMap OwnedRaw.owned ++ (field.owned ++ held)) :=
            h.perm (List.perm_append_comm_assoc _ _ _)
          obtain ⟨ledger', hmove, hholds⟩ := ih hrest hothers
          refine ⟨ledger', by rw [hmove]; rfl, ?_⟩
          rw [if_pos rfl, List.flatMap_cons, List.append_assoc]
          exact hholds.perm (List.perm_append_comm_assoc _ _ _)
      | false => exact ih hrest h.release

end

/-! ## Atomic changes -/

/-- What `appendRawFieldsClone` may return, and leave of the list: copies of all fields behind the
old ones, or the list as it was. -/
inductive Appends (memory : Nat → Bool) (list : RawFieldList) (raws : List Bytes) :
    Except RawListError Unit × RawFieldList → Prop
  | all {after : RawFieldList} {copies : List OwnedRaw}
      (hvalid : ∀ raw ∈ raws, validateRawField raw = .ok ())
      (hfields : after.fields = list.fields ++ copies) (hcopies : copies.map OwnedRaw.raw = raws)
      (hafter : after.Valid) : Appends memory list raws (.ok (), after)
  | invalid {e : Error} (hinvalid : ∃ raw ∈ raws, validateRawField raw = .error e) :
      Appends memory list raws (.error (.wire e), list)
  | outOfMemory {after : RawFieldList} (hmemory : ∃ n, memory n = false)
      (hfields : after.fields = list.fields) (hslice : after.slice = list.slice)
      (hafter : after.Valid) : Appends memory list raws (.error .outOfMemory, after)

/-- What `clearRawFieldsByNumber` may return, and leave of the list: the fields that stay, in their
order, or the list as it was. -/
inductive Clears (memory : Nat → Bool) (list : RawFieldList) (number : Nat) :
    Except RawListError Unit × RawFieldList → Prop
  | all {after : RawFieldList}
      (hgood : ∀ field ∈ list.fields, HasNumber field)
      (hfields : after.fields = list.fields.filter (stays number)) (hafter : after.Valid) :
      Clears memory list number (.ok (), after)
  | invalid {e : Error}
      (hinvalid : ∃ field ∈ list.fields, field.raw ≠ [] ∧ rawFieldNumber field.raw = .error e) :
      Clears memory list number (.error (.wire e), list)
  | outOfMemory (hmemory : ∃ n, memory n = false) :
      Clears memory list number (.error .outOfMemory, list)

section

variable {memory : Nat → Bool} {list : RawFieldList} {number : Nat} {raws : List Bytes}

theorem forM_validate_cases (raws : List Bytes) :
    (forM raws validateRawField = .ok () ∧ ∀ raw ∈ raws, validateRawField raw = .ok ())
      ∨ ∃ e, forM raws validateRawField = .error e
          ∧ ∃ raw ∈ raws, validateRawField raw = .error e := by
  induction raws with
  | nil => exact .inl ⟨rfl, by simp⟩
  | cons raw rest ih =>
      cases hraw : validateRawField raw with
      | error e => exact .inr ⟨e, by rw [List.forM_cons, hraw]; rfl, raw, List.mem_cons_self, hraw⟩
      | ok u =>
          have hforM : forM (raw :: rest) validateRawField = forM rest validateRawField := by
            rw [List.forM_cons, hraw]
            rfl
          rw [hforM]
          rcases ih with ⟨hall, hrest⟩ | ⟨e, herror, bad, hbad, hinvalid⟩
          · exact .inl ⟨hall, List.forall_mem_cons.mpr ⟨hraw, hrest⟩⟩
          · exact .inr ⟨e, herror, bad, List.mem_cons_of_mem _ hbad, hinvalid⟩

theorem ne_nil_of_valid {raw : Bytes} (h : validateRawField raw = .ok ()) : raw ≠ [] := by
  rintro rfl
  cases h

/-- The old slice is released once the new one is in its place. -/
theorem freeSlice_holds {ledger : Ledger} {others : List Nat}
    (h : ledger.Holds ((if list.fields.isEmpty then [] else [list.slice]) ++ others)) :
    (list.freeSlice ledger).Holds others := by
  unfold RawFieldList.freeSlice
  by_cases hempty : list.fields.isEmpty = true
  · rw [if_pos hempty] at h ⊢
    exact h
  · rw [if_neg hempty] at h ⊢
    exact h.release

theorem appendRawFieldsCloneUnchecked_eq {copies : List OwnedRaw} {ledger : Ledger} {all : Bool}
    (hmemory : memory list.ledger.made = true)
    (hdupe : dupeRaws memory raws list.ledger.make = (copies, ledger, all)) :
    appendRawFieldsCloneUnchecked memory list raws
      = if all then
          (.ok (), { fields := list.fields ++ copies, slice := list.ledger.made,
                     ledger := list.freeSlice ledger })
        else
          (.error .outOfMemory, { list with
            ledger := (ledger.release (copies.flatMap OwnedRaw.owned)).release
              [list.ledger.made] }) := by
  simp only [appendRawFieldsCloneUnchecked, hmemory, hdupe, Bool.not_true, Bool.false_eq_true,
    if_false]

theorem appendRawFieldsClone_appends (h : list.Valid) (raws : List Bytes) :
    Appends memory list raws (appendRawFieldsClone memory list raws) := by
  unfold appendRawFieldsClone
  cases raws with
  | nil => exact .all (by simp) (List.append_nil _).symm rfl h
  | cons first rest =>
      rw [if_neg (by simp)]
      rcases forM_validate_cases (first :: rest) with ⟨hforM, hvalid⟩ | ⟨e, hforM, hinvalid⟩
      · rw [hforM]
        dsimp only
        cases hmemory : memory list.ledger.made with
        | false =>
            rw [appendRawFieldsCloneUnchecked, hmemory]
            exact .outOfMemory ⟨_, hmemory⟩ rfl rfl h
        | true =>
            obtain ⟨copies, ledger, all, hdupe, hholds, hcopies, hrefused⟩ :=
              dupeRaws_holds h.make (fun raw hraw => ne_nil_of_valid (hvalid raw hraw))
            rw [appendRawFieldsCloneUnchecked_eq hmemory hdupe]
            cases all with
            | true =>
                refine .all hvalid rfl (hcopies rfl) (freeSlice_holds (hholds.perm ?_))
                have hne : (list.fields ++ copies).isEmpty = false := by
                  have hlength := congrArg List.length (hcopies rfl)
                  cases copies with
                  | nil => simp at hlength
                  | cons copy more => simp
                simp only [RawFieldList.owned, hne, Bool.false_eq_true, if_false,
                  List.flatMap_append]
                refine List.perm_iff_count.mpr fun handle => ?_
                simp only [List.count_append, List.count_cons, List.count_nil]
                omega
            | false => exact .outOfMemory (hrefused rfl) rfl rfl hholds.release.release
      · rw [hforM]
        exact .invalid hinvalid

/-- Memory for the fields that stay, if there are any. -/
theorem newSlice_holds (h : list.Valid) (kept : List OwnedRaw) :
    (if kept.length = 0 then list.ledger else list.ledger.make).Holds
      ((if kept.isEmpty then [] else [list.ledger.made]) ++ list.owned) := by
  cases kept with
  | nil => exact h
  | cons field rest => exact Ledger.Holds.make h

theorem clearRawFieldsByNumber_clears (h : list.Valid) (number : Nat) :
    ∃ outcome, clearRawFieldsByNumber memory list number = some outcome
      ∧ Clears memory list number outcome := by
  by_cases hgood : ∀ field ∈ list.fields, HasNumber field
  · have hcount := countKept_eq number hgood 0 0
    rw [Nat.zero_add, Nat.zero_add] at hcount
    unfold clearRawFieldsByNumber
    rw [hcount]
    dsimp only
    by_cases hremove : list.fields.countP (!stays number ·) = 0
    · refine ⟨_, if_pos hremove, .all hgood ?_ h⟩
      have hall := List.countP_eq_zero.mp hremove
      exact (List.filter_eq_self.mpr fun field hfield => by simpa using hall field hfield).symm
    · rw [if_neg hremove]
      split
      case isTrue hrefused => exact ⟨_, rfl, .outOfMemory ⟨_, by simpa using hrefused.2⟩⟩
      case isFalse =>
        have hnew := newSlice_holds h (list.fields.filter (stays number))
        rw [RawFieldList.owned, ← List.append_assoc] at hnew
        obtain ⟨ledger, hmove, hholds⟩ := moveKept_holds hgood (hnew.perm List.perm_append_comm)
        rw [hmove]
        refine ⟨_, if_pos rfl, .all hgood rfl (freeSlice_holds (hholds.perm ?_))⟩
        rw [← List.append_assoc]
        exact List.perm_append_comm.trans (List.perm_append_comm.append_left _)
  · obtain ⟨e, herror, hinvalid⟩ := countKept_error number hgood 0 0
    refine ⟨(.error (.wire e), list), ?_, .invalid hinvalid⟩
    rw [clearRawFieldsByNumber, herror]

end

/-- Appending copies and clearing a number either do all of their work or leave the list as it was,
and in each case the list owns what has been allocated and not been released. Clearing takes away
the fields of the number and the empty ones. -/
theorem rawFieldLists_atomic (memory : Nat → Bool) {list : RawFieldList} (h : list.Valid) :
    (∀ raws, Appends memory list raws (appendRawFieldsClone memory list raws))
    ∧ ∀ number, ∃ outcome, clearRawFieldsByNumber memory list number = some outcome
        ∧ Clears memory list number outcome :=
  ⟨appendRawFieldsClone_appends h, clearRawFieldsByNumber_clears h⟩

/-- Two fields, one of them of number 1. -/
def twoRaws : RawFieldList where
  fields := [{ raw := [0x08, 0x01], handle := 1 }, { raw := [0x10, 0x02], handle := 0 }]
  slice := 2
  ledger := ((Ledger.make {}).make).make

theorem rawFieldLists_atomic_two :
    ∃ outcome, clearRawFieldsByNumber (fun _ => true) twoRaws 1 = some outcome
      ∧ Clears (fun _ => true) twoRaws 1 outcome ∧ outcome.2.raws = [[0x10, 0x02]] := by
  have hvalid : twoRaws.Valid := Ledger.holds_empty.make.make.make
  obtain ⟨outcome, houtcome, hclears⟩ := (rawFieldLists_atomic (fun _ => true) hvalid).2 1
  refine ⟨outcome, houtcome, hclears, ?_⟩
  have hresult : (clearRawFieldsByNumber (fun _ => true) twoRaws 1).map (fun outcome =>
      outcome.2.raws) = some [[0x10, 0x02]] := by decide
  rw [houtcome] at hresult
  exact Option.some.inj hresult

/-- A list with an empty field: clearing a number removes it. -/
theorem exists_empty_cleared :
    ¬ ∀ (memory : Nat → Bool) (list : RawFieldList) (number : Nat), list.Valid →
      ∃ outcome, clearRawFieldsByNumber memory list number = some outcome
        ∧ ((outcome.1 = .ok ()
            ∧ outcome.2.raws = list.raws.filter (fun raw => !hasNumber number raw))
          ∨ ∃ e, outcome.1 = .error e ∧ outcome.2.raws = list.raws) := by
  intro hclaim
  obtain ⟨outcome, houtcome, hkept⟩ := hclaim (fun _ => true)
    { fields := [{ raw := [], handle := 1 }], slice := 0, ledger := Ledger.make {} } 1
    Ledger.holds_empty.make
  have hresult : outcome.2.raws = [] := by
    have hcleared : (clearRawFieldsByNumber (fun _ => true)
        { fields := [{ raw := [], handle := 1 }], slice := 0, ledger := Ledger.make {} } 1).map
        (fun outcome => outcome.2.raws) = some [] := by decide
    rw [houtcome] at hcleared
    exact Option.some.inj hcleared
  rcases hkept with ⟨-, hraws⟩ | ⟨e, -, hraws⟩
  · rw [hresult] at hraws
    revert hraws
    decide
  · rw [hresult] at hraws
    cases hraws

end Pbz
