import Mathlib.Tactic

set_option autoImplicit false

/-! # Compaction of a list in place

A loop with a read and a write index goes over a list and moves what it keeps to the front. The
slots of the list are `some` value or, once a value has been moved out of them, `none`. `Holds` is
the invariant of such loops: what has been kept lies in front of the write index, what has not been
read from the read index on, and nothing is said about the slots between the two.
-/

namespace InPlace

variable {α : Type}

/-- The value just read goes to the write index. -/
def keep (slots : List (Option α)) (write read : Nat) (value : α) : List (Option α) :=
  if write ≠ read then (slots.set write (some value)).set read none else slots

/-- The value just read goes to the write index, and its old slot is left as it is. -/
def copy (slots : List (Option α)) (write read : Nat) (value : α) : List (Option α) :=
  if write ≠ read then slots.set write (some value) else slots

/-- The value just read goes to the place of one that was kept. -/
def replace (slots : List (Option α)) (index read : Nat) (value : α) : List (Option α) :=
  (slots.set index (some value)).set read none

/-- The value just read goes nowhere. -/
def discard (slots : List (Option α)) (read : Nat) : List (Option α) := slots.set read none

def Holds (slots : List (Option α)) (write read : Nat) (kept rest : List α) : Prop :=
  ∃ gap, slots = kept.map some ++ (gap ++ rest.map some) ∧ kept.length = write
    ∧ write + gap.length = read

theorem holds_start (values : List α) : Holds (values.map some) 0 0 [] values :=
  ⟨[], rfl, rfl, rfl⟩

section

variable {slots : List (Option α)} {write read : Nat} {kept rest : List α} {value : α}

/-- The slot at the read index holds the next value. -/
theorem Holds.get (h : Holds slots write read kept (value :: rest)) :
    slots[read]? = some (some value) := by
  obtain ⟨gap, rfl, hw, hr⟩ := h
  have hlen : read = (kept.map some).length + gap.length := by
    rw [List.length_map]
    omega
  rw [hlen, List.getElem?_append_right (by omega), Nat.add_sub_cancel_left,
    List.getElem?_append_right (by omega), Nat.sub_self, List.map_cons, List.getElem?_cons_zero]

theorem Holds.kept_eq (h : Holds slots write read kept rest) :
    slots.take write = kept.map some := by
  obtain ⟨gap, rfl, hw, -⟩ := h
  rw [← hw, List.take_left' (by rw [List.length_map])]

theorem set_length_append {front back : List (Option α)} {old new : Option α} :
    (front ++ old :: back).set front.length new = front ++ new :: back := by
  simp

theorem Holds.copy (h : Holds slots write read kept (value :: rest)) :
    Holds (copy slots write read value) (write + 1) (read + 1) (kept ++ [value]) rest := by
  obtain ⟨gap, hslots, hw, hr⟩ := h
  cases gap with
  | nil =>
      simp only [List.length_nil, Nat.add_zero] at hr
      refine ⟨[], ?_, by simp [hw], by simp [hr]⟩
      rw [InPlace.copy, if_neg (by omega), hslots]
      simp
  | cons slot gap =>
      rw [List.length_cons] at hr
      refine ⟨gap ++ [some value], ?_, by simp [hw], by simp; omega⟩
      have hwrite : write = (kept.map some).length := by rw [List.length_map, hw]
      rw [InPlace.copy, if_pos (by omega), hslots, hwrite, List.cons_append, set_length_append]
      simp

/-- What lies between the two indexes does not matter. -/
theorem Holds.set_gap (h : Holds slots write read kept rest) {index : Nat} (hw : write ≤ index)
    (hr : index < read) (slot : Option α) : Holds (slots.set index slot) write read kept rest := by
  obtain ⟨gap, hslots, hlen, hgap⟩ := h
  refine ⟨gap.set (index - write) slot, ?_, hlen, by rw [List.length_set, hgap]⟩
  have hlen' : (kept.map some).length = write := by rw [List.length_map, hlen]
  rw [hslots, List.set_append_right _ _ (by omega), hlen',
    List.set_append_left _ _ (by omega)]

theorem Holds.keep (h : Holds slots write read kept (value :: rest)) :
    Holds (keep slots write read value) (write + 1) (read + 1) (kept ++ [value]) rest := by
  have hle : write ≤ read := by
    obtain ⟨gap, -, -, hgap⟩ := h
    omega
  have hcopy := h.copy
  rw [InPlace.keep]
  rw [InPlace.copy] at hcopy
  by_cases hne : write ≠ read
  · rw [if_pos hne] at hcopy ⊢
    exact hcopy.set_gap (by omega) (by omega) none
  · rw [if_neg hne] at hcopy ⊢
    exact hcopy

theorem Holds.discard (h : Holds slots write read kept (value :: rest)) :
    Holds (discard slots read) write (read + 1) kept rest := by
  obtain ⟨gap, hslots, hw, hr⟩ := h
  refine ⟨gap ++ [none], ?_, hw, by simp; omega⟩
  have hread : read = (kept.map some ++ gap).length := by
    simp only [List.length_append, List.length_map]
    omega
  have hsplit : slots = (kept.map some ++ gap) ++ some value :: rest.map some := by
    rw [hslots]
    simp
  rw [InPlace.discard, hsplit, hread, set_length_append]
  simp

theorem Holds.replace (h : Holds slots write read kept (value :: rest)) {index : Nat}
    (hi : index < write) :
    Holds (replace slots index read value) write (read + 1) (kept.set index value) rest := by
  have hset : Holds (slots.set index (some value)) write read (kept.set index value)
      (value :: rest) := by
    obtain ⟨gap, hslots, hw, hr⟩ := h
    refine ⟨gap, ?_, by rw [List.length_set, hw], hr⟩
    rw [hslots, List.set_append_left index _ (by rw [List.length_map]; omega), List.map_set]
  exact hset.discard

/-- A loop over all read indexes that follows a step on what has been kept. -/
theorem foldl_range' {σ : Type} {I : σ → Nat → List α → List α → Prop} {pass : σ → Nat → σ}
    {step : List α → α → List α}
    (h : ∀ s read kept value rest, I s read kept (value :: rest) →
      I (pass s read) (read + 1) (step kept value) rest) (rest : List α) :
    ∀ (s : σ) (read : Nat) (kept : List α), I s read kept rest →
      I ((List.range' read rest.length).foldl pass s) (read + rest.length) (rest.foldl step kept)
        [] := by
  induction rest with
  | nil => exact fun s read kept hs => hs
  | cons value rest ih =>
      intro s read kept hs
      rw [List.length_cons, List.range'_succ, List.foldl_cons, List.foldl_cons]
      have hnext := ih (pass s read) (read + 1) (step kept value) (h s read kept value rest hs)
      have hsum : read + 1 + rest.length = read + (rest.length + 1) := by omega
      rw [hsum] at hnext
      exact hnext

end

end InPlace
