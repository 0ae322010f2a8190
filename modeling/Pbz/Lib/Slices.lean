import Mathlib.Tactic

set_option autoImplicit false

/-! # Slices and searches for a part

A slice of a list has its start in front of its end and its end within the list; a slice with other
bounds does not exist. The searches look for the first and the last place where a part occurs.
-/

namespace Slices

variable {α : Type}

/-- The elements from `start` up to `stop`, if these are bounds. -/
def sliceOf (xs : List α) (start stop : Nat) : Option (List α) :=
  if start ≤ stop ∧ stop ≤ xs.length then some ((xs.take stop).drop start) else none

theorem sliceOf_isSome_iff {xs : List α} {start stop : Nat} :
    (sliceOf xs start stop).isSome = true ↔ start ≤ stop ∧ stop ≤ xs.length := by
  unfold sliceOf
  split_ifs with h
  · simp [h]
  · simp [h]

theorem sliceOf_of_le {xs : List α} {start stop : Nat} (hstart : start ≤ stop)
    (hstop : stop ≤ xs.length) : sliceOf xs start stop = some ((xs.take stop).drop start) :=
  if_pos ⟨hstart, hstop⟩

variable [BEq α]

/-- The part stands in the list from `i` on. -/
def occursAt (part xs : List α) (i : Nat) : Bool := part.isPrefixOf (xs.drop i)

/-- The first place from `i` on, as far as `fuel` allows. -/
def indexFrom (part xs : List α) : Nat → Nat → Option Nat
  | 0, _ => none
  | fuel + 1, i => if occursAt part xs i then some i else indexFrom part xs fuel (i + 1)

/-- The first place at which the part occurs. -/
def indexOf (xs part : List α) : Option Nat := indexFrom part xs (xs.length + 1) 0

/-- The last place up to `i`. -/
def lastIndexTo (part xs : List α) : Nat → Option Nat
  | 0 => if occursAt part xs 0 then some 0 else none
  | i + 1 => if occursAt part xs (i + 1) then some (i + 1) else lastIndexTo part xs i

/-- The last place at which the part occurs. -/
def lastIndexOf (xs part : List α) : Option Nat := lastIndexTo part xs xs.length

theorem occursAt_le [LawfulBEq α] {part xs : List α} {i : Nat} (h : occursAt part xs i = true)
    (hpart : part ≠ []) : i + part.length ≤ xs.length := by
  have hprefix := (List.isPrefixOf_iff_prefix.mp h).length_le
  have hpos := List.length_pos_iff.mpr hpart
  rw [List.length_drop] at hprefix
  omega

/-- A part occurs in the front of the list where it occurs in the list and ends in the front. -/
theorem occursAt_take [LawfulBEq α] {part xs : List α} {i stop : Nat} :
    occursAt part (xs.take stop) i = true ↔
      occursAt part xs i = true ∧ part.length ≤ stop - i := by
  unfold occursAt
  rw [List.isPrefixOf_iff_prefix, List.isPrefixOf_iff_prefix, List.drop_take, List.prefix_take_iff]

theorem indexFrom_occurs {part xs : List α} {fuel i j : Nat}
    (h : indexFrom part xs fuel i = some j) : occursAt part xs j = true := by
  induction fuel generalizing i with
  | zero => cases h
  | succ fuel ih =>
      rw [indexFrom] at h
      split_ifs at h with hi
      · cases h
        exact hi
      · exact ih h

theorem indexOf_le [LawfulBEq α] {xs part : List α} {i : Nat} (h : indexOf xs part = some i)
    (hpart : part ≠ []) : i + part.length ≤ xs.length :=
  occursAt_le (indexFrom_occurs h) hpart

theorem lastIndexTo_eq_some_iff {part xs : List α} {n i : Nat} :
    lastIndexTo part xs n = some i ↔
      i ≤ n ∧ occursAt part xs i = true ∧ ∀ j, i < j → j ≤ n → occursAt part xs j = false := by
  induction n with
  | zero =>
      rw [lastIndexTo]
      split_ifs with hzero
      · constructor
        · rintro ⟨⟩
          exact ⟨le_rfl, hzero, fun j hj hle => by omega⟩
        · rintro ⟨hi, -, -⟩
          rw [Nat.le_zero.mp hi]
      · constructor
        · rintro ⟨⟩
        · rintro ⟨hi, hoccurs, -⟩
          rw [Nat.le_zero.mp hi] at hoccurs
          exact absurd hoccurs hzero
  | succ n ih =>
      rw [lastIndexTo]
      split_ifs with hlast
      · constructor
        · rintro ⟨⟩
          exact ⟨le_rfl, hlast, fun j hj hle => by omega⟩
        · rintro ⟨hi, -, hbehind⟩
          have hnot : ¬ i < n + 1 := by
            intro hlt
            rw [hbehind (n + 1) hlt le_rfl] at hlast
            cases hlast
          rw [show i = n + 1 by omega]
      · rw [ih]
        constructor
        · rintro ⟨hi, hoccurs, hbehind⟩
          refine ⟨by omega, hoccurs, fun j hj hle => ?_⟩
          by_cases hn : j = n + 1
          · rw [hn]
            exact Bool.not_eq_true _ ▸ hlast
          · exact hbehind j hj (by omega)
        · rintro ⟨hi, hoccurs, hbehind⟩
          have hne : i ≠ n + 1 := by
            rintro rfl
            exact hlast hoccurs
          exact ⟨by omega, hoccurs, fun j hj hle => hbehind j hj (by omega)⟩

/-- The last place at which a part occurs, and no place behind it. -/
theorem lastIndexOf_eq_some_iff [LawfulBEq α] {xs part : List α} (hpart : part ≠ []) {i : Nat} :
    lastIndexOf xs part = some i ↔
      occursAt part xs i = true ∧ ∀ j, i < j → occursAt part xs j = false := by
  rw [lastIndexOf, lastIndexTo_eq_some_iff]
  constructor
  · rintro ⟨-, hoccurs, hbehind⟩
    refine ⟨hoccurs, fun j hj => ?_⟩
    by_cases hle : j ≤ xs.length
    · exact hbehind j hj hle
    · rw [← Bool.not_eq_true]
      intro hj'
      have hbound := occursAt_le hj' hpart
      omega
  · rintro ⟨hoccurs, hbehind⟩
    have hbound := occursAt_le hoccurs hpart
    exact ⟨by omega, hoccurs, fun j hj _ => hbehind j hj⟩

end Slices
