import Mathlib.Tactic

set_option autoImplicit false

/-! # Removal by swapping

An array list removes an element in constant time by moving its last element into the gap.
`sweep p` removes every element that satisfies `p` in this way, in one pass from the front. The
order of what stays may change, its elements do not: `sweep_perm`.
-/

namespace SwapRemove

variable {α : Type}

/-- Remove the element at an index, the last element takes its place. -/
def swapRemove (xs : List α) (index : Nat) : List α :=
  match xs.getLast? with
  | none => []
  | some last => (xs.set index last).dropLast

/-- The pass from an index on; after a removal the same index is looked at again. -/
def sweepFrom (p : α → Bool) : Nat → Nat → List α → List α
  | 0, _, xs => xs
  | fuel + 1, index, xs =>
      match xs[index]? with
      | none => xs
      | some x =>
          if p x then sweepFrom p fuel index (swapRemove xs index)
          else sweepFrom p fuel (index + 1) xs

/-- Remove the elements that satisfy `p`. Each step shortens what lies ahead, so the length of
the list bounds the number of steps. -/
def sweep (p : α → Bool) (xs : List α) : List α := sweepFrom p xs.length 0 xs

/-- The last element first. -/
def rotate (xs : List α) : List α :=
  match xs.getLast? with
  | none => []
  | some last => last :: xs.dropLast

theorem rotate_perm (xs : List α) : (rotate xs).Perm xs := by
  cases xs using List.reverseRecOn with
  | nil => exact List.Perm.refl _
  | append_singleton xs x =>
      rw [rotate, List.getLast?_concat, List.dropLast_concat]
      exact (List.perm_append_singleton x xs).symm

/-- The elements in front of the gap stay, the last element leads those behind it. -/
theorem swapRemove_split (front : List α) (x : α) (back : List α) :
    swapRemove (front ++ x :: back) front.length = front ++ rotate back := by
  cases back using List.reverseRecOn with
  | nil => simp [swapRemove, rotate]
  | append_singleton back y =>
      have hl : (front ++ x :: (back ++ [y])).getLast? = some y := by
        rw [← List.cons_append, ← List.append_assoc, List.getLast?_concat]
      rw [swapRemove, hl, rotate, List.getLast?_concat, List.dropLast_concat]
      simp only [List.set_append_right _ _ (Nat.le_refl _), Nat.sub_self, List.set_cons_zero]
      rw [← List.cons_append, ← List.append_assoc, List.dropLast_concat]

theorem swapRemove_perm {xs : List α} {index : Nat} (h : index < xs.length) :
    (swapRemove xs index).Perm (xs.eraseIdx index) := by
  have hsplit : xs = xs.take index ++ xs[index] :: xs.drop (index + 1) := by simp
  have hlen : (xs.take index).length = index := by
    rw [List.length_take]; omega
  have hs := swapRemove_split (xs.take index) xs[index] (xs.drop (index + 1))
  rw [← hsplit, hlen] at hs
  rw [hs, List.eraseIdx_eq_take_drop_succ]
  exact (rotate_perm _).append_left _

/-- The pass keeps what lies in front of its index and filters the rest. -/
theorem sweepFrom_perm (p : α → Bool) : ∀ (fuel : Nat) (front back : List α),
    back.length ≤ fuel →
      (sweepFrom p fuel front.length (front ++ back)).Perm
        (front ++ back.filter (fun x => !p x)) := by
  intro fuel
  induction fuel with
  | zero =>
      intro front back h
      have hb : back = [] := List.length_eq_zero_iff.mp (by omega)
      subst hb
      exact List.Perm.refl _
  | succ fuel ih =>
      intro front back h
      cases back with
      | nil => simp [sweepFrom]
      | cons x back =>
          have hx : (front ++ x :: back)[front.length]? = some x := by simp
          rw [sweepFrom, hx]
          simp only
          by_cases hp : p x = true
          · rw [if_pos hp, swapRemove_split, List.filter_cons_of_neg (by simp [hp])]
            have hlen : (rotate back).length ≤ fuel := by
              rw [(rotate_perm back).length_eq]
              simp only [List.length_cons] at h
              omega
            exact (ih front (rotate back) hlen).trans
              (((rotate_perm back).filter _).append_left _)
          · have hcons : front ++ x :: back = (front ++ [x]) ++ back := by simp
            have hlen : front.length + 1 = (front ++ [x]).length := by simp
            rw [if_neg hp, List.filter_cons_of_pos (by simp [hp]), hcons, hlen]
            have key := ih (front ++ [x]) back (by simp only [List.length_cons] at h; omega)
            simpa only [List.append_assoc, List.singleton_append] using key

/-- What a sweep leaves is what does not satisfy `p`. -/
theorem sweep_perm (p : α → Bool) (xs : List α) :
    (sweep p xs).Perm (xs.filter (fun x => !p x)) := by
  have key := sweepFrom_perm p xs.length [] xs (Nat.le_refl _)
  simpa [sweep] using key

theorem mem_sweep {p : α → Bool} {xs : List α} {x : α} :
    x ∈ sweep p xs ↔ x ∈ xs ∧ p x = false := by
  rw [(sweep_perm p xs).mem_iff, List.mem_filter]
  simp

/-- A sweep with nothing to remove leaves the list as it is. -/
theorem sweep_eq_self {p : α → Bool} {xs : List α} (h : ∀ x ∈ xs, p x = false) :
    sweep p xs = xs := by
  have key : ∀ (fuel index : Nat), sweepFrom p fuel index xs = xs := by
    intro fuel
    induction fuel with
    | zero => intro index; rfl
    | succ fuel ih =>
        intro index
        rw [sweepFrom]
        cases hx : xs[index]? with
        | none => rfl
        | some x =>
            have hp := h x (List.mem_of_getElem? hx)
            simp only [hp, Bool.false_eq_true, if_false]
            exact ih _
  exact key _ _

end SwapRemove
