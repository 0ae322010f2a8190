import Mathlib.Order.Defs.LinearOrder
import Mathlib.Data.List.Basic
import Mathlib.Tactic

set_option autoImplicit false

/-! # The closest element of an ascending list

A search from the front for the last element whose key is not above a bound. It stops at the first
key above, so in a list whose keys ascend it finds the element with the greatest key up to the
bound.
-/

namespace Closest

variable {α κ : Type} [LinearOrder κ]

section

variable (key : α → κ) (bound : κ)

/-- Keep the element met last until a key is above the bound. -/
def closestFrom : Option α → List α → Option α
  | closest, [] => closest
  | closest, x :: rest => if bound < key x then closest else closestFrom (some x) rest

/-- The element has the greatest key up to the bound. -/
def IsClosest (xs : List α) (x : α) : Prop :=
  x ∈ xs ∧ key x ≤ bound ∧ ∀ y ∈ xs, key y ≤ bound → key y ≤ key x

end

/-- The keys ascend strictly. -/
def Ascending (key : α → κ) (xs : List α) : Prop := xs.Pairwise (fun x y => key x < key y)

variable {key : α → κ} {bound : κ} {xs : List α} {x : α}

theorem Ascending.eq_of_key (h : Ascending key xs) {y : α} (hx : x ∈ xs) (hy : y ∈ xs)
    (hkey : key x = key y) : x = y := by
  induction h with
  | nil => exact absurd hx List.not_mem_nil
  | cons hfirst _ ih =>
      rcases List.mem_cons.mp hx with hx | hx
      · rcases List.mem_cons.mp hy with hy | hy
        · rw [hx, hy]
        · rw [hx] at hkey
          exact absurd hkey (ne_of_lt (hfirst y hy))
      · rcases List.mem_cons.mp hy with hy | hy
        · rw [hy] at hkey
          exact absurd hkey.symm (ne_of_lt (hfirst x hx))
        · exact ih hx hy

/-- The search keeps the last of the elements up to the bound. -/
theorem closestFrom_eq (h : Ascending key xs) (closest : Option α) :
    closestFrom key bound closest xs
      = ((xs.filter (fun x => key x ≤ bound)).getLast?).or closest := by
  induction h generalizing closest with
  | nil => rfl
  | @cons first rest hfirst _ ih =>
      rw [closestFrom]
      split
      · next habove =>
        -- the keys behind it are above the bound as well
        have hnone : (first :: rest).filter (fun x => key x ≤ bound) = [] := by
          refine List.filter_eq_nil_iff.mpr fun y hy => ?_
          rw [decide_eq_true_eq, not_le]
          rcases List.mem_cons.mp hy with rfl | hy
          · exact habove
          · exact lt_trans habove (hfirst y hy)
        rw [hnone]
        rfl
      · next hle =>
        have hkeep : (first :: rest).filter (fun x => key x ≤ bound)
            = first :: rest.filter (fun x => key x ≤ bound) :=
          List.filter_cons_of_pos (decide_eq_true (not_lt.mp hle))
        rw [ih, hkeep, List.getLast?_cons]
        cases (rest.filter (fun x => key x ≤ bound)).getLast? <;> rfl

theorem isClosest_unique (h : Ascending key xs) {y : α} (hx : IsClosest key bound xs x)
    (hy : IsClosest key bound xs y) : x = y :=
  h.eq_of_key hx.1 hy.1 (le_antisymm (hy.2.2 x hx.1 hx.2.1) (hx.2.2 y hy.1 hy.2.1))

theorem isClosest_of_getLast? (h : Ascending key xs)
    (hlast : (xs.filter (fun x => key x ≤ bound)).getLast? = some x) :
    IsClosest key bound xs x := by
  obtain ⟨front, hfront⟩ := List.getLast?_eq_some_iff.mp hlast
  have hmem : x ∈ xs.filter (fun x => key x ≤ bound) := by
    rw [hfront]
    exact List.mem_append_right _ List.mem_cons_self
  have hsorted : Ascending key (front ++ [x]) := hfront ▸ h.sublist List.filter_sublist
  refine ⟨(List.mem_filter.mp hmem).1, of_decide_eq_true (List.mem_filter.mp hmem).2,
    fun y hy hle => ?_⟩
  have hy : y ∈ front ++ [x] := by
    rw [← hfront]
    exact List.mem_filter.mpr ⟨hy, decide_eq_true hle⟩
  rcases List.mem_append.mp hy with hy | hy
  · exact le_of_lt ((List.pairwise_append.mp hsorted).2.2 y hy x List.mem_cons_self)
  · rw [List.mem_singleton.mp hy]

/-- In an ascending list the search finds the element with the greatest key up to the bound. -/
theorem closestFrom_eq_some_iff (h : Ascending key xs) :
    closestFrom key bound none xs = some x ↔ IsClosest key bound xs x := by
  rw [closestFrom_eq h, Option.or_none]
  constructor
  · exact isClosest_of_getLast? h
  · intro hx
    cases hlast : (xs.filter (fun x => key x ≤ bound)).getLast? with
    | none =>
        have hnil := List.getLast?_eq_none_iff.mp hlast
        have hmem := List.filter_eq_nil_iff.mp hnil x hx.1
        exact absurd (decide_eq_true hx.2.1) hmem
    | some y => rw [isClosest_unique h hx (isClosest_of_getLast? h hlast)]

theorem closestFrom_eq_none_iff (h : Ascending key xs) :
    closestFrom key bound none xs = none ↔ ∀ x ∈ xs, bound < key x := by
  rw [closestFrom_eq h, Option.or_none, List.getLast?_eq_none_iff, List.filter_eq_nil_iff]
  simp only [decide_eq_true_eq, not_le]

end Closest
