import Mathlib.Tactic
import Mathlib.Logic.Relation

set_option autoImplicit false

/-! # Searches of bounded depth

A search through a graph that stops at a depth and then answers "found". It may find a target
that is not there, but it misses none. So a graph in which every edge is kept for which the search
from its end back to its start says "not found" has no cycle, however small the bound.
-/

namespace BoundedSearch

open Relation

section

variable {α : Type} (next : α → List α) (isTarget : α → Bool)

/-- Look for a target along the edges, at most `depth` of them in a row. -/
def search : Nat → α → Bool
  | 0, _ => true
  | depth + 1, a => isTarget a || (next a).any (search depth)

/-- `steps` edges in a row lead from one node to another. -/
inductive Walk : Nat → α → α → Prop where
  | nil (a : α) : Walk 0 a a
  | cons {steps : Nat} {a b c : α} (hstep : b ∈ next a) (hrest : Walk steps b c) :
      Walk (steps + 1) a c

end

variable {α : Type} {next : α → List α} {isTarget : α → Bool} {a b : α}

/-- The search says "found" where it finds a target in front of the bound, and where it meets the
bound. -/
theorem search_eq_true_iff {depth : Nat} :
    search next isTarget depth a = true ↔
      (∃ steps < depth, ∃ b, Walk next steps a b ∧ isTarget b = true)
        ∨ ∃ b, Walk next depth a b := by
  induction depth generalizing a with
  | zero =>
      simp only [search, true_iff]
      exact .inr ⟨a, .nil a⟩
  | succ depth ih =>
      rw [search, Bool.or_eq_true, List.any_eq_true]
      constructor
      · rintro (htarget | ⟨b, hb, hfound⟩)
        · exact .inl ⟨0, by omega, a, .nil a, htarget⟩
        · rcases ih.mp hfound with ⟨steps, hlt, c, hwalk, htarget⟩ | ⟨c, hwalk⟩
          · exact .inl ⟨steps + 1, by omega, c, .cons hb hwalk, htarget⟩
          · exact .inr ⟨c, .cons hb hwalk⟩
      · rintro (⟨steps, hlt, c, hwalk, htarget⟩ | ⟨c, hwalk⟩)
        · cases hwalk with
          | nil => exact .inl htarget
          | @cons steps _ b _ hb hrest =>
              exact .inr ⟨b, hb, ih.mpr (.inl ⟨steps, by omega, c, hrest, htarget⟩)⟩
        · cases hwalk with
          | @cons _ _ b _ hb hrest => exact .inr ⟨b, hb, ih.mpr (.inr ⟨c, hrest⟩)⟩

/-- The search misses no target, at any depth. -/
theorem search_of_reaches (h : ReflTransGen (fun x y => y ∈ next x) a b)
    (htarget : isTarget b = true) (depth : Nat) : search next isTarget depth a = true := by
  induction h using ReflTransGen.head_induction_on generalizing depth with
  | refl =>
      cases depth with
      | zero => rfl
      | succ depth => rw [search, htarget, Bool.true_or]
  | head hstep _ ih =>
      cases depth with
      | zero => rfl
      | succ depth =>
          rw [search, Bool.or_eq_true, List.any_eq_true]
          exact .inr ⟨_, hstep, ih depth⟩

/-- Edges from whose end the search finds no way back form no cycle. -/
theorem not_transGen_of_search {kept : α → α → Prop} {isTarget : α → α → Bool} {depth : Nat}
    (hedge : ∀ x y, kept x y → y ∈ next x)
    (hback : ∀ x y, kept x y → search next (isTarget x) depth y = false)
    (hself : ∀ x, isTarget x x = true) : ¬ TransGen kept a a := by
  intro hcycle
  obtain ⟨b, hab, hba⟩ := TransGen.head'_iff.mp hcycle
  have hfound : search next (isTarget a) depth b = true :=
    search_of_reaches (ReflTransGen.mono hedge _ _ hba) (hself a) depth
  rw [hback a b hab] at hfound
  cases hfound

end BoundedSearch
