import Mathlib.Tactic
import Mathlib.Logic.Relation

set_option autoImplicit false

/-! # Lists in post-order

A list of nodes in which the edges of each node lead to nodes in front of it, as a depth-first
search leaves them. It is closed under the edges, and no node in it lies on a cycle.
-/

namespace PostOrder

open Relation

variable {α : Type} {edge : α → α → Prop} {l before after : List α} {a b : α}

inductive Ordered (edge : α → α → Prop) : List α → Prop where
  | nil : Ordered edge []
  | snoc {l : List α} {a : α} (h : Ordered edge l) (hedges : ∀ b, edge a b → b ∈ l) :
      Ordered edge (l ++ [a])

/-- The edges of a node lead to nodes in front of it. -/
theorem Ordered.mem_before (h : Ordered edge l) (hl : l = before ++ a :: after)
    (hab : edge a b) : b ∈ before := by
  induction h generalizing after with
  | nil => exact absurd hl.symm (by simp)
  | @snoc l x h hedges ih =>
      rcases List.eq_nil_or_concat after with rfl | ⟨front, last, rfl⟩
      · obtain ⟨rfl, hx⟩ := List.append_inj' hl rfl
        obtain rfl : x = a := by simpa using hx
        exact hedges b hab
      · have hsplit : l ++ [x] = (before ++ a :: front) ++ [last] := by simp [hl]
        obtain ⟨rfl, -⟩ := List.append_inj' hsplit rfl
        exact ih rfl

theorem Ordered.mem_of_edge (h : Ordered edge l) (ha : a ∈ l) (hab : edge a b) : b ∈ l := by
  obtain ⟨before, after, hl⟩ := List.append_of_mem ha
  rw [hl]
  exact List.mem_append_left _ (h.mem_before hl hab)

theorem Ordered.mem_of_reaches (h : Ordered edge l) (ha : a ∈ l) (hab : ReflTransGen edge a b) :
    b ∈ l := by
  induction hab with
  | refl => exact ha
  | tail _ hstep ih => exact h.mem_of_edge ih hstep

/-- No node lies on a cycle. -/
theorem Ordered.acyclic (h : Ordered edge l) (ha : a ∈ l) : ¬ TransGen edge a a := by
  induction h with
  | nil => exact absurd ha (by simp)
  | @snoc l x h hedges ih =>
      by_cases hl : a ∈ l
      · exact ih hl
      · obtain rfl : a = x := by simpa [hl] using ha
        -- the first step of a cycle leads to the nodes in front, which no path leaves
        intro hcycle
        obtain ⟨b, hab, hba⟩ := TransGen.head'_iff.mp hcycle
        exact hl (h.mem_of_reaches (hedges b hab) hba)

end PostOrder
