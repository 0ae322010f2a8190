import Mathlib.Data.List.Nodup

set_option autoImplicit false

/-! # Collecting without repetition

A collector puts elements in front of a list and fails instead of putting in an element twice.
What a collector adds is known from what its parts add.
-/

namespace FreshNames

variable {ε α β : Type}

/-- Where `collect` succeeds it has put `xs` in front, one after the other, and a list without
repetitions has stayed one. -/
def Adds (collect : List α → Except ε (List α)) (xs : List α) : Prop :=
  ∀ seen result, collect seen = .ok result →
    result = xs.reverse ++ seen ∧ (seen.Nodup → result.Nodup)

theorem adds_nil : Adds (fun seen => (.ok seen : Except ε (List α))) [] := by
  intro seen result h
  cases h
  exact ⟨rfl, id⟩

theorem Adds.bind {first second : List α → Except ε (List α)} {xs ys : List α}
    (hfirst : Adds first xs) (hsecond : Adds second ys) :
    Adds (fun seen => first seen >>= second) (xs ++ ys) := by
  intro seen result h
  change (first seen >>= second) = .ok result at h
  cases hmid : first seen with
  | error e => rw [hmid] at h; cases h
  | ok mid =>
      rw [hmid] at h
      obtain ⟨rfl, hnd₁⟩ := hfirst seen mid hmid
      obtain ⟨rfl, hnd₂⟩ := hsecond _ result h
      refine ⟨?_, fun hseen => hnd₂ (hnd₁ hseen)⟩
      rw [List.reverse_append, List.append_assoc]

theorem Adds.foldlM {collect : List α → β → Except ε (List α)} {names : β → List α} {ys : List β}
    (h : ∀ y ∈ ys, Adds (fun seen => collect seen y) (names y)) :
    Adds (fun seen => ys.foldlM collect seen) (ys.flatMap names) := by
  induction ys with
  | nil => exact adds_nil
  | cons y rest ih =>
      rw [List.forall_mem_cons] at h
      simp only [List.foldlM_cons, List.flatMap_cons]
      exact h.1.bind (ih h.2)

/-- A loop that puts in one element a round. -/
theorem Adds.foldlM_map {collect : List α → β → Except ε (List α)} {name : β → α} {ys : List β}
    (h : ∀ y, Adds (fun seen => collect seen y) [name y]) :
    Adds (fun seen => ys.foldlM collect seen) (ys.map name) := by
  rw [List.map_eq_flatMap]
  exact Adds.foldlM fun y _ => h y

/-- What a collector makes of the empty list has no repetitions. -/
theorem Adds.nodup {collect : List α → Except ε (List α)} {xs result : List α}
    (h : Adds collect xs) (hrun : collect [] = .ok result) : xs.Nodup := by
  obtain ⟨rfl, hnd⟩ := h [] result hrun
  have hrev := hnd List.nodup_nil
  rwa [List.append_nil, List.nodup_reverse] at hrev

end FreshNames
