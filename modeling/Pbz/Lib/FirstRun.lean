import Mathlib.Data.List.TakeWhile
import Mathlib.Tactic

set_option autoImplicit false

/-! # The first run of a predicate

The first run of a predicate in a list is the longest part of the list that starts at the first
element with the predicate and consists of such elements. It holds all of them if and only if they
stand next to each other.
-/

namespace FirstRun

variable {α : Type} {p : α → Bool} {xs : List α}

def firstRun (p : α → Bool) (xs : List α) : List α := (xs.dropWhile (fun x => !p x)).takeWhile p

/-- The elements with the predicate stand next to each other. -/
def Adjacent (p : α → Bool) (xs : List α) : Prop :=
  ∃ front run back, xs = front ++ run ++ back ∧ (∀ x ∈ run, p x = true)
    ∧ ∀ x ∈ front ++ back, p x = false

/-- What lies behind the first run. -/
def behind (p : α → Bool) (xs : List α) : List α := (xs.dropWhile (fun x => !p x)).dropWhile p

theorem split_eq (p : α → Bool) (xs : List α) : xs.takeWhile (fun x => !p x) ++ firstRun p xs ++ behind p xs = xs := by
  rw [List.append_assoc, firstRun, behind, List.takeWhile_append_dropWhile,
    List.takeWhile_append_dropWhile]

theorem of_mem_firstRun : ∀ x ∈ firstRun p xs, p x = true :=
  fun _ hx => List.mem_takeWhile_imp hx

theorem of_mem_front : ∀ x ∈ xs.takeWhile (fun x => !p x), p x = false := by
  intro x hx
  simpa using List.mem_takeWhile_imp hx

/-- The first run, and the elements with the predicate behind it. -/
theorem filter_eq : xs.filter p = firstRun p xs ++ (behind p xs).filter p := by
  have hfront : (xs.takeWhile (fun x => !p x)).filter p = [] :=
    List.filter_eq_nil_iff.mpr (fun x hx => by simp [of_mem_front x hx])
  have hrun : (firstRun p xs).filter p = firstRun p xs := List.filter_eq_self.mpr of_mem_firstRun
  conv_lhs => rw [← split_eq p xs]
  rw [List.filter_append, List.filter_append, hfront, hrun, List.nil_append]

theorem firstRun_of_split {front run back : List α} (hf : ∀ x ∈ front, p x = false)
    (hr : ∀ x ∈ run, p x = true) (hb : ∀ x ∈ back, p x = false) :
    firstRun p (front ++ run ++ back) = run := by
  have hnone : back.takeWhile p = [] := by
    cases back with
    | nil => rfl
    | cons x rest => rw [List.takeWhile_cons_of_neg (by simp [hb x List.mem_cons_self])]
  rw [firstRun, List.append_assoc, List.dropWhile_append_of_pos (by simpa using hf)]
  cases run with
  | nil =>
      have hall : back.dropWhile (fun x => !p x) = [] :=
        List.dropWhile_eq_nil_iff.mpr (by simpa using hb)
      rw [List.nil_append, hall, List.takeWhile_nil]
  | cons x rest =>
      have hx := hr x List.mem_cons_self
      rw [List.cons_append, List.dropWhile_cons_of_neg (by simp [hx]), ← List.cons_append,
        List.takeWhile_append_of_pos hr, hnone, List.append_nil]

/-- The first run is all there is if and only if the elements stand next to each other. -/
theorem firstRun_eq_filter_iff : firstRun p xs = xs.filter p ↔ Adjacent p xs := by
  constructor
  · intro h
    rw [filter_eq, List.self_eq_append_right, List.filter_eq_nil_iff] at h
    refine ⟨_, _, _, (split_eq p xs).symm, of_mem_firstRun, fun x hx => ?_⟩
    rcases List.mem_append.mp hx with hx | hx
    · exact of_mem_front x hx
    · simpa using h x hx
  · rintro ⟨front, run, back, rfl, hr, hothers⟩
    have hf : ∀ x ∈ front, p x = false := fun x hx => hothers x (List.mem_append_left _ hx)
    have hb : ∀ x ∈ back, p x = false := fun x hx => hothers x (List.mem_append_right _ hx)
    have hrun : run.filter p = run := List.filter_eq_self.mpr hr
    have hfront : front.filter p = [] := List.filter_eq_nil_iff.mpr (by simpa using hf)
    have hback : back.filter p = [] := List.filter_eq_nil_iff.mpr (by simpa using hb)
    rw [firstRun_of_split hf hr hb, List.filter_append, List.filter_append, hfront, hrun, hback]
    simp

/-- The first run is empty only if there is no element with the predicate. -/
theorem firstRun_eq_nil_iff : firstRun p xs = [] ↔ xs.filter p = [] := by
  constructor
  · intro h
    have hdrop : xs.dropWhile (fun x => !p x) = [] := by
      cases hd : xs.dropWhile (fun x => !p x) with
      | nil => rfl
      | cons x rest =>
          have hx := List.head_dropWhile_not (fun x => !p x) (l := xs) (by rw [hd]; simp)
          simp only [hd, List.head_cons, Bool.not_eq_false'] at hx
          rw [firstRun, hd, List.takeWhile_cons_of_pos hx] at h
          simp at h
    rw [filter_eq, h, behind, hdrop]
    rfl
  · intro h
    rw [filter_eq] at h
    exact (List.append_eq_nil_iff.mp h).1

end FirstRun
