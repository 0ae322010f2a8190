import Mathlib.Tactic

set_option autoImplicit false

/-! # Searches for a designated element

A search returns the first element of a list that passes a test. Where one element that passes it
is the designated one, the search returns it unless the element is missing or another one that
passes the test stands before it.
-/

namespace FirstMatch

variable {α : Type}

/-- Every element that passes the test is the target or stands behind it. -/
def Unshadowed (passes : α → Bool) (order : List α) (target : Option α) : Prop :=
  ∀ before x after, order = before ++ x :: after → passes x = true →
    target = some x ∨ ∃ y ∈ before, target = some y

variable {passes : α → Bool} {order : List α} {target : Option α}

/-- The search finds nothing or the target. -/
theorem find?_eq_none_or_target_iff (ht : ∀ x, target = some x → passes x = true) :
    order.find? passes = none ∨ order.find? passes = target ↔ Unshadowed passes order target := by
  constructor
  · intro h before x after he hp
    have hfound : order.find? passes ≠ none := by
      rw [ne_eq, List.find?_eq_none]
      intro hn
      exact hn x (by rw [he]; simp) hp
    obtain ⟨first, hf⟩ := Option.ne_none_iff_exists'.mp hfound
    have htarget : target = some first := (h.resolve_left hfound) ▸ hf
    obtain ⟨hfirst, front, back, hsplit, hfront⟩ := List.find?_eq_some_iff_append.mp hf
    rw [hsplit] at he
    -- the first element that passes the test is `x` or stands before it
    rcases List.append_eq_append_iff.mp he with ⟨middle, hb, hm⟩ | ⟨middle, hf', hm⟩
    · cases middle with
      | nil =>
          rw [List.nil_append] at hm
          exact Or.inl (by rw [htarget, (List.cons.inj hm).1])
      | cons y middle =>
          rw [List.cons_append] at hm
          refine Or.inr ⟨first, ?_, htarget⟩
          rw [hb, (List.cons.inj hm).1]
          simp
    · cases middle with
      | nil =>
          rw [List.nil_append] at hm
          exact Or.inl (by rw [htarget, (List.cons.inj hm).1])
      | cons y middle =>
          rw [List.cons_append] at hm
          have hx : x ∈ front := by rw [hf', (List.cons.inj hm).1]; simp
          have hn := hfront x hx
          rw [hp] at hn
          exact absurd hn (by simp)
  · intro h
    cases hf : order.find? passes with
    | none => exact Or.inl rfl
    | some first =>
        obtain ⟨hfirst, front, back, hsplit, hfront⟩ := List.find?_eq_some_iff_append.mp hf
        rcases h front first back hsplit hfirst with ht' | ⟨y, hy, ht'⟩
        · exact Or.inr ht'.symm
        · have hn := hfront y hy
          rw [ht y ht'] at hn
          exact absurd hn (by simp)

/-- The search finds the target, and nothing where there is none. -/
theorem find?_eq_target_iff (ht : ∀ x, target = some x → passes x = true) :
    order.find? passes = target
      ↔ Unshadowed passes order target ∧ ∀ x, target = some x → x ∈ order := by
  rw [← find?_eq_none_or_target_iff ht]
  constructor
  · intro h
    exact ⟨Or.inr h, fun x hx => List.mem_of_find?_eq_some (h.trans hx)⟩
  · rintro ⟨h | h, hmem⟩
    · cases target with
      | none => exact h
      | some x => exact absurd (ht x rfl) (List.find?_eq_none.mp h x (hmem x rfl))
    · exact h

/-! ## The first result -/

section

variable {β : Type}

theorem findSome?_congr {f g : α → Option β} {xs : List α} (h : ∀ x ∈ xs, f x = g x) :
    xs.findSome? f = xs.findSome? g := by
  induction xs with
  | nil => rfl
  | cons x xs ih =>
      rw [List.findSome?_cons, List.findSome?_cons, h x List.mem_cons_self,
        ih (fun y hy => h y (List.mem_cons_of_mem _ hy))]

/-- The first result is the result of the first element that has one. -/
theorem findSome?_eq_bind (f : α → Option β) (xs : List α) :
    xs.findSome? f = (xs.find? (fun x => (f x).isSome)).bind f := by
  induction xs with
  | nil => rfl
  | cons x xs ih =>
      rw [List.findSome?_cons, List.find?_cons]
      cases hx : f x with
      | none => simpa [hx] using ih
      | some b => simp [hx]

theorem findSome?_cons_or (f : α → Option β) (x : α) (xs : List α) :
    (x :: xs).findSome? f = (f x).or (xs.findSome? f) := by
  rw [List.findSome?_cons]
  cases f x <;> rfl

theorem findSome?_filter (f : α → Option β) (keep : α → Bool) (xs : List α) :
    (xs.filter keep).findSome? f = xs.findSome? (fun x => if keep x then f x else none) := by
  induction xs with
  | nil => rfl
  | cons x xs ih =>
      rw [findSome?_cons_or, List.filter_cons]
      split
      · rw [findSome?_cons_or, ih]
      · rw [ih, Option.none_or]

/-- A search among the elements that are kept finds the first result exactly when the element with
the first result is kept; here no two elements have one result. -/
theorem findSome?_filter_eq_iff {f : α → Option β} {keep : α → Bool} {order : List α}
    (hapart : ∀ x ∈ order, ∀ y ∈ order, ∀ b, f x = some b → f y = some b → x = y) :
    (order.filter keep).findSome? f = order.findSome? f
      ↔ ∀ before x after, order = before ++ x :: after → f x ≠ none →
          (∀ y ∈ before, f y = none) → keep x = true := by
  constructor
  · intro h before x after he hx hbefore
    obtain ⟨b, hb⟩ := Option.ne_none_iff_exists'.mp hx
    have hfirst : order.findSome? f = some b :=
      List.findSome?_eq_some_iff.mpr ⟨before, x, after, he, hb, hbefore⟩
    rw [hfirst] at h
    obtain ⟨y, hy, hyb⟩ := List.exists_of_findSome?_eq_some h
    obtain ⟨hmem, hkeep⟩ := List.mem_filter.mp hy
    rw [hapart x (by rw [he]; simp) y hmem b hb hyb]
    exact hkeep
  · intro h
    cases hf : order.findSome? f with
    | none =>
        rw [List.findSome?_eq_none_iff] at hf ⊢
        exact fun y hy => hf y (List.mem_filter.mp hy).1
    | some b =>
        obtain ⟨before, x, after, he, hb, hbefore⟩ := List.findSome?_eq_some_iff.mp hf
        have hkeep := h before x after he (by rw [hb]; simp) hbefore
        refine List.findSome?_eq_some_iff.mpr
          ⟨before.filter keep, x, after.filter keep, ?_, hb, fun y hy => ?_⟩
        · rw [he, List.filter_append, List.filter_cons_of_pos hkeep]
        · exact hbefore y (List.mem_filter.mp hy).1

end

end FirstMatch
