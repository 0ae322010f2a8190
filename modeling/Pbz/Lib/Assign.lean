import Pbz.Lib.Upsert

set_option autoImplicit false

/-! # Assigning to keys

`assign` is `upsert` for lists in which a key may have several places: all of them take the new
element. Lists can then be put in one after the other in any grouping, whatever they hold
(`foldl_assign_assoc`).
-/

namespace Upsert

variable {α : Type}

/-- The element in every place of its key, or at the end. -/
def assign (same : α → α → Bool) (xs : List α) (y : α) : List α :=
  if xs.any (fun x => same x y) then xs.map (fun x => if same x y then y else x) else xs ++ [y]

/-- Some element of the list has the key of another one. -/
def Taken (same : α → α → Bool) (xs : List α) (z : α) : Prop := ∃ x ∈ xs, same x z = true

section

variable {same : α → α → Bool}

theorem assign_of_taken {xs : List α} {y : α} (h : Taken same xs y) :
    assign same xs y = xs.map (fun x => if same x y then y else x) := by
  have hany : xs.any (fun x => same x y) = true := List.any_eq_true.mpr h
  rw [assign, if_pos hany]

theorem assign_of_not_taken {xs : List α} {y : α} (h : ¬ Taken same xs y) :
    assign same xs y = xs ++ [y] := by
  have hany : ¬ xs.any (fun x => same x y) = true := fun hc => h (List.any_eq_true.mp hc)
  rw [assign, if_neg hany]

theorem Taken.assign (hs : PartialKey same) {xs : List α} {z : α} (h : Taken same xs z) (y : α) :
    Taken same (assign same xs y) z := by
  obtain ⟨x, hx, hxz⟩ := h
  by_cases htaken : Taken same xs y
  · rw [assign_of_taken htaken]
    refine ⟨_, List.mem_map_of_mem hx, ?_⟩
    cases hxy : same x y with
    | true =>
        simp only [if_true]
        exact hs.trans (hs.symm hxy) hxz
    | false => simpa using hxz
  · rw [assign_of_not_taken htaken]
    exact ⟨x, List.mem_append_left _ hx, hxz⟩

theorem taken_assign_self (hs : PartialKey same) {xs : List α} {y z : α} (h : same y z = true) :
    Taken same (assign same xs y) z := by
  by_cases htaken : Taken same xs y
  · obtain ⟨x, hx, hxy⟩ := htaken
    exact Taken.assign hs ⟨x, hx, hs.trans hxy h⟩ y
  · rw [assign_of_not_taken htaken]
    exact ⟨y, List.mem_append_right _ List.mem_cons_self, h⟩

/-- The later of two elements with one key stays. -/
theorem assign_assign (hs : PartialKey same) {y z : α} (h : same y z = true) (xs : List α) :
    assign same (assign same xs y) z = assign same xs z := by
  have hkey : ∀ x, same x y = same x z := fun x => hs.congr_right h
  rw [assign_of_taken (taken_assign_self hs h)]
  by_cases htaken : Taken same xs y
  · have htaken' : Taken same xs z := by
      obtain ⟨x, hx, hxy⟩ := htaken
      exact ⟨x, hx, hs.trans hxy h⟩
    rw [assign_of_taken htaken, assign_of_taken htaken', List.map_map]
    refine List.map_congr_left fun x _ => ?_
    simp only [Function.comp_apply, hkey]
    cases hxz : same x z with
    | true => simp [h]
    | false => simp [hxz]
  · have htaken' : ¬ Taken same xs z := by
      rintro ⟨x, hx, hxz⟩
      exact htaken ⟨x, hx, (hkey x).trans hxz⟩
    rw [assign_of_not_taken htaken, assign_of_not_taken htaken', List.map_append]
    congr 1
    · conv_rhs => rw [← List.map_id xs]
      refine List.map_congr_left fun x hx => ?_
      have hxz : same x z = false := by
        rw [← Bool.not_eq_true]
        exact fun hc => htaken' ⟨x, hx, hc⟩
      simp [hxz]
    · simp [h]

/-- An element that takes a place does so before or after one with another key. -/
theorem assign_comm (hs : PartialKey same) {y z : α} (h : same y z = false) {xs : List α}
    (hz : Taken same xs z) :
    assign same (assign same xs y) z = assign same (assign same xs z) y := by
  have hzy : same z y = false := hs.symm_false h
  -- no element has both keys
  have hapart : ∀ x, same x y = true → same x z = false := by
    intro x hxy
    rw [← Bool.not_eq_true]
    intro hxz
    rw [hs.trans (hs.symm hxy) hxz] at h
    cases h
  rw [assign_of_taken (hz.assign hs y), assign_of_taken hz]
  by_cases hy : Taken same xs y
  · have hy' : Taken same (xs.map (fun x => if same x z then z else x)) y := by
      rw [← assign_of_taken hz]
      exact hy.assign hs z
    rw [assign_of_taken hy, assign_of_taken hy', List.map_map, List.map_map]
    refine List.map_congr_left fun x _ => ?_
    simp only [Function.comp_apply]
    cases hxy : same x y with
    | true => simp [hapart x hxy, hxy, h]
    | false =>
        cases hxz : same x z with
        | true => simp [hxz, hzy]
        | false => simp [hxz, hxy]
  · have hy' : ¬ Taken same (xs.map (fun x => if same x z then z else x)) y := by
      rintro ⟨w, hw, hwy⟩
      obtain ⟨x, hx, rfl⟩ := List.mem_map.mp hw
      split at hwy
      · rw [hzy] at hwy
        cases hwy
      · exact hy ⟨x, hx, hwy⟩
    rw [assign_of_not_taken hy, assign_of_not_taken hy', List.map_append]
    simp [h]

/-- What an element has written is written over by a later one with its key. -/
theorem assign_foldl_assign (hs : PartialKey same) {z : α} {ys : List α} :
    ∀ {xs : List α}, Taken same xs z →
      assign same (ys.foldl (assign same) (assign same xs z)) z
        = assign same (ys.foldl (assign same) xs) z := by
  induction ys with
  | nil => 
      rintro xs ⟨x, hx, hxz⟩
      exact assign_assign hs (hs.trans (hs.symm hxz) hxz) xs
  | cons y rest ih =>
      intro xs hz
      rw [List.foldl_cons, List.foldl_cons]
      cases hyz : same y z with
      | true => rw [assign_assign hs (hs.symm hyz)]
      | false =>
          rw [← assign_comm hs hyz hz]
          exact ih (hz.assign hs y)

/-- An element that takes a place may be put in before some others with other keys. -/
theorem foldl_assign_comm (hs : PartialKey same) {z : α} {ys : List α} (h : ¬ Taken same ys z) :
    ∀ {xs : List α}, Taken same xs z →
      assign same (ys.foldl (assign same) xs) z = ys.foldl (assign same) (assign same xs z) := by
  induction ys with
  | nil => exact fun _ => rfl
  | cons y rest ih =>
      intro xs hz
      have hyz : same y z = false := by
        rw [← Bool.not_eq_true]
        exact fun hc => h ⟨y, List.mem_cons_self, hc⟩
      have hrest : ¬ Taken same rest z := by
        rintro ⟨x, hx, hxz⟩
        exact h ⟨x, List.mem_cons_of_mem _ hx, hxz⟩
      rw [List.foldl_cons, List.foldl_cons, ih hrest (hz.assign hs y), assign_comm hs hyz hz]

/-- Putting in a list with one more element is putting the element in last. -/
theorem foldl_assign_assign (hs : PartialKey same) (ys : List α) (z : α) :
    ∀ xs : List α, (assign same ys z).foldl (assign same) xs
      = assign same (ys.foldl (assign same) xs) z := by
  by_cases hz : Taken same ys z
  · rw [assign_of_taken hz]
    induction ys with
    | nil => exact (List.not_mem_nil hz.choose_spec.1).elim
    | cons y rest ih =>
        intro xs
        rw [List.map_cons, List.foldl_cons, List.foldl_cons]
        by_cases hrest : Taken same rest z
        · rw [ih hrest]
          cases hyz : same y z with
          | true =>
              rw [if_pos rfl, ← assign_assign hs hyz xs]
              exact assign_foldl_assign hs (taken_assign_self hs hyz)
          | false => simp
        · have hyz : same y z = true := by
            obtain ⟨x, hx, hxz⟩ := hz
            rcases List.mem_cons.mp hx with rfl | hx
            · exact hxz
            · exact (hrest ⟨x, hx, hxz⟩).elim
          have hsame : rest.map (fun x => if same x z then z else x) = rest := by
            conv_rhs => rw [← List.map_id rest]
            refine List.map_congr_left fun x hx => ?_
            have hxz : ¬ same x z = true := fun hc => hrest ⟨x, hx, hc⟩
            simp [hxz]
          rw [hsame, hyz, if_pos rfl, foldl_assign_comm hs hrest (taken_assign_self hs hyz),
            assign_assign hs hyz]
  · intro xs
    rw [assign_of_not_taken hz, List.foldl_append, List.foldl_cons, List.foldl_nil]

/-- Putting in lists one after the other. -/
theorem foldl_assign_assoc (hs : PartialKey same) (xs ys zs : List α) :
    (zs.foldl (assign same) ys).foldl (assign same) xs
      = zs.foldl (assign same) (ys.foldl (assign same) xs) := by
  induction zs generalizing ys with
  | nil => rfl
  | cons z rest ih => rw [List.foldl_cons, List.foldl_cons, ih, foldl_assign_assign hs]

/-- Elements with keys of their own are put in one behind the other. -/
theorem foldl_assign_of_pairwise {ys : List α} : ∀ {xs : List α},
    (xs ++ ys).Pairwise (fun x y => same x y = false) → ys.foldl (assign same) xs = xs ++ ys := by
  induction ys with
  | nil => intro xs _; rw [List.foldl_nil, List.append_nil]
  | cons y ys ih =>
      intro xs h
      have hfree : ¬ Taken same xs y := by
        rintro ⟨x, hx, hxy⟩
        have hne := (List.pairwise_append.mp h).2.2 x hx y List.mem_cons_self
        rw [hxy] at hne
        cases hne
      have hsplit : xs ++ y :: ys = xs ++ [y] ++ ys := by
        rw [List.append_assoc, List.singleton_append]
      rw [hsplit] at h ⊢
      rw [List.foldl_cons, assign_of_not_taken hfree, ih h]

end

end Upsert
