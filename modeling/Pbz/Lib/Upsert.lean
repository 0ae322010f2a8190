import Mathlib.Tactic

set_option autoImplicit false

/-! # Lists with one place for each key

`upsert` puts an element in the place of the first one with its key, or at the end. Whether two
elements have one key is a relation `same` that is symmetric and transitive; an element need not
be related to itself, and then it always goes to the end.

What is built by putting in the elements of a list has each key once, at its first place and with
its last element: `foldl_upsert_eq`.
-/

namespace Upsert

variable {α : Type}

/-- The element in the place of the first one with its key, or at the end. -/
def upsert (same : α → α → Bool) (xs : List α) (y : α) : List α :=
  match xs with
  | [] => [y]
  | x :: rest => if same x y then y :: rest else x :: upsert same rest y

/-- Equality of keys, where some elements may have none. -/
structure PartialKey (same : α → α → Bool) : Prop where
  symm : ∀ {x y}, same x y = true → same y x = true
  trans : ∀ {x y z}, same x y = true → same y z = true → same x z = true

/-- No two elements have one key. -/
def Distinct (same : α → α → Bool) (xs : List α) : Prop :=
  xs.Pairwise (fun x y => same x y = false)

section

variable {same : α → α → Bool}

theorem upsert_nil (y : α) : upsert same [] y = [y] := rfl

theorem upsert_cons (x : α) (rest : List α) (y : α) :
    upsert same (x :: rest) y = if same x y then y :: rest else x :: upsert same rest y := rfl

theorem PartialKey.symm_false (hs : PartialKey same) {x y : α} (h : same x y = false) :
    same y x = false := by
  rw [← Bool.not_eq_true] at h ⊢
  exact fun hc => h (hs.symm hc)

/-- Elements with one key have it in common with the same others. -/
theorem PartialKey.congr_right (hs : PartialKey same) {x y z : α} (h : same y z = true) :
    same x y = same x z := by
  rw [Bool.eq_iff_iff]
  exact ⟨fun hx => hs.trans hx h, fun hx => hs.trans hx (hs.symm h)⟩

theorem PartialKey.congr_left (hs : PartialKey same) {x y z : α} (h : same x y = true) :
    same x z = same y z := by
  rw [Bool.eq_iff_iff]
  exact ⟨fun hx => hs.trans (hs.symm h) hx, fun hx => hs.trans h hx⟩

/-- An element with a new key goes to the end. -/
theorem upsert_fresh {xs : List α} {y : α} (h : ∀ x ∈ xs, same x y = false) :
    upsert same xs y = xs ++ [y] := by
  induction xs with
  | nil => rfl
  | cons x rest ih =>
      rw [upsert_cons, h x List.mem_cons_self, if_neg (by simp),
        ih (fun w hw => h w (List.mem_cons_of_mem _ hw))]
      rfl

theorem upsert_split {front back : List α} {x y : α} (hx : same x y = true)
    (h : ∀ w ∈ front, same w y = false) :
    upsert same (front ++ x :: back) y = front ++ y :: back := by
  induction front with
  | nil => rw [List.nil_append, upsert_cons, if_pos hx, List.nil_append]
  | cons w rest ih =>
      rw [List.cons_append, upsert_cons, h w List.mem_cons_self, if_neg (by simp),
        ih (fun v hv => h v (List.mem_cons_of_mem _ hv))]
      rfl

theorem upsert_ne_nil (xs : List α) (y : α) : upsert same xs y ≠ [] := by
  cases xs with
  | nil => simp [upsert_nil]
  | cons x rest =>
      rw [upsert_cons]
      split <;> simp

theorem mem_upsert {xs : List α} {y z : α} (h : z ∈ upsert same xs y) : z ∈ xs ∨ z = y := by
  induction xs with
  | nil => exact Or.inr (by simpa [upsert_nil] using h)
  | cons x rest ih =>
      rw [upsert_cons] at h
      split at h
      · rcases List.mem_cons.mp h with h | h
        · exact Or.inr h
        · exact Or.inl (List.mem_cons_of_mem _ h)
      · rcases List.mem_cons.mp h with h | h
        · exact Or.inl (by rw [h]; exact List.mem_cons_self)
        · exact (ih h).imp_left (List.mem_cons_of_mem _)

/-- Keys that are different stay different. -/
theorem Distinct.upsert (hs : PartialKey same) {xs : List α} (h : Distinct same xs) (y : α) :
    Distinct same (upsert same xs y) := by
  induction xs with
  | nil => exact List.pairwise_singleton _ _
  | cons x rest ih =>
      obtain ⟨hhead, htail⟩ := List.pairwise_cons.mp h
      rw [upsert_cons]
      split
      · next hxy =>
        refine List.pairwise_cons.mpr ⟨fun w hw => ?_, htail⟩
        rw [← hs.congr_left hxy]
        exact hhead w hw
      · next hxy =>
        refine List.pairwise_cons.mpr ⟨fun w hw => ?_, ih htail⟩
        rcases mem_upsert hw with hw | rfl
        · exact hhead w hw
        · simpa using hxy

theorem Distinct.foldl_upsert (hs : PartialKey same) {ys : List α} :
    ∀ {xs : List α}, Distinct same xs → Distinct same (ys.foldl (Upsert.upsert same) xs) := by
  induction ys with
  | nil => intro xs h; exact h
  | cons y rest ih => intro xs h; exact ih (h.upsert hs y)

/-! ## Putting in twice -/

/-- The later of two elements with one key stays. -/
theorem upsert_upsert (hs : PartialKey same) {y z : α} (h : same y z = true) (xs : List α) :
    upsert same (upsert same xs y) z = upsert same xs z := by
  induction xs with
  | nil => simp only [upsert_nil, upsert_cons, h, if_true]
  | cons x rest ih =>
      rw [upsert_cons, upsert_cons, ← hs.congr_right h]
      split
      · rw [upsert_cons, if_pos h]
      · next hxy =>
        rw [upsert_cons, ← hs.congr_right h, if_neg hxy, ih]

/-- An element that takes a place does so before or after one with another key. -/
theorem upsert_comm (hs : PartialKey same) {y z : α} (h : same y z = false) {xs : List α}
    (hz : ∃ x ∈ xs, same x z = true) :
    upsert same (upsert same xs y) z = upsert same (upsert same xs z) y := by
  induction xs with
  | nil => simp at hz
  | cons x rest ih =>
      cases hxz : same x z with
      | true =>
          have hxy : same x y = false := by
            rw [← Bool.not_eq_true]
            intro hxy
            rw [hs.trans (hs.symm hxy) hxz] at h
            simp at h
          simp only [upsert_cons, hxy, hxz, hs.symm_false h, Bool.false_eq_true, if_false, if_true]
      | false =>
          cases hxy : same x y with
          | true => simp only [upsert_cons, hxy, hxz, h, Bool.false_eq_true, if_false, if_true]
          | false =>
              obtain ⟨w, hw, hwz⟩ := hz
              have hrest : ∃ w ∈ rest, same w z = true := by
                rcases List.mem_cons.mp hw with rfl | hw
                · rw [hxz] at hwz
                  simp at hwz
                · exact ⟨w, hw, hwz⟩
              simp only [upsert_cons, hxy, hxz, Bool.false_eq_true, if_false, ih hrest]

/-- The place of a key stays taken. -/
theorem exists_upsert (hs : PartialKey same) {xs : List α} {y z : α}
    (hz : (∃ x ∈ xs, same x z = true) ∨ same y z = true) :
    ∃ x ∈ upsert same xs y, same x z = true := by
  induction xs with
  | nil =>
      refine ⟨y, List.mem_singleton.mpr rfl, ?_⟩
      simpa using hz
  | cons x rest ih =>
      rw [upsert_cons]
      cases hxy : same x y with
      | true =>
          rw [if_pos rfl]
          rcases hz with ⟨w, hw, hwz⟩ | hyz
          · rcases List.mem_cons.mp hw with rfl | hw
            · exact ⟨y, List.mem_cons_self, hs.trans (hs.symm hxy) hwz⟩
            · exact ⟨w, List.mem_cons_of_mem _ hw, hwz⟩
          · exact ⟨y, List.mem_cons_self, hyz⟩
      | false =>
          rw [if_neg (by simp)]
          rcases hz with ⟨w, hw, hwz⟩ | hyz
          · rcases List.mem_cons.mp hw with rfl | hw
            · exact ⟨_, List.mem_cons_self, hwz⟩
            · obtain ⟨v, hv, hvz⟩ := ih (Or.inl ⟨w, hw, hwz⟩)
              exact ⟨v, List.mem_cons_of_mem _ hv, hvz⟩
          · obtain ⟨v, hv, hvz⟩ := ih (Or.inr hyz)
            exact ⟨v, List.mem_cons_of_mem _ hv, hvz⟩

/-- An element that takes a place may be put in before some others with other keys. -/
theorem foldl_upsert_comm (hs : PartialKey same) {z : α} {ys : List α}
    (h : ∀ y ∈ ys, same y z = false) : ∀ {xs : List α}, (∃ x ∈ xs, same x z = true) →
      upsert same (ys.foldl (upsert same) xs) z = ys.foldl (upsert same) (upsert same xs z) := by
  induction ys with
  | nil => intro xs _; rfl
  | cons y rest ih =>
      intro xs hz
      rw [List.foldl_cons, List.foldl_cons,
        ih (fun w hw => h w (List.mem_cons_of_mem _ hw)) (exists_upsert hs (Or.inl hz)),
        upsert_comm hs (h y List.mem_cons_self) hz]

/-- Putting in a list with one more element is putting the element in last. -/
theorem foldl_upsert_upsert (hs : PartialKey same) {ys : List α} (h : Distinct same ys) (z : α) :
    ∀ xs : List α, (upsert same ys z).foldl (upsert same) xs
      = upsert same (ys.foldl (upsert same) xs) z := by
  induction ys with
  | nil => intro xs; rfl
  | cons y rest ih =>
      intro xs
      obtain ⟨hhead, htail⟩ := List.pairwise_cons.mp h
      rw [upsert_cons, List.foldl_cons]
      cases hyz : same y z with
      | true =>
          have hothers : ∀ w ∈ rest, same w z = false := fun w hw => by
            rw [← hs.congr_right hyz]
            exact hs.symm_false (hhead w hw)
          rw [if_pos rfl, List.foldl_cons, foldl_upsert_comm hs hothers
            (exists_upsert hs (Or.inr hyz)), upsert_upsert hs hyz]
      | false => rw [if_neg (by simp), List.foldl_cons, ih htail]

/-- What is put in is seen through a view that tells the keys apart. -/
theorem map_upsert_congr {β : Type} (f : α → β)
    (hf : ∀ {x x' y y'}, f x = f x' → f y = f y' → same x y = same x' y') {y y' : α}
    (hy : f y = f y') : ∀ {xs xs' : List α}, xs.map f = xs'.map f →
      (upsert same xs y).map f = (upsert same xs' y').map f := by
  intro xs
  induction xs with
  | nil =>
      intro xs' h
      have hnil : xs' = [] := by simpa using h.symm
      rw [hnil, upsert_nil, upsert_nil, List.map_singleton, List.map_singleton, hy]
  | cons x rest ih =>
      intro xs' h
      cases xs' with
      | nil => simp at h
      | cons x' rest' =>
          simp only [List.map_cons, List.cons.injEq] at h
          rw [upsert_cons, upsert_cons, hf h.1 hy]
          split
          · rw [List.map_cons, List.map_cons, hy, h.2]
          · rw [List.map_cons, List.map_cons, h.1, ih h.2]

/-! ## First places and last elements -/

/-- The elements of the list whose key does not occur in front of them, where `seen` is in front of
the list. -/
def firstsFrom (same : α → α → Bool) (seen : List α) : List α → List α
  | [] => []
  | x :: rest =>
      if seen.any (fun w => same w x) then firstsFrom same (seen ++ [x]) rest
      else x :: firstsFrom same (seen ++ [x]) rest

/-- The first element of each key. -/
def firsts (same : α → α → Bool) (xs : List α) : List α := firstsFrom same [] xs

/-- The last element of the list with the key of `x`, and `x` itself if there is none. -/
def lastLike (same : α → α → Bool) (xs : List α) (x : α) : α :=
  (xs.reverse.find? (fun w => same w x)).getD x

theorem firstsFrom_concat (seen xs : List α) (z : α) :
    firstsFrom same seen (xs ++ [z])
      = firstsFrom same seen xs ++ if (seen ++ xs).any (fun w => same w z) then [] else [z] := by
  induction xs generalizing seen with
  | nil =>
      rw [List.nil_append, List.append_nil, firstsFrom, firstsFrom, firstsFrom]
      rfl
  | cons x rest ih =>
      rw [List.cons_append, firstsFrom, firstsFrom, ih, List.append_assoc, List.singleton_append]
      split
      · rfl
      · rw [List.cons_append]

theorem firsts_concat (xs : List α) (z : α) :
    firsts same (xs ++ [z]) = firsts same xs ++ if xs.any (fun w => same w z) then [] else [z] := by
  rw [firsts, firstsFrom_concat, List.nil_append]
  rfl

theorem lastLike_concat (xs : List α) (z x : α) :
    lastLike same (xs ++ [z]) x = if same z x then z else lastLike same xs x := by
  rw [lastLike, List.reverse_append, List.reverse_singleton, List.singleton_append,
    List.find?_cons]
  cases same z x <;> rfl

/-- The last element with a key has the same others in common with the key. -/
theorem same_lastLike (hs : PartialKey same) (xs : List α) (x z : α) :
    same (lastLike same xs x) z = same x z := by
  rw [lastLike]
  cases hf : xs.reverse.find? (fun w => same w x) with
  | none => rfl
  | some w =>
      have hw : same w x = true := by simpa using List.find?_some hf
      exact hs.congr_left hw

theorem mem_of_mem_firsts {xs : List α} : ∀ x ∈ firsts same xs, x ∈ xs := by
  have key : ∀ seen, ∀ x ∈ firstsFrom same seen xs, x ∈ xs := by
    induction xs with
    | nil => simp [firstsFrom]
    | cons y rest ih =>
        intro seen x hx
        rw [firstsFrom] at hx
        split at hx
        · exact List.mem_cons_of_mem _ (ih _ x hx)
        · rcases List.mem_cons.mp hx with rfl | hx
          · exact List.mem_cons_self
          · exact List.mem_cons_of_mem _ (ih _ x hx)
  exact key []

/-- An element is put in the place of the one that has its key, in a list that was mapped. -/
theorem upsert_map (hs : PartialKey same) {f : α → α} (hf : ∀ x z, same (f x) z = same x z)
    {xs : List α} (h : Distinct same xs) {z : α} (hz : ∃ x ∈ xs, same x z = true) :
    upsert same (xs.map f) z = xs.map (fun x => if same z x then z else f x) := by
  induction xs with
  | nil => simp at hz
  | cons x rest ih =>
      obtain ⟨hhead, htail⟩ := List.pairwise_cons.mp h
      rw [List.map_cons, upsert_cons, hf, List.map_cons]
      cases hxz : same x z with
      | true =>
          rw [if_pos rfl, if_pos (hs.symm hxz)]
          congr 1
          refine List.map_congr_left (fun w hw => ?_)
          have hwz : same z w = false := by
            rw [← hs.congr_left hxz]
            exact hhead w hw
          rw [hwz, if_neg (by simp)]
      | false =>
          obtain ⟨w, hw, hwz⟩ := hz
          have hrest : ∃ w ∈ rest, same w z = true := by
            rcases List.mem_cons.mp hw with rfl | hw
            · rw [hxz] at hwz
              simp at hwz
            · exact ⟨w, hw, hwz⟩
          rw [if_neg (by simp), hs.symm_false hxz, if_neg (by simp), ih htail hrest]

/-- What is built by putting in elements one after the other: each key once, at its first place,
with its last element. -/
theorem foldl_upsert_eq (hs : PartialKey same) (xs : List α) :
    xs.foldl (upsert same) [] = (firsts same xs).map (lastLike same xs)
      ∧ Distinct same (firsts same xs)
      ∧ ∀ z, (∃ x ∈ xs, same x z = true) → ∃ x ∈ firsts same xs, same x z = true := by
  induction xs using List.reverseRecOn with
  | nil => exact ⟨rfl, List.Pairwise.nil, by simp⟩
  | append_singleton xs y ih =>
      obtain ⟨hfold, hdistinct, hplace⟩ := ih
      have hlast : lastLike same (xs ++ [y])
          = fun x => if same y x then y else lastLike same xs x :=
        funext (lastLike_concat xs y)
      rw [List.foldl_append, List.foldl_cons, List.foldl_nil, hfold, firsts_concat, hlast]
      by_cases hy : ∃ x ∈ xs, same x y = true
      · have hany : xs.any (fun w => same w y) = true := by simpa using hy
        rw [hany, if_pos rfl, List.append_nil]
        refine ⟨upsert_map hs (same_lastLike hs xs) hdistinct (hplace y hy), hdistinct, ?_⟩
        rintro z ⟨x, hx, hxz⟩
        rcases List.mem_append.mp hx with hx | hx
        · exact hplace z ⟨x, hx, hxz⟩
        · obtain ⟨w, hw, hwy⟩ := hplace y hy
          rw [List.mem_singleton.mp hx] at hxz
          exact ⟨w, hw, hs.trans hwy hxz⟩
      · have hfresh : ∀ x ∈ xs, same x y = false := by
          intro x hx
          rw [← Bool.not_eq_true]
          exact fun h => hy ⟨x, hx, h⟩
        have hany : xs.any (fun w => same w y) = false := by simpa using hfresh
        have hfirsts : ∀ x ∈ firsts same xs, same x y = false :=
          fun x hx => hfresh x (mem_of_mem_firsts x hx)
        rw [hany, if_neg (by simp)]
        refine ⟨?_, ?_, ?_⟩
        · rw [List.map_append, upsert_fresh]
          · congr 1
            · refine List.map_congr_left (fun x hx => ?_)
              rw [hs.symm_false (hfirsts x hx), if_neg (by simp)]
            · have hnone : lastLike same xs y = y := by
                rw [lastLike, List.find?_eq_none.mpr (fun x hx => by
                  simpa using hfresh x (List.mem_reverse.mp hx))]
                rfl
              rw [List.map_singleton, hnone, ite_self]
          · intro w hw
            obtain ⟨x, hx, rfl⟩ := List.mem_map.mp hw
            rw [same_lastLike hs]
            exact hfirsts x hx
        · refine List.pairwise_append.mpr ⟨hdistinct, List.pairwise_singleton _ _, ?_⟩
          intro x hx w hw
          rw [List.mem_singleton.mp hw]
          exact hfirsts x hx
        · rintro z ⟨x, hx, hxz⟩
          rcases List.mem_append.mp hx with hx | hx
          · obtain ⟨w, hw, hwz⟩ := hplace z ⟨x, hx, hxz⟩
            exact ⟨w, List.mem_append_left _ hw, hwz⟩
          · exact ⟨x, List.mem_append_right _ hx, hxz⟩

end

end Upsert
