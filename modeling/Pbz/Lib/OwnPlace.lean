import Mathlib.Tactic

set_option autoImplicit false

/-! # Passes over the places of a function

A pass goes through a list, and each turn replaces the value of a function at the place of its
element. Where no two elements have one place, every place is replaced at most once, and then from
what it held at the start of the pass.
-/

namespace OwnPlace

variable {α κ β ε : Type} [DecidableEq κ]

def pass (key : α → κ) (turn : α → β → Except ε β) : List α → (κ → β) → Except ε (κ → β)
  | [], g => .ok g
  | x :: rest, g =>
      match turn x (g (key x)) with
      | .error e => .error e
      | .ok y => pass key turn rest (Function.update g (key x) y)

section

variable {key : α → κ} {turn : α → β → Except ε β} {x : α} {rest xs : List α} {g g' : κ → β}

theorem pass_cons_eq_ok : pass key turn (x :: rest) g = .ok g' ↔
    ∃ y, turn x (g (key x)) = .ok y ∧
      pass key turn rest (Function.update g (key x) y) = .ok g' := by
  rw [pass]
  cases turn x (g (key x)) with
  | error e => simp
  | ok y => simp

/-- A turn does not see what the turns before it have done. -/
theorem update_at_rest (h : key x ∉ rest.map key) {z : α} (hz : z ∈ rest) (y : β) :
    Function.update g (key x) y (key z) = g (key z) := by
  have hne : key z ≠ key x := fun heq => h (heq ▸ List.mem_map_of_mem hz)
  exact Function.update_of_ne hne _ _

/-- Each place of the list has what its turn makes of the value at the start, and the other places
keep theirs. -/
theorem pass_eq_ok (hunique : (xs.map key).Nodup) : pass key turn xs g = .ok g' ↔
    (∀ x ∈ xs, turn x (g (key x)) = .ok (g' (key x))) ∧ ∀ k, k ∉ xs.map key → g' k = g k := by
  induction xs generalizing g with
  | nil =>
      constructor
      · intro h
        cases h
        exact ⟨fun x hx => (List.not_mem_nil hx).elim, fun k _ => rfl⟩
      · rintro ⟨-, hkeep⟩
        have : g' = g := funext fun k => hkeep k (by simp)
        rw [this, pass]
  | cons x rest ih =>
      obtain ⟨hfresh, hrest⟩ := List.nodup_cons.mp hunique
      rw [pass_cons_eq_ok]
      constructor
      · rintro ⟨y, hturn, hpass⟩
        obtain ⟨hturns, hkeep⟩ := (ih hrest).mp hpass
        have hown : g' (key x) = y := by
          rw [hkeep _ hfresh, Function.update_self]
        refine ⟨fun z hz => ?_, fun k hk => ?_⟩
        · rcases List.mem_cons.mp hz with rfl | hz
          · rw [hturn, hown]
          · rw [← hturns z hz, update_at_rest hfresh hz]
        · rw [List.map_cons, List.mem_cons, not_or] at hk
          rw [hkeep k hk.2, Function.update_of_ne hk.1]
      · rintro ⟨hturns, hkeep⟩
        refine ⟨g' (key x), hturns x List.mem_cons_self, (ih hrest).mpr ⟨fun z hz => ?_, fun k hk => ?_⟩⟩
        · rw [update_at_rest hfresh hz]
          exact hturns z (List.mem_cons_of_mem _ hz)
        · by_cases hkey : k = key x
          · rw [hkey, Function.update_self]
          · rw [Function.update_of_ne hkey]
            exact hkeep k (by rw [List.map_cons, List.mem_cons, not_or]; exact ⟨hkey, hk⟩)

/-- A pass comes to its end if every turn does. -/
theorem exists_pass_eq_ok (hunique : (xs.map key).Nodup) :
    (∃ g', pass key turn xs g = .ok g') ↔ ∀ x ∈ xs, ∃ y, turn x (g (key x)) = .ok y := by
  induction xs generalizing g with
  | nil => exact ⟨fun _ x hx => (List.not_mem_nil hx).elim, fun _ => ⟨g, rfl⟩⟩
  | cons x rest ih =>
      obtain ⟨hfresh, hrest⟩ := List.nodup_cons.mp hunique
      simp only [pass_cons_eq_ok, List.forall_mem_cons]
      constructor
      · rintro ⟨g', y, hturn, hpass⟩
        refine ⟨⟨y, hturn⟩, fun z hz => ?_⟩
        obtain ⟨w, hw⟩ := (ih hrest).mp ⟨g', hpass⟩ z hz
        rw [update_at_rest hfresh hz] at hw
        exact ⟨w, hw⟩
      · rintro ⟨⟨y, hturn⟩, hturns⟩
        have hpass : ∃ g', pass key turn rest (Function.update g (key x) y) = .ok g' := by
          refine (ih hrest).mpr fun z hz => ?_
          rw [update_at_rest hfresh hz]
          exact hturns z hz
        obtain ⟨g', hg'⟩ := hpass
        exact ⟨g', y, hturn, hg'⟩

end

end OwnPlace
