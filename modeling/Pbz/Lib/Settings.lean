import Mathlib.Tactic

set_option autoImplicit false

/-! # Settings

Options set single members of a record. A member keeps what the last option says that sets it, and
on nested levels the nearest level counts that sets it at all.
-/

namespace Settings

variable {S O α ε : Type}

/-- What the last of some options sets, if one does. -/
def lastSetting (sets : O → Option α) (options : List O) : Option α :=
  options.reverse.findSome? sets

/-- What the first of some levels sets, if one does; they go from inside out. -/
def nearest (sets : O → Option α) (levels : List (List O)) : Option α :=
  levels.findSome? (lastSetting sets)

/-- An option that is applied to a record sets the member `get` as `sets` says, and does not change
it where `sets` says nothing. -/
def Governs (apply : S → O → Except ε S) (get : S → α) (sets : O → Option α) : Prop :=
  ∀ s o s', apply s o = .ok s' → get s' = (sets o).getD (get s)

variable {apply : S → O → Except ε S} {get : S → α} {sets : O → Option α}

@[simp] theorem lastSetting_nil : lastSetting sets [] = none := rfl

theorem lastSetting_append (front back : List O) :
    lastSetting sets (front ++ back) = (lastSetting sets back).or (lastSetting sets front) := by
  rw [lastSetting, List.reverse_append, List.findSome?_append]
  rfl

theorem lastSetting_cons (o : O) (rest : List O) :
    lastSetting sets (o :: rest) = (lastSetting sets rest).or (sets o) := by
  have hone : lastSetting sets [o] = sets o := by
    cases h : sets o <;> simp [lastSetting, h]
  rw [← List.singleton_append, lastSetting_append, hone]

theorem exists_of_lastSetting {options : List O} {a : α} (h : lastSetting sets options = some a) :
    ∃ o ∈ options, sets o = some a := by
  obtain ⟨o, hmem, ho⟩ := List.exists_of_findSome?_eq_some h
  exact ⟨o, List.mem_reverse.mp hmem, ho⟩

theorem nearest_cons (options : List O) (outer : List (List O)) :
    nearest sets (options :: outer) = (lastSetting sets options).or (nearest sets outer) := by
  rw [nearest, List.findSome?_cons]
  cases lastSetting sets options <;> rfl

@[simp] theorem nearest_singleton (options : List O) :
    nearest sets [options] = lastSetting sets options := by
  rw [nearest_cons]
  exact Option.or_none

/-- A run over options leaves in a member what the last of them says. -/
theorem Governs.foldlM (h : Governs apply get sets) {options : List O} {s s' : S}
    (hrun : options.foldlM apply s = .ok s') :
    get s' = (lastSetting sets options).getD (get s) := by
  induction options generalizing s with
  | nil =>
      cases hrun
      rfl
  | cons o rest ih =>
      rw [List.foldlM_cons] at hrun
      cases hfirst : apply s o with
      | error e =>
          rw [hfirst] at hrun
          cases hrun
      | ok mid =>
          rw [hfirst] at hrun
          rw [ih hrun, h s o mid hfirst, lastSetting_cons]
          cases lastSetting sets rest <;> rfl

end Settings
