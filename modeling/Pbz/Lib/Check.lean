import Mathlib.Tactic

set_option autoImplicit false

/-! # Checks

A check runs through data and stops with an error at the first thing it rejects. What it has
accepted when it comes to its end is the conjunction of its tests.
-/

namespace Check

variable {ε α : Type}

/-- Stop with an error if the condition holds. -/
def reject (condition : Bool) (e : ε) : Except ε Unit := if condition then .error e else .ok ()

/-- Check each element. -/
def forEach (check : α → Except ε Unit) : List α → Except ε Unit
  | [] => .ok ()
  | x :: rest => do
      check x
      forEach check rest

/-- Check each element together with the elements behind it. -/
def forTails (check : α → List α → Except ε Unit) : List α → Except ε Unit
  | [] => .ok ()
  | x :: rest => do
      check x rest
      forTails check rest

/-- Check each element together with all others, the ones in `before` among them. -/
def forOthers (check : α → List α → Except ε Unit) : List α → List α → Except ε Unit
  | _, [] => .ok ()
  | before, x :: rest => do
      check x (before ++ rest)
      forOthers check (before ++ [x]) rest

@[simp] theorem reject_eq_ok {condition : Bool} {e : ε} :
    reject condition e = .ok () ↔ condition = false := by
  cases condition <;> simp [reject]

/-- Two checks in a row. -/
@[simp] theorem bind_eq_ok {first : Except ε Unit} {second : Unit → Except ε Unit} :
    (first >>= second) = .ok () ↔ first = .ok () ∧ second () = .ok () := by
  cases first with
  | error e => simp [bind, Except.bind]
  | ok u => simp [bind, Except.bind]

/-- A test in front of a computation. -/
theorem reject_bind_eq_ok {condition : Bool} {e : ε} {rest : Unit → Except ε α} {x : α} :
    (reject condition e >>= rest) = .ok x ↔ condition = false ∧ rest () = .ok x := by
  cases condition <;> simp [reject, bind, Except.bind]

/-- What a computation behind another one has been given. -/
theorem of_bind_eq_ok {β : Type} {first : Except ε α} {second : α → Except ε β} {result : β}
    (h : (first >>= second) = .ok result) :
    ∃ value, first = .ok value ∧ second value = .ok result := by
  cases first with
  | error e => simp [bind, Except.bind] at h
  | ok value => exact ⟨value, rfl, h⟩

@[simp] theorem pure_eq_ok : (pure () : Except ε Unit) = .ok () := rfl

@[simp] theorem ite_eq_ok {p : Prop} [Decidable p] {first second : Except ε Unit} :
    (if p then first else second) = .ok () ↔
      (p → first = .ok ()) ∧ (¬ p → second = .ok ()) := by
  by_cases h : p
  · simp [h]
  · simp [h]

@[simp] theorem forEach_eq_ok {check : α → Except ε Unit} {xs : List α} :
    forEach check xs = .ok () ↔ ∀ x ∈ xs, check x = .ok () := by
  induction xs with
  | nil => simp [forEach]
  | cons x rest ih => rw [forEach, bind_eq_ok, ih, List.forall_mem_cons]

theorem forTails_cons {check : α → List α → Except ε Unit} {x : α} {rest : List α} :
    forTails check (x :: rest) = .ok () ↔ check x rest = .ok () ∧ forTails check rest = .ok () := by
  rw [forTails, bind_eq_ok]

/-- A check of every element with those behind it relates all pairs. -/
theorem pairwise_of_forTails {check : α → List α → Except ε Unit} {R : α → α → Prop} {xs : List α}
    (h : forTails check xs = .ok ())
    (hR : ∀ x rest, check x rest = .ok () → ∀ y ∈ rest, R x y) : xs.Pairwise R := by
  induction xs with
  | nil => exact List.Pairwise.nil
  | cons x rest ih =>
      obtain ⟨hx, hrest⟩ := forTails_cons.mp h
      exact List.Pairwise.cons (hR x rest hx) (ih hrest)

theorem forall_of_forTails {check : α → List α → Except ε Unit} {P : α → Prop} {xs : List α}
    (h : forTails check xs = .ok ()) (hP : ∀ x rest, check x rest = .ok () → P x) :
    ∀ x ∈ xs, P x := by
  induction xs with
  | nil => simp
  | cons x rest ih =>
      obtain ⟨hx, hrest⟩ := forTails_cons.mp h
      exact List.forall_mem_cons.mpr ⟨hP x rest hx, ih hrest⟩

end Check
