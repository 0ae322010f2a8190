import Mathlib.Tactic

set_option autoImplicit false

/-! # Generators

A generator gives its elements one by one: a call leads from a state to the next element and the
state behind it, or ends. A bound on the calls that are left comes with it, so that loops over its
elements end. The loops here hold no list of the elements: they hand each one to a body, compare
it with the place of a list, or run two generators side by side.
-/

structure Generator (σ α : Type) where
  next : σ → Option (α × σ)
  left : σ → Nat
  left_lt : ∀ {s a s'}, next s = some (a, s') → left s' < left s

namespace Generator

variable {σ τ α β ε : Type}

/-- What the calls give from a state on. -/
def items (g : Generator σ α) (s : σ) : List α :=
  match _h : g.next s with
  | none => []
  | some (a, s') => a :: items g s'
termination_by g.left s
decreasing_by exact g.left_lt ‹_›

/-- Hand each element to the body, up to its first error. -/
def forEach (g : Generator σ α) (body : β → α → Except ε β) (b : β) (s : σ) : Except ε β :=
  match _h : g.next s with
  | none => .ok b
  | some (a, s') => (body b a).bind (fun b => forEach g body b s')
termination_by g.left s
decreasing_by exact g.left_lt ‹_›

/-- Compare each element with the next place of a list. -/
def eqlAt [BEq α] (g : Generator σ α) (candidate : List α) (i : Nat) (s : σ) : Bool :=
  match _h : g.next s with
  | none => i == candidate.length
  | some (a, s') =>
      match candidate[i]? with
      | none => false
      | some x => if x != a then false else eqlAt g candidate (i + 1) s'
termination_by g.left s
decreasing_by exact g.left_lt ‹_›

/-- Compare each place of a list with the next element. -/
def eqlList [BEq α] (g : Generator σ α) : List α → σ → Bool
  | [], s => (g.next s).isNone
  | x :: rest, s =>
      match g.next s with
      | none => false
      | some (a, s') => if a != x then false else eqlList g rest s'

/-- Compare the elements of two generators. -/
def equal [BEq α] (g : Generator σ α) (g' : Generator τ α) (s : σ) (t : τ) : Bool :=
  match _h : g.next s with
  | none => (g'.next t).isNone
  | some (a, s') =>
      match g'.next t with
      | none => false
      | some (b, t') => if a != b then false else equal g g' s' t'
termination_by g.left s
decreasing_by exact g.left_lt ‹_›

section

variable (g : Generator σ α)

theorem items_of_none {s : σ} (h : g.next s = none) : g.items s = [] := by
  unfold items
  split
  · rfl
  · next h' => cases h.symm.trans h'

theorem items_of_some {s s' : σ} {a : α} (h : g.next s = some (a, s')) :
    g.items s = a :: g.items s' := by
  rw [items]
  split
  · next h' => cases h.symm.trans h'
  · next h' =>
    cases h.symm.trans h'
    rfl

/-- Only the next call matters. -/
theorem items_congr {s s' : σ} (h : g.next s = g.next s') : g.items s = g.items s' := by
  cases hnext : g.next s' with
  | none => rw [g.items_of_none hnext, g.items_of_none (h.trans hnext)]
  | some result => rw [g.items_of_some hnext, g.items_of_some (h.trans hnext)]

/-- Induction over the calls. -/
theorem calls_induction {P : σ → Prop} (hend : ∀ s, g.next s = none → P s)
    (hcall : ∀ s a s', g.next s = some (a, s') → P s' → P s) (s : σ) : P s := by
  cases h : g.next s with
  | none => exact hend s h
  | some result =>
      obtain ⟨a, s'⟩ := result
      exact hcall s a s' h (calls_induction hend hcall s')
termination_by g.left s
decreasing_by exact g.left_lt h

theorem forEach_eq (body : β → α → Except ε β) (b : β) (s : σ) :
    g.forEach body b s = (g.items s).foldlM body b := by
  induction s using g.calls_induction generalizing b with
  | hend s h =>
      rw [g.items_of_none h]
      unfold forEach
      split
      · rfl
      · next h' => cases h.symm.trans h'
  | hcall s a s' h ih =>
      rw [g.items_of_some h, List.foldlM_cons]
      unfold forEach
      split
      · next h' => cases h.symm.trans h'
      · next h' =>
        cases h.symm.trans h'
        exact congrArg (body b a).bind (funext ih)

end

section

variable [BEq α] [LawfulBEq α] (g : Generator σ α)

theorem eqlAt_iff {candidate : List α} {i : Nat} (hi : i ≤ candidate.length) (s : σ) :
    g.eqlAt candidate i s = true ↔ g.items s = candidate.drop i := by
  induction s using g.calls_induction generalizing i with
  | hend s h =>
      rw [g.items_of_none h]
      unfold eqlAt
      split
      · rw [beq_iff_eq, eq_comm (a := []), List.drop_eq_nil_iff]
        omega
      · next h' => cases h.symm.trans h'
  | hcall s a s' h ih =>
      rw [g.items_of_some h]
      unfold eqlAt
      split
      · next h' => cases h.symm.trans h'
      · next h' =>
        cases h.symm.trans h'
        rcases Nat.lt_or_ge i candidate.length with hlt | hge
        · rw [List.getElem?_eq_getElem hlt, List.drop_eq_getElem_cons hlt, List.cons.injEq,
            ← ih hlt]
          by_cases hitem : candidate[i] = a
          · simp [hitem]
          · simp [hitem, Ne.symm hitem]
        · rw [List.getElem?_eq_none hge, List.drop_of_length_le hge]
          simp

theorem eqlList_iff (candidate : List α) (s : σ) :
    g.eqlList candidate s = true ↔ g.items s = candidate := by
  induction candidate generalizing s with
  | nil =>
      cases h : g.next s with
      | none => simp [eqlList, h, g.items_of_none h]
      | some result => simp [eqlList, h, g.items_of_some h]
  | cons x candidate ih =>
      cases h : g.next s with
      | none => simp [eqlList, h, g.items_of_none h]
      | some result =>
          obtain ⟨a, s'⟩ := result
          rw [g.items_of_some h, List.cons.injEq, ← ih s']
          by_cases hitem : a = x
          · simp [eqlList, h, hitem]
          · simp [eqlList, h, hitem]

theorem equal_iff (g' : Generator τ α) (s : σ) (t : τ) :
    g.equal g' s t = true ↔ g.items s = g'.items t := by
  induction s using g.calls_induction generalizing t with
  | hend s h =>
      rw [g.items_of_none h]
      unfold equal
      split
      · cases h' : g'.next t with
        | none => simp [g'.items_of_none h']
        | some result => simp [g'.items_of_some h']
      · next h' => cases h.symm.trans h'
  | hcall s a s' h ih =>
      rw [g.items_of_some h]
      unfold equal
      split
      · next h' => cases h.symm.trans h'
      · next h' =>
        cases h.symm.trans h'
        cases h' : g'.next t with
        | none => simp [g'.items_of_none h']
        | some result =>
            obtain ⟨b, t'⟩ := result
            rw [g'.items_of_some h', List.cons.injEq, ← ih t']
            by_cases hitem : a = b
            · simp [hitem]
            · simp [hitem]

end

end Generator
