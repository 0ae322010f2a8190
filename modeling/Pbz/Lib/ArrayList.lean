import Mathlib.Tactic

set_option autoImplicit false

/-! # Lists with reserved memory

A list whose memory has room for `capacity` elements. Elements are written behind the last one
without a check; a write where no room is left is outside of the memory. Room is made by a move
into larger memory, whose size a policy chooses.
-/

structure ArrayList (α : Type) where
  items : List α := []
  capacity : Nat := 0
  fits : items.length ≤ capacity := by simp

namespace ArrayList

/-- How large the new memory is, from the size of the old one and the size that is needed. -/
structure Growth where
  size : Nat → Nat → Nat
  enough : ∀ current minimum, minimum ≤ size current minimum

variable {α : Type}

/-- The room that is left. -/
def unused (list : ArrayList α) : Nat := list.capacity - list.items.length

/-- A list whose memory is full. -/
def ofSlice (items : List α) : ArrayList α := { items, capacity := items.length, fits := le_rfl }

/-- Write behind the last element; `none` where no room is left. -/
def push (list : ArrayList α) (x : α) : Option (ArrayList α) :=
  if h : list.items.length < list.capacity then
    some
      { items := list.items ++ [x]
        capacity := list.capacity
        fits := by rw [List.length_append]; exact h }
  else none

/-- Write some elements at once. -/
def pushSlice (list : ArrayList α) (xs : List α) : Option (ArrayList α) :=
  if h : list.items.length + xs.length ≤ list.capacity then
    some
      { items := list.items ++ xs
        capacity := list.capacity
        fits := by rw [List.length_append]; exact h }
  else none

/-- Make room for more elements; `none` where there is no memory of the size. -/
def reserve (growth : Growth) (memory : Nat → Bool) (list : ArrayList α) (additional : Nat) :
    Option (ArrayList α) :=
  let needed := list.items.length + additional
  if needed ≤ list.capacity then some list
  else if memory (growth.size list.capacity needed) then
    some
      { items := list.items
        capacity := growth.size list.capacity needed
        fits := (Nat.le_add_right _ _).trans (growth.enough _ _) }
  else none

/-- Write behind the last element, after room has been made for it. -/
def append (growth : Growth) (memory : Nat → Bool) (list : ArrayList α) (x : α) :
    Option (ArrayList α) :=
  (list.reserve growth memory 1).bind (fun list => list.push x)

@[simp] theorem items_ofSlice (items : List α) : (ofSlice items).items = items := rfl

theorem push_of_unused {list : ArrayList α} (h : 0 < list.unused) (x : α) :
    ∃ list', list.push x = some list' ∧ list'.items = list.items ++ [x]
      ∧ list'.unused = list.unused - 1 := by
  have hlt : list.items.length < list.capacity := by
    unfold unused at h
    omega
  refine ⟨_, by rw [push, dif_pos hlt], rfl, ?_⟩
  simp only [unused, List.length_append, List.length_singleton]
  omega

theorem pushSlice_of_unused {list : ArrayList α} {xs : List α} (h : xs.length ≤ list.unused) :
    ∃ list', list.pushSlice xs = some list' ∧ list'.items = list.items ++ xs := by
  have hle : list.items.length + xs.length ≤ list.capacity := by
    have hfits := list.fits
    unfold unused at h
    omega
  exact ⟨_, by rw [pushSlice, dif_pos hle], rfl⟩

/-- Room has been made, or some memory is refused. -/
theorem reserve_cases (growth : Growth) (memory : Nat → Bool) (list : ArrayList α)
    (additional : Nat) :
    (∃ list', list.reserve growth memory additional = some list' ∧ list'.items = list.items
        ∧ additional ≤ list'.unused)
      ∨ list.reserve growth memory additional = none ∧ ∃ n, memory n = false := by
  unfold reserve
  dsimp only
  by_cases hfits : list.items.length + additional ≤ list.capacity
  · refine .inl ⟨list, if_pos hfits, rfl, ?_⟩
    unfold unused
    omega
  · rw [if_neg hfits]
    have henough := growth.enough list.capacity (list.items.length + additional)
    cases hmemory : memory (growth.size list.capacity (list.items.length + additional)) with
    | true =>
        refine .inl ⟨_, if_pos rfl, rfl, ?_⟩
        simp only [unused]
        omega
    | false => exact .inr ⟨rfl, _, hmemory⟩

theorem append_cases (growth : Growth) (memory : Nat → Bool) (list : ArrayList α) (x : α) :
    (∃ list', list.append growth memory x = some list' ∧ list'.items = list.items ++ [x])
      ∨ list.append growth memory x = none ∧ ∃ n, memory n = false := by
  unfold append
  rcases reserve_cases growth memory list 1 with ⟨list', hreserve, hitems, hunused⟩ | ⟨hreserve, hn⟩
  · obtain ⟨list'', hpush, hitems', -⟩ := push_of_unused hunused x
    exact .inl ⟨list'', by rw [hreserve, Option.bind_some, hpush], by rw [hitems', hitems]⟩
  · exact .inr ⟨by rw [hreserve, Option.bind_none], hn⟩

end ArrayList
