import Mathlib.Tactic

set_option autoImplicit false

/-! # Buffers that are filled from the front

A buffer of a fixed size and the number of its cells that are in use. Elements are written one
after the other at the first free cell; a write behind the last cell is outside of the buffer.
-/

structure FilledBuffer (α : Type) where
  cells : List α
  used : Nat := 0
  fits : used ≤ cells.length := by simp

namespace FilledBuffer

variable {α : Type}

/-- The number of the cells. -/
def size (b : FilledBuffer α) : Nat := b.cells.length

/-- The elements that have been written. -/
def contents (b : FilledBuffer α) : List α := b.cells.take b.used

/-- No cell of it is in use. -/
def ofCells (cells : List α) : FilledBuffer α := { cells }

/-- Write at the first free cell; `none` where there is none. -/
def push (b : FilledBuffer α) (x : α) : Option (FilledBuffer α) :=
  if h : b.used < b.size then
    some
      { cells := b.cells.set b.used x
        used := b.used + 1
        fits := by rw [List.length_set]; exact h }
  else none

def pushAll : FilledBuffer α → List α → Option (FilledBuffer α)
  | b, [] => some b
  | b, x :: xs =>
      match b.push x with
      | none => none
      | some b => b.pushAll xs

@[simp] theorem used_ofCells (cells : List α) : (ofCells cells).used = 0 := rfl

@[simp] theorem size_ofCells (cells : List α) : (ofCells cells).size = cells.length := rfl

@[simp] theorem contents_ofCells (cells : List α) : (ofCells cells).contents = [] := rfl

@[simp] theorem length_contents (b : FilledBuffer α) : b.contents.length = b.used := by
  rw [contents, List.length_take, Nat.min_eq_left b.fits]

/-- A full buffer holds what was written. -/
theorem cells_of_full {b : FilledBuffer α} (h : b.used = b.size) : b.cells = b.contents := by
  rw [contents, h, size, List.take_length]

/-- There is room: the element stands behind those written before. -/
theorem push_of_lt {b : FilledBuffer α} (h : b.used < b.size) (x : α) :
    ∃ b', b.push x = some b' ∧ b'.contents = b.contents ++ [x] ∧ b'.used = b.used + 1
      ∧ b'.size = b.size := by
  refine ⟨_, by rw [push, dif_pos h], ?_, rfl, by rw [size, List.length_set, size]⟩
  have hlen : b.used < (b.cells.set b.used x).length := by rw [List.length_set]; exact h
  calc (b.cells.set b.used x).take (b.used + 1)
      = (b.cells.set b.used x).take b.used ++ [(b.cells.set b.used x)[b.used]] :=
        List.take_succ_eq_append_getElem hlen
    _ = b.cells.take b.used ++ [x] := by
        rw [List.getElem_set_self, List.take_set,
          List.set_eq_of_length_le (by rw [List.length_take]; exact Nat.min_le_left _ _)]

theorem push_of_full {b : FilledBuffer α} (h : ¬ b.used < b.size) (x : α) : b.push x = none := by
  rw [push, dif_neg h]

theorem pushAll_of_fits {b : FilledBuffer α} {xs : List α} (h : b.used + xs.length ≤ b.size) :
    ∃ b', b.pushAll xs = some b' ∧ b'.contents = b.contents ++ xs
      ∧ b'.used = b.used + xs.length ∧ b'.size = b.size := by
  induction xs generalizing b with
  | nil => exact ⟨b, rfl, (List.append_nil _).symm, rfl, rfl⟩
  | cons x xs ih =>
      rw [List.length_cons] at h
      obtain ⟨b₁, hpush, hcontents, hused, hsize⟩ := push_of_lt (by omega : b.used < b.size) x
      obtain ⟨b₂, hall, hcontents₂, hused₂, hsize₂⟩ :=
        ih (b := b₁) (by rw [hused, hsize]; omega)
      refine ⟨b₂, by rw [pushAll, hpush]; exact hall, ?_, ?_, by rw [hsize₂, hsize]⟩
      · rw [hcontents₂, hcontents, List.append_assoc, List.singleton_append]
      · rw [hused₂, hused, List.length_cons]
        omega

/-- There is no room for all of them: one of the writes is outside of the buffer. -/
theorem pushAll_of_overrun {b : FilledBuffer α} {xs : List α}
    (h : b.size < b.used + xs.length) : b.pushAll xs = none := by
  induction xs generalizing b with
  | nil =>
      have hfits : b.used ≤ b.size := b.fits
      rw [List.length_nil] at h
      omega
  | cons x xs ih =>
      rw [List.length_cons] at h
      by_cases hroom : b.used < b.size
      · obtain ⟨b₁, hpush, -, hused, hsize⟩ := push_of_lt hroom x
        rw [pushAll, hpush]
        exact ih (by rw [hused, hsize]; omega)
      · rw [pushAll, push_of_full hroom]

end FilledBuffer
