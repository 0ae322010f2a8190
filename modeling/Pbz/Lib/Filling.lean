import Pbz.Lib.Check
import Pbz.Lib.FilledBuffer

set_option autoImplicit false

/-! # Programs that fill a buffer

Programs that write into a buffer behind what is there, and the loops, slices and length prefixes
that are made of them. A program `Advances` by `n` where it moves the index so far, whenever it
comes to an end.
-/

namespace FilledBuffer

variable {α ε : Type}

/-- The cells that are not in use. -/
def room (b : FilledBuffer α) : Nat := b.size - b.used

theorem used_add_room (b : FilledBuffer α) : b.used + b.room = b.size := by
  have hfits : b.used ≤ b.size := b.fits
  rw [room]
  omega

theorem pushAll_append (b : FilledBuffer α) (xs ys : List α) :
    b.pushAll (xs ++ ys) = (b.pushAll xs).bind (fun b => b.pushAll ys) := by
  induction xs generalizing b with
  | nil => rfl
  | cons x xs ih =>
      rw [List.cons_append, pushAll, pushAll]
      cases b.push x with
      | none => rfl
      | some b => exact ih b

/-- Write all elements or end with `fault`. -/
def pushAllOr (fault : ε) (xs : List α) (b : FilledBuffer α) : Except ε (FilledBuffer α) :=
  match b.pushAll xs with
  | none => .error fault
  | some b => .ok b

/-- A program that comes to an end moves the index by `n`. -/
def Advances (write : FilledBuffer α → Except ε (FilledBuffer α)) (n : Nat) : Prop :=
  ∀ ⦃b b'⦄, write b = .ok b' → b'.used = b.used + n

namespace Advances

variable {write next : FilledBuffer α → Except ε (FilledBuffer α)} {m n : Nat}

theorem none_written :
    Advances (fun b : FilledBuffer α => (.ok b : Except ε (FilledBuffer α))) 0 := by
  intro b b' h
  cases h
  rfl

theorem pushAllOr (fault : ε) (xs : List α) : Advances (pushAllOr fault xs) xs.length := by
  intro b b' h
  by_cases hfits : b.used + xs.length ≤ b.size
  · obtain ⟨b₁, hpush, -, hused, -⟩ := pushAll_of_fits hfits
    rw [FilledBuffer.pushAllOr, hpush] at h
    cases h
    exact hused
  · rw [FilledBuffer.pushAllOr, pushAll_of_overrun (by omega)] at h
    cases h

theorem congr (h : Advances write n) (hwrite : ∀ b, next b = write b) : Advances next n :=
  fun b _ hnext => h ((hwrite b).symm.trans hnext)

/-- Two programs in a row. -/
theorem andThen (h : Advances write m) (h' : Advances next n) :
    Advances (fun b => write b >>= next) (m + n) := by
  intro b b' hboth
  obtain ⟨b₁, hwrite, hnext⟩ := Check.of_bind_eq_ok hboth
  rw [h' hnext, h hwrite, Nat.add_assoc]

end Advances

/-! ## Loops over elements -/

/-- Run a program for each element. -/
def forEach {β : Type} (write : β → FilledBuffer α → Except ε (FilledBuffer α)) :
    List β → FilledBuffer α → Except ε (FilledBuffer α)
  | [], b => .ok b
  | x :: xs, b => write x b >>= forEach write xs

/-! ## Parts of a buffer -/

/-- These cells with this index, which must not lie behind them. -/
def ofParts (fault : ε) (cells : List α) (used : Nat) : Except ε (FilledBuffer α) :=
  if h : used ≤ cells.length then .ok { cells, used, fits := h } else .error fault

/-- Hand `slice` cells to a program as a buffer of its own. Then the index goes behind `n` of them,
whatever the program says it wrote. -/
def onSlice (fault : ε) (slice n : Nat) (call : List α → Except ε (FilledBuffer α))
    (b : FilledBuffer α) : Except ε (FilledBuffer α) :=
  if b.used + slice ≤ b.size then
    match call ((b.cells.drop b.used).take slice) with
    | .error e => .error e
    | .ok inner =>
        ofParts fault (b.cells.take b.used ++ inner.cells ++ b.cells.drop (b.used + slice))
          (b.used + n)
  else .error fault

theorem used_of_ofParts {fault : ε} {cells : List α} {used : Nat} {b : FilledBuffer α}
    (h : ofParts fault cells used = .ok b) : b.used = used := by
  rw [ofParts] at h
  split at h
  · cases h
    rfl
  · cases h

/-- The index goes on, whatever the program says. -/
theorem used_of_onSlice {fault : ε} {slice n : Nat} {call : List α → Except ε (FilledBuffer α)}
    {b b' : FilledBuffer α} (h : onSlice fault slice n call b = .ok b') : b'.used = b.used + n := by
  rw [onSlice] at h
  split at h
  · split at h
    · cases h
    · exact used_of_ofParts h
  · cases h

/-! ## Moving cells -/

/-- `std.mem.copyForwards` inside one buffer: `n` cells, the first one first. -/
def copyForwards (cells : List α) (dest source : Nat) : Nat → List α
  | 0 => cells
  | n + 1 =>
      match cells[source]? with
      | none => cells
      | some x => copyForwards (cells.set dest x) (dest + 1) (source + 1) n

/-- `std.mem.copyBackwards` inside one buffer: `n` cells, the last one first. -/
def copyBackwards (cells : List α) (dest source : Nat) : Nat → List α
  | 0 => cells
  | n + 1 =>
      match cells[source + n]? with
      | none => cells
      | some x => copyBackwards (cells.set (dest + n) x) dest source n

/-! ## Length prefixes

A payload is written behind a gap for its length. Then the gap is closed or widened to the size of
the length, which is written into it. -/

/-- Leave out `n` cells, whatever is in them. -/
def skip (fault : ε) (n : Nat) (b : FilledBuffer α) : Except ε (FilledBuffer α) :=
  ofParts fault b.cells (b.used + n)

/-- Move what was written from `start` on, so that the gap of `reserve` cells in front of it gets
`size` cells. -/
def resizeGap (fault : ε) (start reserve size : Nat) (b : FilledBuffer α) :
    Except ε (FilledBuffer α) :=
  if size = reserve then .ok b
  else if reserve < size then
    if b.used + (size - reserve) ≤ b.size then
      ofParts fault (copyBackwards b.cells (start + (size - reserve)) start (b.used - start))
        (b.used + (size - reserve))
    else .error fault
  else
    ofParts fault (copyForwards b.cells (start - (reserve - size)) start (b.used - start))
      (b.used - (reserve - size))

/-- Run a program at an index and go back behind what was written before. -/
def atIndex (fault : ε) (index : Nat) (write : FilledBuffer α → Except ε (FilledBuffer α))
    (b : FilledBuffer α) : Except ε (FilledBuffer α) := do
  let there ← ofParts fault b.cells index
  let written ← write there
  ofParts fault written.cells b.used

/-- A payload behind its length, for which `reserve` cells are kept. -/
def lengthFirst (fault : ε) (reserve : Nat) (size : Nat → Nat)
    (length : Nat → FilledBuffer α → Except ε (FilledBuffer α))
    (payload : FilledBuffer α → Except ε (FilledBuffer α)) (b : FilledBuffer α) :
    Except ε (FilledBuffer α) := do
  let start ← skip fault reserve b
  let full ← payload start
  let closed ← resizeGap fault start.used reserve (size (full.used - start.used)) full
  atIndex fault b.used (length (full.used - start.used)) closed

/-- The payload moves to where the index of its length ends. -/
theorem used_of_resizeGap {fault : ε} {start reserve size : Nat} {b b' : FilledBuffer α}
    (hreserve : reserve ≤ b.used) (h : resizeGap fault start reserve size b = .ok b') :
    b'.used + reserve = b.used + size := by
  rw [resizeGap] at h
  split at h
  · next heq =>
    cases h
    rw [heq]
  · split at h
    · split at h
      · rw [used_of_ofParts h]
        omega
      · cases h
    · rw [used_of_ofParts h]
      omega

/-- Whatever is reserved for it, the length takes as many cells as it needs. -/
theorem Advances.lengthFirst {fault : ε} {reserve : Nat} {size : Nat → Nat}
    {length : Nat → FilledBuffer α → Except ε (FilledBuffer α)}
    {payload : FilledBuffer α → Except ε (FilledBuffer α)} {n : Nat} (h : Advances payload n) :
    Advances (lengthFirst fault reserve size length payload) (size n + n) := by
  intro b b' hwrite
  obtain ⟨start, hstart, hwrite⟩ := Check.of_bind_eq_ok hwrite
  obtain ⟨full, hpayload, hwrite⟩ := Check.of_bind_eq_ok hwrite
  obtain ⟨closed, hresize, hwrite⟩ := Check.of_bind_eq_ok hwrite
  obtain ⟨there, -, hwrite⟩ := Check.of_bind_eq_ok hwrite
  obtain ⟨written, -, hback⟩ := Check.of_bind_eq_ok hwrite
  have hsused : start.used = b.used + reserve := used_of_ofParts hstart
  have hfused : full.used = start.used + n := h hpayload
  rw [show full.used - start.used = n by omega] at hresize
  have hclosed := used_of_resizeGap (by omega) hresize
  rw [used_of_ofParts hback]
  omega

end FilledBuffer
