import Mathlib.Tactic

set_option autoImplicit false

/-! # Binary search

The search for an element by its key in a list that is strictly ascending by key. The bounds of the
window carry the proof that they lie within the list, so that no read is out of bounds.
-/

namespace BinarySearch

variable {α κ : Type} [LinearOrder κ] (key : α → κ)

/-- The search in the window from `low` up to and without `high`. -/
def searchFrom (xs : List α) (target : κ) (low high : Nat) (h : high ≤ xs.length) : Option α :=
  if hlt : low < high then
    let mid := low + (high - low) / 2
    have hmid : mid < xs.length := by omega
    if key xs[mid] < target then searchFrom xs target (mid + 1) high h
    else if target < key xs[mid] then searchFrom xs target low mid (by omega)
    else some xs[mid]
  else none
termination_by high - low

def search (xs : List α) (target : κ) : Option α :=
  searchFrom key xs target 0 xs.length (Nat.le_refl _)

variable {key} {xs : List α} {target : κ}

/-- What is found has the key. -/
theorem searchFrom_sound {low high : Nat} {h : high ≤ xs.length} {x : α}
    (hx : searchFrom key xs target low high h = some x) : x ∈ xs ∧ key x = target := by
  fun_induction searchFrom key xs target low high h with
  | case1 low high h hlt mid hmid hless ih => exact ih hx
  | case2 low high h hlt mid hmid hless hgreater ih => exact ih hx
  | case3 low high h hlt mid hmid hless hgreater =>
      simp only [Option.some.injEq] at hx
      rw [← hx]
      exact ⟨List.getElem_mem hmid, le_antisymm (not_lt.mp hgreater) (not_lt.mp hless)⟩
  | case4 => simp at hx

/-- An element of the window with the key is found. -/
theorem searchFrom_complete (hs : xs.Pairwise (fun a b => key a < key b)) {low high : Nat}
    {h : high ≤ xs.length} {index : Nat} (hl : low ≤ index) (hh : index < high)
    (hk : key (xs.get ⟨index, by omega⟩) = target) :
    searchFrom key xs target low high h = some (xs.get ⟨index, by omega⟩) := by
  simp only [List.get_eq_getElem] at hk ⊢
  have hlt_of_lt : ∀ i j (hi : i < xs.length) (hj : j < xs.length), i < j →
      key xs[i] < key xs[j] :=
    fun i j hi hj hij => List.pairwise_iff_getElem.mp hs i j hi hj hij
  fun_induction searchFrom key xs target low high h with
  | case1 low high h hlt mid hmid hless ih =>
      refine ih ?_ hh hk
      by_contra hle
      rcases Nat.lt_or_eq_of_le (show index ≤ mid by omega) with hi | hi
      · have hbelow := hlt_of_lt index mid (by omega) hmid hi
        rw [hk] at hbelow
        exact lt_asymm hbelow hless
      · have hsame : key xs[mid] = target := by simpa only [hi] using hk
        exact absurd hsame (ne_of_lt hless)
  | case2 low high h hlt mid hmid hless hgreater ih =>
      refine ih hl ?_ hk
      by_contra hle
      rcases Nat.lt_or_eq_of_le (show mid ≤ index by omega) with hi | hi
      · have habove := hlt_of_lt mid index hmid (by omega) hi
        rw [hk] at habove
        exact lt_asymm habove hgreater
      · have hsame : key xs[mid] = target := by simpa only [hi] using hk
        exact absurd hsame (ne_of_gt hgreater)
  | case3 low high h hlt mid hmid hless hgreater =>
      have hsame : key xs[mid] = target := le_antisymm (not_lt.mp hgreater) (not_lt.mp hless)
      rcases Nat.lt_trichotomy index mid with hi | hi | hi
      · have hne := hlt_of_lt index mid (by omega) hmid hi
        rw [hk, hsame] at hne
        exact absurd hne (lt_irrefl _)
      · simp only [hi]
      · have hne := hlt_of_lt mid index hmid (by omega) hi
        rw [hk, hsame] at hne
        exact absurd hne (lt_irrefl _)
  | case4 => omega

/-- In an ascending list the search finds the element with the key if there is one. -/
theorem search_eq_some_iff (hs : xs.Pairwise (fun a b => key a < key b)) {x : α} :
    search key xs target = some x ↔ x ∈ xs ∧ key x = target := by
  constructor
  · exact searchFrom_sound
  · rintro ⟨hx, hk⟩
    obtain ⟨index, hi, rfl⟩ := List.getElem_of_mem hx
    exact searchFrom_complete hs (Nat.zero_le index) hi hk

theorem search_eq_none_iff (hs : xs.Pairwise (fun a b => key a < key b)) :
    search key xs target = none ↔ ∀ x ∈ xs, key x ≠ target := by
  constructor
  · intro hn x hx hk
    have hfound := (search_eq_some_iff hs).mpr ⟨hx, hk⟩
    rw [hn] at hfound
    simp at hfound
  · intro hno
    cases hf : search key xs target with
    | none => rfl
    | some x =>
        obtain ⟨hx, hk⟩ := (search_eq_some_iff hs).mp hf
        exact absurd hk (hno x hx)

end BinarySearch
