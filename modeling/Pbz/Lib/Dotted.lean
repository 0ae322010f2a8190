import Mathlib.Tactic

set_option autoImplicit false

/-! # Qualified names

A qualified name is a list of parts joined by a separator that no part contains. A reader of such
a name takes it apart at its first or its last separator, or takes a qualifier off its front; each
of these is an operation on the list of parts.
-/

namespace Dotted

variable {α : Type} {sep : α}

/-- A part of a qualified name: not empty, and without the separator. -/
def IsPart (sep : α) (part : List α) : Prop := part ≠ [] ∧ sep ∉ part

def IsPath (sep : α) (parts : List (List α)) : Prop := ∀ part ∈ parts, IsPart sep part

instance [DecidableEq α] (sep : α) (part : List α) : Decidable (IsPart sep part) :=
  inferInstanceAs (Decidable (_ ∧ _))

instance [DecidableEq α] (sep : α) (parts : List (List α)) : Decidable (IsPath sep parts) :=
  inferInstanceAs (Decidable (∀ part ∈ parts, IsPart sep part))

/-- The parts joined by the separator. -/
def joined (sep : α) (parts : List (List α)) : List α := [sep].intercalate parts

@[simp] theorem joined_nil : joined sep [] = [] := rfl

@[simp] theorem joined_singleton (part : List α) : joined sep [part] = part :=
  List.intercalate_singleton

theorem joined_cons {parts : List (List α)} (h : parts ≠ []) (part : List α) :
    joined sep (part :: parts) = part ++ sep :: joined sep parts := by
  rw [joined, List.intercalate_cons_of_ne_nil h, List.append_assoc]
  rfl

theorem joined_append {parts more : List (List α)} (h : parts ≠ []) (hm : more ≠ []) :
    joined sep (parts ++ more) = joined sep parts ++ sep :: joined sep more := by
  induction parts with
  | nil => exact absurd rfl h
  | cons part rest ih =>
      cases rest with
      | nil => rw [List.singleton_append, joined_cons hm, joined_singleton]
      | cons next rest =>
          rw [List.cons_append, joined_cons (by simp), ih (by simp),
            joined_cons (List.cons_ne_nil next rest) part]
          simp

theorem IsPart.isPath {part : List α} (h : IsPart sep part) : IsPath sep [part] :=
  fun _ hmem => List.mem_singleton.mp hmem ▸ h

theorem IsPath.tail {part : List α} {parts : List (List α)} (h : IsPath sep (part :: parts)) :
    IsPath sep parts :=
  fun p hp => h p (List.mem_cons_of_mem _ hp)

theorem IsPath.append {parts more : List (List α)} (h : IsPath sep parts)
    (hm : IsPath sep more) : IsPath sep (parts ++ more) := by
  intro p hp
  rcases List.mem_append.mp hp with hp | hp
  · exact h p hp
  · exact hm p hp

theorem IsPath.sublist {parts more : List (List α)} (h : IsPath sep more)
    (hs : parts.Sublist more) : IsPath sep parts :=
  fun p hp => h p (hs.subset hp)

section

variable [DecidableEq α]

/-- The parts of a joined name are those it was joined from. -/
theorem splitOn_joined {parts : List (List α)} (h : IsPath sep parts) (hne : parts ≠ []) :
    (joined sep parts).splitOn sep = parts :=
  List.splitOn_intercalate sep (fun p hp => (h p hp).2) hne

theorem joined_splitOn (name : List α) : joined sep (name.splitOn sep) = name :=
  List.intercalate_splitOn sep

theorem notMem_of_mem_splitOn {name : List α} :
    ∀ part ∈ name.splitOn sep, sep ∉ part := by
  induction name with
  | nil => simp [List.splitOn_nil]
  | cons a name ih =>
      intro part hp
      rw [List.splitOn_cons_eq_if_modifyHead] at hp
      by_cases ha : a = sep
      · rw [if_pos (by simp [ha])] at hp
        rcases List.mem_cons.mp hp with rfl | hp
        · simp
        · exact ih part hp
      · rw [if_neg (by simpa using ha)] at hp
        cases hs : name.splitOn sep with
        | nil => exact absurd hs (List.splitOn_ne_nil sep name)
        | cons first rest =>
            rw [hs] at hp ih
            rcases List.mem_cons.mp hp with rfl | hp
            · have hfirst := ih first List.mem_cons_self
              simpa [Ne.symm ha] using hfirst
            · exact ih part (List.mem_cons_of_mem _ hp)

end

theorem joined_ne_nil {parts : List (List α)} (h : IsPath sep parts) (hne : parts ≠ []) :
    joined sep parts ≠ [] := by
  cases parts with
  | nil => exact absurd rfl hne
  | cons part rest =>
      have hpart := (h part List.mem_cons_self).1
      cases rest with
      | nil => simpa using hpart
      | cons next rest => simp [joined_cons, hpart]

/-! ## At the first separator -/

section

variable [DecidableEq α]

theorem ne_of_mem_part {part : List α} (h : sep ∉ part) : ∀ a ∈ part, (a != sep) = true := by
  intro a ha
  rw [bne_iff_ne]
  rintro rfl
  exact h ha

theorem takeWhile_part {part : List α} (h : sep ∉ part) (rest : List α) :
    (part ++ sep :: rest).takeWhile (· != sep) = part := by
  rw [List.takeWhile_append_of_pos (ne_of_mem_part h)]
  simp

theorem dropWhile_part {part : List α} (h : sep ∉ part) (rest : List α) :
    (part ++ sep :: rest).dropWhile (· != sep) = sep :: rest := by
  rw [List.dropWhile_append_of_pos (ne_of_mem_part h)]
  simp

theorem takeWhile_all {part : List α} (h : sep ∉ part) : part.takeWhile (· != sep) = part := by
  rw [← List.append_nil part, List.takeWhile_append_of_pos (ne_of_mem_part h), List.takeWhile_nil]

theorem dropWhile_all {part : List α} (h : sep ∉ part) : part.dropWhile (· != sep) = [] := by
  rw [← List.append_nil part, List.dropWhile_append_of_pos (ne_of_mem_part h), List.dropWhile_nil]

end

/-- A path does not start with the separator. -/
theorem head_joined_ne {parts : List (List α)} (h : IsPath sep parts) (rest : List α) :
    joined sep parts ≠ sep :: rest := by
  intro he
  cases parts with
  | nil => exact absurd he (by simp)
  | cons part more =>
      obtain ⟨hne, hsep⟩ := h part List.mem_cons_self
      obtain ⟨a, part, rfl⟩ := List.exists_cons_of_ne_nil hne
      have ha : a ≠ sep := fun hc => hsep (hc ▸ List.mem_cons_self)
      cases more with
      | nil => exact ha (by simpa using congrArg List.head? he)
      | cons next more =>
          rw [joined_cons (by simp)] at he
          exact ha (by simpa using congrArg List.head? he)

/-! ## At the last separator -/

variable [DecidableEq α]

/-- What stands behind the last separator of a path is its last part. -/
theorem reverse_takeWhile_joined {part : List α} (h : sep ∉ part) (parts : List (List α)) :
    ((joined sep (parts ++ [part])).reverse.takeWhile (· != sep)).reverse = part := by
  have hr : sep ∉ part.reverse := by simpa using h
  cases parts with
  | nil => rw [List.nil_append, joined_singleton, takeWhile_all hr, List.reverse_reverse]
  | cons first rest =>
      rw [joined_append (by simp) (by simp), joined_singleton, List.reverse_append,
        List.reverse_cons, List.append_assoc, List.singleton_append, takeWhile_part hr,
        List.reverse_reverse]

/-- What stands from the last separator on, in reverse. -/
theorem reverse_dropWhile_joined {part : List α} (h : IsPart sep part) (parts : List (List α)) :
    (joined sep (parts ++ [part])).reverse.dropWhile (· != sep)
      = if parts = [] then [] else sep :: (joined sep parts).reverse := by
  have hr : sep ∉ part.reverse := by simpa using h.2
  cases parts with
  | nil => rw [List.nil_append, joined_singleton, dropWhile_all hr, if_pos rfl]
  | cons first rest =>
      rw [joined_append (by simp) (by simp), joined_singleton, List.reverse_append,
        List.reverse_cons, List.append_assoc, List.singleton_append, dropWhile_part hr,
        if_neg (by simp)]

/-! ## A qualifier in front -/

/-- A path in front of a separator is a prefix of the list of parts. -/
theorem joined_eq_append {parts qualifier : List (List α)} (h : IsPath sep parts)
    (hq : IsPath sep qualifier) (hne : qualifier ≠ []) {rest : List α}
    (he : joined sep parts = joined sep qualifier ++ sep :: rest) :
    parts = qualifier ++ rest.splitOn sep := by
  have hparts : parts ≠ [] := by
    rintro rfl
    simp at he
  have hsplit := congrArg (List.splitOn sep) he
  rw [splitOn_joined h hparts, List.splitOn_append_cons_self, splitOn_joined hq hne] at hsplit
  exact hsplit

theorem joined_injective {parts more : List (List α)} (h : IsPath sep parts)
    (hm : IsPath sep more) (he : joined sep parts = joined sep more) : parts = more := by
  by_cases hp : parts = []
  · by_contra hne
    have hne' : more ≠ [] := fun hc => hne (by rw [hp, hc])
    exact joined_ne_nil hm hne' (by rw [← he, hp, joined_nil])
  · by_cases hm' : more = []
    · exact absurd (by rw [he, hm', joined_nil]) (joined_ne_nil h hp)
    · rw [← splitOn_joined h hp, he, splitOn_joined hm hm']

end Dotted
