import Mathlib.Tactic

set_option autoImplicit false

/-! # Sorting by a `lessThan`

A library sort takes a strict comparison and keeps elements that it does not tell apart in their
order. The comparison need only be an order on the elements of the list that is sorted
(`StrictOrder`); outside of it, it may be anything.

Two lists are sorted alike if they are permutations of each other whose elements the comparison
tells apart (`sort_eq_of_perm`), or if for each key they have the same elements in the same order
(`sortByKey_eq_of_filter`).
-/

namespace StableSort

variable {α β : Type}

/-- The stable sort by a strict comparison. -/
def sort (lessThan : α → α → Bool) (l : List α) : List α :=
  l.mergeSort (fun a b => !lessThan b a)

/-- On the elements of the list the comparison is a strict weak order. -/
structure StrictOrder (lessThan : α → α → Bool) (l : List α) : Prop where
  asymm : ∀ a ∈ l, ∀ b ∈ l, lessThan a b = true → lessThan b a = false
  trans : ∀ a ∈ l, ∀ b ∈ l, ∀ c ∈ l, lessThan b a = false → lessThan c b = false →
    lessThan c a = false

theorem sort_perm (lessThan : α → α → Bool) (l : List α) : (sort lessThan l).Perm l :=
  List.mergeSort_perm l _

@[simp] theorem mem_sort {lessThan : α → α → Bool} {l : List α} {a : α} :
    a ∈ sort lessThan l ↔ a ∈ l :=
  (sort_perm lessThan l).mem_iff

/-- Sorting commutes with a map under which the elements compare in the same way. -/
theorem map_sort {lessThan : α → α → Bool} {less' : β → β → Bool} {f : α → β} {l : List α}
    (h : ∀ a ∈ l, ∀ b ∈ l, lessThan a b = less' (f a) (f b)) :
    (sort lessThan l).map f = sort less' (l.map f) := by
  unfold sort
  apply List.map_mergeSort
  intro a ha b hb
  rw [h b hb a ha]

theorem StrictOrder.perm {lessThan : α → α → Bool} {l l' : List α} (h : StrictOrder lessThan l)
    (hp : l.Perm l') : StrictOrder lessThan l' := by
  constructor
  · intro a ha b hb
    exact h.asymm a (hp.mem_iff.mpr ha) b (hp.mem_iff.mpr hb)
  · intro a ha b hb c hc
    exact h.trans a (hp.mem_iff.mpr ha) b (hp.mem_iff.mpr hb) c (hp.mem_iff.mpr hc)

/-- The sorted list is in order. -/
theorem pairwise_sort {lessThan : α → α → Bool} {l : List α} (h : StrictOrder lessThan l) :
    (sort lessThan l).Pairwise (fun a b => lessThan b a = false) := by
  -- the comparison is an order on the members only, so the members are what is sorted
  have hval : (sort (fun a b : { x // x ∈ l } => lessThan a b) l.attach).map Subtype.val
      = sort lessThan l := by
    rw [@map_sort _ _ _ lessThan _ _ (fun _ _ _ _ => rfl), List.attach_map_subtype_val]
  rw [← hval, List.pairwise_map]
  have htrans : ∀ a b c : { x // x ∈ l }, (!lessThan b a) = true → (!lessThan c b) = true →
      (!lessThan c a) = true := by
    intro a b c hab hbc
    simp only [Bool.not_eq_true'] at hab hbc ⊢
    exact h.trans a a.2 b b.2 c c.2 hab hbc
  have htotal : ∀ a b : { x // x ∈ l }, ((!lessThan b a) || !lessThan a b) = true := by
    intro a b
    simp only [Bool.or_eq_true, Bool.not_eq_true']
    cases hba : lessThan b a with
    | false => exact Or.inl rfl
    | true => exact Or.inr (h.asymm b b.2 a a.2 hba)
  refine (List.pairwise_mergeSort htrans htotal l.attach).imp (fun {a b} hab => ?_)
  simpa using hab

/-- The comparison tells the elements of the list apart. -/
def Apart (lessThan : α → α → Bool) (l : List α) : Prop :=
  ∀ a ∈ l, ∀ b ∈ l, lessThan a b = false → lessThan b a = false → a = b

/-- Permutations of each other are sorted alike. -/
theorem sort_eq_of_perm {lessThan : α → α → Bool} {l l' : List α}
    (h : StrictOrder lessThan l) (ha : Apart lessThan l) (hp : l.Perm l') :
    sort lessThan l = sort lessThan l' := by
  have hsorted := pairwise_sort h
  have hsorted' := pairwise_sort (h.perm hp)
  have hperm : (sort lessThan l).Perm (sort lessThan l') :=
    (sort_perm lessThan l).trans (hp.trans (sort_perm lessThan l').symm)
  refine List.Perm.eq_of_pairwise ?_ hsorted hsorted' hperm
  intro a b hma hmb hab hba
  exact ha a (mem_sort.mp hma) b (hp.mem_iff.mpr (mem_sort.mp hmb)) hba hab

/-! ## Keys -/

/-- The comparison of elements by a number. -/
def keyLess (key : α → Nat) (a b : α) : Bool := decide (key a < key b)

def sortByKey (key : α → Nat) (l : List α) : List α := sort (keyLess key) l

@[simp] theorem mem_sortByKey {key : α → Nat} {l : List α} {a : α} :
    a ∈ sortByKey key l ↔ a ∈ l :=
  mem_sort

theorem sortByKey_perm (key : α → Nat) (l : List α) : (sortByKey key l).Perm l :=
  sort_perm (keyLess key) l

theorem map_sortByKey {key : α → Nat} {key' : β → Nat} {f : α → β} {l : List α}
    (h : ∀ a ∈ l, key' (f a) = key a) :
    (sortByKey key l).map f = sortByKey key' (l.map f) := by
  apply map_sort
  intro a ha b hb
  rw [keyLess, keyLess, h a ha, h b hb]

theorem keyLess_strictOrder (key : α → Nat) (l : List α) : StrictOrder (keyLess key) l := by
  constructor
  · intro a _ b _ hab
    simp only [keyLess, decide_eq_true_eq, decide_eq_false_iff_not] at hab ⊢
    omega
  · intro a _ b _ c _ hab hbc
    simp only [keyLess, decide_eq_false_iff_not] at hab hbc ⊢
    omega

theorem pairwise_sortByKey (key : α → Nat) (l : List α) :
    (sortByKey key l).Pairwise (fun a b => key a ≤ key b) := by
  refine (pairwise_sort (keyLess_strictOrder key l)).imp (fun {a b} hab => ?_)
  simp only [keyLess, decide_eq_false_iff_not] at hab
  omega

/-- Different keys tell the elements apart. -/
theorem apart_of_nodup {key : α → Nat} {l : List α} (h : (l.map key).Nodup) :
    Apart (keyLess key) l := by
  intro a ha b hb hab hba
  simp only [keyLess, decide_eq_false_iff_not] at hab hba
  exact List.inj_on_of_nodup_map h ha hb (by omega)

/-- Sorting keeps the elements of one key in their order. -/
theorem filter_sortByKey (key : α → Nat) (l : List α) (n : Nat) :
    (sortByKey key l).filter (fun a => key a == n) = l.filter (fun a => key a == n) := by
  have htrans : ∀ a b c : α, (!keyLess key b a) = true → (!keyLess key c b) = true →
      (!keyLess key c a) = true := by
    intro a b c hab hbc
    simp only [keyLess, Bool.not_eq_true', decide_eq_false_iff_not] at hab hbc ⊢
    omega
  have htotal : ∀ a b : α, ((!keyLess key b a) || !keyLess key a b) = true := by
    intro a b
    simp only [keyLess, Bool.or_eq_true, Bool.not_eq_true', decide_eq_false_iff_not]
    omega
  have hpair : (l.filter (fun a => key a == n)).Pairwise (fun a b => (!keyLess key b a) = true) := by
    rw [List.pairwise_iff_forall_sublist]
    intro a b hab
    have hma : a ∈ l.filter (fun a => key a == n) := hab.subset List.mem_cons_self
    have hmb : b ∈ l.filter (fun a => key a == n) :=
      hab.subset (List.mem_cons_of_mem a List.mem_cons_self)
    simp only [List.mem_filter, beq_iff_eq] at hma hmb
    simp only [keyLess, Bool.not_eq_true', decide_eq_false_iff_not]
    omega
  have hsub : (l.filter (fun a => key a == n)).Sublist (sortByKey key l) :=
    List.sublist_mergeSort htrans htotal hpair List.filter_sublist
  have hfilter := hsub.filter (fun a => key a == n)
  rw [List.filter_filter] at hfilter
  simp only [Bool.and_self] at hfilter
  -- a sublist of the same length is the whole list
  exact (hfilter.eq_of_length ((sortByKey_perm key l).filter _).length_eq.symm).symm

/-- A list in order of its keys is determined by its elements of each key. -/
theorem eq_of_filter {key : α → Nat} {l : List α} :
    ∀ {l' : List α}, l.Pairwise (fun a b => key a ≤ key b) →
      l'.Pairwise (fun a b => key a ≤ key b) →
      (∀ n, l.filter (fun a => key a == n) = l'.filter (fun a => key a == n)) → l = l' := by
  have hleast : ∀ {a b : α} {r s : List α}, (b :: s).Pairwise (fun x y => key x ≤ key y) →
      (a :: r).filter (fun x => key x == key a) = (b :: s).filter (fun x => key x == key a) →
      key b ≤ key a := by
    intro a b r s hs hf
    have hmem : a ∈ (b :: s).filter (fun x => key x == key a) := by
      rw [← hf]
      simp
    rcases List.mem_cons.mp (List.mem_of_mem_filter hmem) with rfl | hin
    · exact Nat.le_refl _
    · exact (List.pairwise_cons.mp hs).1 a hin
  induction l with
  | nil =>
      intro l' _ _ hf
      cases l' with
      | nil => rfl
      | cons b s =>
          have hb := hf (key b)
          simp at hb
  | cons a r ih =>
      intro l' hs hs' hf
      cases l' with
      | nil =>
          have ha := hf (key a)
          simp at ha
      | cons b s =>
          have hkey : key a = key b :=
            Nat.le_antisymm (hleast hs (hf (key b)).symm) (hleast hs' (hf (key a)))
          have hhead := hf (key a)
          simp only [List.filter_cons, beq_self_eq_true, if_true, hkey, List.cons.injEq] at hhead
          obtain ⟨rfl, -⟩ := hhead
          have htail : r = s := by
            refine ih (List.pairwise_cons.mp hs).2 (List.pairwise_cons.mp hs').2 (fun n => ?_)
            have hn := hf n
            simp only [List.filter_cons] at hn
            split at hn
            · exact (List.cons.inj hn).2
            · exact hn
          rw [htail]

/-- Lists with the same elements in the same order for each key are sorted alike. -/
theorem sortByKey_eq_of_filter {key : α → Nat} {l l' : List α}
    (h : ∀ n, l.filter (fun a => key a == n) = l'.filter (fun a => key a == n)) :
    sortByKey key l = sortByKey key l' := by
  apply eq_of_filter (pairwise_sortByKey key l) (pairwise_sortByKey key l')
  intro n
  rw [filter_sortByKey, filter_sortByKey, h n]

end StableSort
