import Mathlib.Data.List.TakeWhile
import Pbz.Lib.BinarySearch
import Pbz.Lib.StableSort
import Pbz.Wire.Varint

set_option autoImplicit false

/-! # Runs of field numbers

`rawFieldNumberRunsFromNumbersInPlaceAlloc` of `wire.zig` sorts field numbers and counts how often
each occurs; `rawFieldNumberRunCount` searches the runs for a number. The count that is found is the
number of occurrences, save for the number 0, which stands for an empty field and has no run.
-/

namespace Pbz

structure RawFieldNumberRun where
  number : Nat
  count : Nat
  deriving DecidableEq, Repr

/-- `rawFieldNumberRunsFromSortedNumbersAlloc`. Its first loop counts the runs, for the allocation;
this is the second one. -/
def rawFieldNumberRunsFromSortedNumbers : List Nat → List RawFieldNumberRun
  | [] => []
  | number :: rest =>
      let same := rest.takeWhile (fun other => other == number)
      let next := rest.dropWhile (fun other => other == number)
      if number ≠ 0 then
        { number, count := same.length + 1 } :: rawFieldNumberRunsFromSortedNumbers next
      else rawFieldNumberRunsFromSortedNumbers next
termination_by numbers => numbers.length
decreasing_by all_goals
  have := (List.dropWhile_sublist (fun other => other == number) (l := rest)).length_le
  simp only [List.length_cons]
  omega

def rawFieldNumberRunsFromNumbersInPlace (numbers : List Nat) : List RawFieldNumberRun :=
  if numbers.isEmpty then []
  else rawFieldNumberRunsFromSortedNumbers (StableSort.sortByKey id numbers)

def rawFieldNumberRunCount (runs : List RawFieldNumberRun) (number : Nat) : Nat :=
  match BinarySearch.search RawFieldNumberRun.number runs number with
  | some run => run.count
  | none => 0

/-! ## The runs of sorted numbers -/

/-- The numbers equal to the first one lie in front of the others. -/
theorem mem_dropWhile_gt {number : Nat} {rest : List Nat}
    (hs : (number :: rest).Pairwise (· ≤ ·)) :
    ∀ other ∈ rest.dropWhile (fun other => other == number), number < other := by
  obtain ⟨hhead, htail⟩ := List.pairwise_cons.mp hs
  induction rest with
  | nil => simp
  | cons first rest ih =>
      intro other ho
      by_cases hf : first = number
      · rw [List.dropWhile_cons_of_pos (by simpa using hf)] at ho
        refine ih (List.pairwise_cons.mpr ?_) ?_ (List.pairwise_cons.mp htail).2 other ho
        · exact ⟨fun x hx => hhead x (List.mem_cons_of_mem _ hx), (List.pairwise_cons.mp htail).2⟩
        · exact fun x hx => hhead x (List.mem_cons_of_mem _ hx)
      · rw [List.dropWhile_cons_of_neg (by simpa using hf)] at ho
        have hfirst := hhead first List.mem_cons_self
        rcases List.mem_cons.mp ho with rfl | ho
        · omega
        · have hle := (List.pairwise_cons.mp htail).1 other ho
          omega

theorem count_eq_takeWhile {number : Nat} {rest : List Nat}
    (hs : (number :: rest).Pairwise (· ≤ ·)) :
    (number :: rest).count number
      = (rest.takeWhile (fun other => other == number)).length + 1 := by
  have hsame : ∀ other ∈ rest.takeWhile (fun other => other == number), number = other := by
    intro other ho
    have he := List.mem_takeWhile_imp ho
    exact (beq_iff_eq.mp he).symm
  have hnone : (rest.dropWhile (fun other => other == number)).count number = 0 :=
    List.count_eq_zero.mpr (fun h => Nat.lt_irrefl _ (mem_dropWhile_gt hs number h))
  have hsplit : rest.count number
      = (rest.takeWhile (fun other => other == number)).count number
        + (rest.dropWhile (fun other => other == number)).count number := by
    rw [← List.count_append, List.takeWhile_append_dropWhile]
  rw [List.count_cons_self, hsplit, hnone, List.count_eq_length.mpr hsame]

/-- The numbers greater than the first one are counted behind its run. -/
theorem count_dropWhile {number other : Nat} {rest : List Nat} (h : other ≠ number) :
    (number :: rest).count other
      = (rest.dropWhile (fun other => other == number)).count other := by
  have hnone : (rest.takeWhile (fun other => other == number)).count other = 0 := by
    refine List.count_eq_zero.mpr (fun ho => h ?_)
    have he := List.mem_takeWhile_imp ho
    simpa using he
  have hsplit : rest.count other
      = (rest.takeWhile (fun other => other == number)).count other
        + (rest.dropWhile (fun other => other == number)).count other := by
    rw [← List.count_append, List.takeWhile_append_dropWhile]
  rw [List.count_cons_of_ne h.symm, hsplit, hnone, Nat.zero_add]

/-- What the runs of some numbers are: in ascending order, one for each number other than 0 with
its count. -/
structure IsRuns (numbers : List Nat) (runs : List RawFieldNumberRun) : Prop where
  ascending : runs.Pairwise (fun a b => a.number < b.number)
  count : ∀ run ∈ runs, run.number ≠ 0 ∧ run.number ∈ numbers
    ∧ run.count = numbers.count run.number
  complete : ∀ number ∈ numbers, number ≠ 0 → ∃ run ∈ runs, run.number = number

/-- The runs of the numbers behind the first run, with or without that run in front. -/
theorem IsRuns.cons {number : Nat} {rest : List Nat} {runs : List RawFieldNumberRun}
    (hs : (number :: rest).Pairwise (· ≤ ·))
    (h : IsRuns (rest.dropWhile (fun other => other == number)) runs) :
    IsRuns (number :: rest)
      (if number ≠ 0 then
        { number, count := (rest.takeWhile (fun other => other == number)).length + 1 } :: runs
      else runs) := by
  have hgreater : ∀ run ∈ runs, number < run.number :=
    fun run hr => mem_dropWhile_gt hs run.number (h.count run hr).2.1
  have hsub : ∀ other ∈ rest.dropWhile (fun other => other == number), other ∈ number :: rest :=
    fun other ho => List.mem_cons_of_mem _ ((List.dropWhile_sublist _).subset ho)
  have hbehind : ∀ run ∈ runs, run.number ≠ 0 ∧ run.number ∈ number :: rest
      ∧ run.count = (number :: rest).count run.number := by
    intro run hr
    obtain ⟨hne, hmem, hcount⟩ := h.count run hr
    have hgt := hgreater run hr
    exact ⟨hne, hsub _ hmem, by rw [hcount, count_dropWhile (by omega)]⟩
  have hcomplete : ∀ other ∈ number :: rest, other ≠ 0 → other ≠ number →
      ∃ run ∈ runs, run.number = other := by
    intro other ho hne hn
    refine h.complete other ?_ hne
    have hpos : 0 < (number :: rest).count other := List.count_pos_iff.mpr ho
    rw [count_dropWhile hn] at hpos
    exact List.count_pos_iff.mp hpos
  by_cases hz : number = 0
  · rw [if_neg (by simpa using hz)]
    exact ⟨h.ascending, hbehind, fun other ho hne => hcomplete other ho hne (by omega)⟩
  · rw [if_pos hz]
    refine ⟨List.pairwise_cons.mpr ⟨hgreater, h.ascending⟩, ?_, ?_⟩
    · intro run hr
      rcases List.mem_cons.mp hr with rfl | hr
      · exact ⟨hz, List.mem_cons_self, (count_eq_takeWhile hs).symm⟩
      · exact hbehind run hr
    · intro other ho hne
      by_cases hn : other = number
      · exact ⟨_, List.mem_cons_self, hn.symm⟩
      · obtain ⟨run, hr, hrun⟩ := hcomplete other ho hne hn
        exact ⟨run, List.mem_cons_of_mem _ hr, hrun⟩

theorem isRuns_of_sorted (numbers : List Nat) (hs : numbers.Pairwise (· ≤ ·)) :
    IsRuns numbers (rawFieldNumberRunsFromSortedNumbers numbers) := by
  induction numbers using rawFieldNumberRunsFromSortedNumbers.induct with
  | case1 =>
      rw [rawFieldNumberRunsFromSortedNumbers]
      exact ⟨List.Pairwise.nil, by simp, by simp⟩
  | case2 number rest next hz ih =>
      rw [rawFieldNumberRunsFromSortedNumbers]
      have htail := (List.pairwise_cons.mp hs).2.sublist
        (List.dropWhile_sublist (fun other => other == number))
      exact (ih htail).cons hs
  | case3 number rest next hz ih =>
      rw [rawFieldNumberRunsFromSortedNumbers]
      have htail := (List.pairwise_cons.mp hs).2.sublist
        (List.dropWhile_sublist (fun other => other == number))
      exact (ih htail).cons hs

/-- The runs of numbers in any order. -/
theorem isRuns_inPlace (numbers : List Nat) :
    IsRuns numbers (rawFieldNumberRunsFromNumbersInPlace numbers) := by
  have hperm : (StableSort.sortByKey id numbers).Perm numbers := StableSort.sortByKey_perm id numbers
  have hsorted : (StableSort.sortByKey id numbers).Pairwise (· ≤ ·) := by
    refine (StableSort.pairwise_sort (StableSort.keyLess_strictOrder id numbers)).imp
      (fun {a b} hab => ?_)
    simpa [StableSort.keyLess] using hab
  have hruns := isRuns_of_sorted _ hsorted
  rw [rawFieldNumberRunsFromNumbersInPlace]
  split
  · next he =>
    rw [List.isEmpty_iff.mp he]
    exact ⟨List.Pairwise.nil, by simp, by simp⟩
  · refine ⟨hruns.ascending, fun run hr => ?_, fun number hn hne => ?_⟩
    · obtain ⟨hne, hmem, hcount⟩ := hruns.count run hr
      exact ⟨hne, hperm.mem_iff.mp hmem, by rw [hcount, hperm.count_eq]⟩
    · exact hruns.complete number (hperm.mem_iff.mpr hn) hne

/-- The count that is found for a number other than 0 is the number of its occurrences. -/
theorem IsRuns.runCount_eq {numbers : List Nat} {runs : List RawFieldNumberRun}
    (h : IsRuns numbers runs) {number : Nat} (hn : number ≠ 0) :
    rawFieldNumberRunCount runs number = numbers.count number := by
  rw [rawFieldNumberRunCount]
  cases hf : BinarySearch.search RawFieldNumberRun.number runs number with
  | some run =>
      obtain ⟨hr, rfl⟩ := (BinarySearch.search_eq_some_iff h.ascending).mp hf
      exact (h.count run hr).2.2
  | none =>
      have hno := (BinarySearch.search_eq_none_iff h.ascending).mp hf
      refine (List.count_eq_zero.mpr (fun hmem => ?_)).symm
      obtain ⟨run, hr, hrun⟩ := h.complete number hmem hn
      exact hno run hr hrun

/-- There is no run for the number 0. -/
theorem IsRuns.runCount_zero {numbers : List Nat} {runs : List RawFieldNumberRun}
    (h : IsRuns numbers runs) : rawFieldNumberRunCount runs 0 = 0 := by
  have hnone : BinarySearch.search RawFieldNumberRun.number runs 0 = none :=
    (BinarySearch.search_eq_none_iff h.ascending).mpr (fun run hr => (h.count run hr).1)
  rw [rawFieldNumberRunCount, hnone]

end Pbz
