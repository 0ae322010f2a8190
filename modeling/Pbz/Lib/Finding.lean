import Mathlib.Order.Filter.AtTopBot.Finite
import Mathlib.Order.Filter.Finite
import Mathlib.Tactic
import Pbz.Lib.Check

set_option autoImplicit false

/-! # Searches that end at what they find

A search runs through data and stops at the first thing that it looks for. It recurs, so that it
takes fuel, and what it says is what it says with enough fuel (`Returns`). A search `Finds` a
property if with enough fuel it stops at something where the property holds, and comes to its end
where it does not.
-/

namespace Finding

open Filter

/-- How a search ends early. -/
inductive Halt (ε α : Type) where
  | found (what : α)
  | failed (e : ε)
  | exhausted
  deriving DecidableEq

variable {ε α β : Type}

/-- The result with enough fuel. -/
def Returns {ρ : Type} (run : Nat → ρ) (result : ρ) : Prop := ∀ᶠ fuel in atTop, run fuel = result

/-- With enough fuel the search decides the property, and something is found where it holds. -/
def Finds (run : Nat → Except (Halt ε α) Unit) (P : Prop) : Prop :=
  ∀ᶠ fuel in atTop, (P ∧ ∃ what, run fuel = .error (.found what)) ∨ (¬ P ∧ run fuel = .ok ())

theorem eventually_of_succ {p : Nat → Prop} (h : ∀ᶠ fuel in atTop, p (fuel + 1)) :
    ∀ᶠ fuel in atTop, p fuel := by
  obtain ⟨bound, hbound⟩ := eventually_atTop.mp h
  refine eventually_atTop.mpr ⟨bound + 1, fun fuel hle => ?_⟩
  obtain ⟨less, rfl⟩ := Nat.exists_eq_add_of_le' (show 1 ≤ fuel by omega)
  exact hbound less (by omega)

theorem returns_const {ρ : Type} (result : ρ) : Returns (fun _ => result) result :=
  Eventually.of_forall fun _ => rfl

/-- One call takes one unit of fuel. -/
theorem Returns.succ {ρ : Type} {run : Nat → ρ} {result : ρ}
    (h : Returns (fun fuel => run (fuel + 1)) result) : Returns run result :=
  eventually_of_succ h

/-- A search whose result is the same with all fuel from some on has one result. -/
theorem Returns.unique {ρ : Type} {run : Nat → ρ} {first second : ρ} (hfirst : Returns run first)
    (hsecond : Returns run second) : first = second := by
  obtain ⟨fuel, h1, h2⟩ := (hfirst.and hsecond).exists
  exact h1.symm.trans h2

variable {run first second : Nat → Except (Halt ε α) Unit} {P Q : Prop}

theorem Finds.congr (h : Finds run P) (hiff : P ↔ Q) : Finds run Q := by
  rwa [← propext hiff]

/-- A search comes to its end exactly where its property does not hold. -/
theorem Finds.returns_iff (h : Finds run P) : Returns run (.ok ()) ↔ ¬ P := by
  constructor
  · intro hreturns hP
    obtain ⟨fuel, hok, hdecides⟩ := (hreturns.and h).exists
    rcases hdecides with ⟨-, what, hfound⟩ | ⟨hnot, -⟩
    · rw [hok] at hfound
      cases hfound
    · exact hnot hP
  · intro hnot
    refine h.mono fun fuel hdecides => ?_
    rcases hdecides with ⟨hP, -⟩ | ⟨-, hok⟩
    · exact (hnot hP).elim
    · exact hok

theorem finds_ok : Finds (fun _ => (.ok () : Except (Halt ε α) Unit)) False :=
  Eventually.of_forall fun _ => .inr ⟨not_false, rfl⟩

theorem finds_found (what : α) :
    Finds (fun _ => (.error (.found what) : Except (Halt ε α) Unit)) True :=
  Eventually.of_forall fun _ => .inl ⟨trivial, what, rfl⟩

/-- Two searches in a row. -/
theorem Finds.bind (hfirst : Finds first P) (hsecond : Finds second Q) :
    Finds (fun fuel => first fuel >>= fun _ => second fuel) (P ∨ Q) := by
  filter_upwards [hfirst, hsecond] with fuel h1 h2
  rcases h1 with ⟨hP, what, hfound⟩ | ⟨hnotP, hok⟩
  · exact .inl ⟨.inl hP, what, by rw [hfound]; rfl⟩
  · rcases h2 with ⟨hQ, what, hfound⟩ | ⟨hnotQ, hok'⟩
    · exact .inl ⟨.inr hQ, what, by rw [hok]; exact hfound⟩
    · exact .inr ⟨not_or.mpr ⟨hnotP, hnotQ⟩, by rw [hok]; exact hok'⟩

/-- A search in each element of a list. -/
theorem Finds.forEach {γ : Type} {search : Nat → γ → Except (Halt ε α) Unit} {R : γ → Prop}
    {xs : List γ} (h : ∀ x ∈ xs, Finds (fun fuel => search fuel x) (R x)) :
    Finds (fun fuel => Check.forEach (search fuel) xs) (∃ x ∈ xs, R x) := by
  induction xs with
  | nil => exact finds_ok.congr (by simp)
  | cons x rest ih =>
      obtain ⟨hx, hrest⟩ := List.forall_mem_cons.mp h
      exact (hx.bind (ih hrest)).congr (by simp)

/-- What is found is reported in another way. -/
theorem Finds.report {f : Except (Halt ε α) Unit → Except (Halt ε β) Unit}
    (hfound : ∀ what, ∃ what', f (.error (.found what)) = .error (.found what'))
    (hok : f (.ok ()) = .ok ()) (h : Finds run P) : Finds (fun fuel => f (run fuel)) P := by
  refine h.mono fun fuel hdecides => ?_
  rcases hdecides with ⟨hP, what, hrun⟩ | ⟨hnot, hrun⟩
  · exact .inl ⟨hP, by simpa only [hrun] using hfound what⟩
  · exact .inr ⟨hnot, by simpa only [hrun] using hok⟩

/-- One call takes one unit of fuel. -/
theorem Finds.succ (h : Finds (fun fuel => run (fuel + 1)) P) : Finds run P := eventually_of_succ h

/-! ## Searches through trees -/

open Relation

variable {ν : Type} {tree base extra : ν → ν → Prop} {R S : ν → Prop} {n : ν}

/-- The property holds of something in the tree. -/
def Reaches (tree : ν → ν → Prop) (R : ν → Prop) (n : ν) : Prop := ∃ m, ReflTransGen tree n m ∧ R m

theorem reaches_iff : Reaches tree R n ↔ R n ∨ ∃ m, tree n m ∧ Reaches tree R m := by
  constructor
  · rintro ⟨m, hpath, hm⟩
    rcases ReflTransGen.cases_head hpath with rfl | ⟨next, hnext, hrest⟩
    · exact .inl hm
    · exact .inr ⟨next, hnext, m, hrest, hm⟩
  · rintro (hn | ⟨next, hnext, m, hrest, hm⟩)
    · exact ⟨n, .refl, hn⟩
    · exact ⟨m, .head hnext hrest, hm⟩

theorem Reaches.mono (h : Reaches base R n) (hle : ∀ a b, base a b → tree a b) :
    Reaches tree R n := by
  obtain ⟨m, hpath, hm⟩ := h
  exact ⟨m, ReflTransGen.mono hle _ _ hpath, hm⟩

/-- Two properties that are the same where an invariant of the tree holds. -/
theorem Reaches.congr {I : ν → Prop} (hn : I n) (hstep : ∀ a b, I a → tree a b → I b)
    (hiff : ∀ a, I a → (R a ↔ S a)) : Reaches tree R n ↔ Reaches tree S n := by
  have hinvariant : ∀ m, ReflTransGen tree n m → I m := by
    intro m hpath
    induction hpath with
    | refl => exact hn
    | tail _ hlast ih => exact hstep _ _ ih hlast
  constructor
  · rintro ⟨m, hpath, hm⟩
    exact ⟨m, hpath, (hiff m (hinvariant m hpath)).mp hm⟩
  · rintro ⟨m, hpath, hm⟩
    exact ⟨m, hpath, (hiff m (hinvariant m hpath)).mpr hm⟩

/-- A tree with two kinds of edges: a path has no edge of the second kind, or it has a first one. -/
theorem reaches_or_iff (htree : ∀ a b, tree a b ↔ base a b ∨ extra a b) :
    Reaches tree R n ↔ Reaches base R n ∨
      ∃ a b, ReflTransGen base n a ∧ extra a b ∧ Reaches tree R b := by
  constructor
  · rintro ⟨m, hpath, hm⟩
    induction hpath using ReflTransGen.head_induction_on with
    | refl => exact .inl ⟨m, .refl, hm⟩
    | head hfirst hrest ih =>
        rcases (htree _ _).mp hfirst with hbase | hextra
        · rcases ih with ⟨last, hpath, hlast⟩ | ⟨a, b, hpath, hextra, hb⟩
          · exact .inl ⟨last, .head hbase hpath, hlast⟩
          · exact .inr ⟨a, b, .head hbase hpath, hextra, hb⟩
        · exact .inr ⟨_, _, .refl, hextra, m, hrest, hm⟩
  · rintro (hbase | ⟨a, b, hpath, hextra, m, hrest, hm⟩)
    · exact hbase.mono fun a b hab => (htree a b).mpr (.inl hab)
    · have hmono : ∀ a b, base a b → tree a b := fun a b hab => (htree a b).mpr (.inl hab)
      exact ⟨m, (ReflTransGen.mono hmono _ _ hpath).trans
        (.head ((htree a b).mpr (.inr hextra)) hrest), hm⟩

end Finding
