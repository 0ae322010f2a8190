import Mathlib.Tactic

set_option autoImplicit false

/-! # Owned handles

A program that makes values and has to release them is followed in a ledger: how many handles were
made (they are numbered in this order) and which were released. `Holds` is the invariant of a
program that releases nothing twice and loses nothing: the handles in `held` have not been
released, all others exactly once.
-/

namespace Handles

structure Ledger where
  made : Nat := 0
  released : List Nat := []

namespace Ledger

/-- The handle made next is the number of those made so far. -/
def make (ledger : Ledger) : Ledger := { ledger with made := ledger.made + 1 }

def release (ledger : Ledger) (handles : List Nat) : Ledger :=
  { ledger with released := handles ++ ledger.released }

@[simp] theorem make_made (ledger : Ledger) : ledger.make.made = ledger.made + 1 := rfl

@[simp] theorem make_released (ledger : Ledger) : ledger.make.released = ledger.released := rfl

@[simp] theorem release_made (ledger : Ledger) (handles : List Nat) :
    (ledger.release handles).made = ledger.made := rfl

@[simp] theorem release_released (ledger : Ledger) (handles : List Nat) :
    (ledger.release handles).released = handles ++ ledger.released := rfl

@[simp] theorem release_nil (ledger : Ledger) : ledger.release [] = ledger := rfl

theorem release_release (ledger : Ledger) (handles more : List Nat) :
    (ledger.release handles).release more = ledger.release (more ++ handles) := by
  simp [release]

/-- The handles that are kept have not been released, and all others exactly once. -/
def Settled (ledger : Ledger) (kept : List Nat) : Prop :=
  ∀ handle < ledger.made, ledger.released.count handle = if handle ∈ kept then 0 else 1

instance (ledger : Ledger) (kept : List Nat) : Decidable (ledger.Settled kept) :=
  inferInstanceAs (Decidable (∀ handle < ledger.made, _ = _))

/-- The handles that are held are some of those made, and the others are settled. -/
structure Holds (ledger : Ledger) (held : List Nat) : Prop where
  nodup : held.Nodup
  made : ∀ handle ∈ held, handle < ledger.made
  released : ∀ handle ∈ ledger.released, handle < ledger.made
  settled : ledger.Settled held

variable {ledger : Ledger} {held handles : List Nat}

theorem holds_empty : Holds {} [] where
  nodup := List.nodup_nil
  made := by simp
  released := by simp
  settled := fun handle h => absurd h (Nat.not_lt_zero handle)

theorem Holds.perm {others : List Nat} (h : Holds ledger held) (hp : held.Perm others) :
    Holds ledger others where
  nodup := hp.nodup_iff.mp h.nodup
  made := fun handle hm => h.made handle (hp.mem_iff.mpr hm)
  released := h.released
  settled := by
    intro handle hm
    rw [h.settled handle hm]
    simp only [hp.mem_iff]

/-- What is held, and a handle made for it. -/
theorem Holds.make (h : Holds ledger held) : Holds ledger.make (ledger.made :: held) where
  nodup := List.nodup_cons.mpr ⟨fun hm => Nat.lt_irrefl _ (h.made _ hm), h.nodup⟩
  made := by
    intro handle hm
    rcases List.mem_cons.mp hm with rfl | hm
    · exact Nat.lt_succ_self _
    · exact Nat.lt_succ_of_lt (h.made handle hm)
  released := fun handle hm => Nat.lt_succ_of_lt (h.released handle hm)
  settled := by
    intro handle hm
    rw [make_released]
    by_cases hnew : handle = ledger.made
    · have hfresh : handle ∉ ledger.released := fun hr => by
        have hlt := h.released handle hr
        omega
      rw [List.count_eq_zero_of_not_mem hfresh, if_pos (by simp [hnew])]
    · rw [make_made] at hm
      rw [h.settled handle (by omega)]
      simp [hnew]

/-- Of what is held, the handles in front are released. -/
theorem Holds.release (h : Holds ledger (handles ++ held)) :
    Holds (ledger.release handles) held where
  nodup := h.nodup.of_append_right
  made := fun handle hm => h.made handle (List.mem_append_right _ hm)
  released := by
    intro handle hm
    rcases List.mem_append.mp hm with hm | hm
    · exact h.made handle (List.mem_append_left _ hm)
    · exact h.released handle hm
  settled := by
    intro handle hm
    have hs := h.settled handle hm
    have hdisjoint := List.disjoint_of_nodup_append h.nodup
    rw [release_released, List.count_append, hs]
    by_cases hin : handle ∈ handles
    · have hout : handle ∉ held := fun hc => hdisjoint hin hc
      rw [List.count_eq_one_of_mem h.nodup.of_append_left hin, if_pos (by simp [hin]),
        if_neg hout]
    · rw [List.count_eq_zero_of_not_mem hin]
      simp [hin]

/-- Everything that is held is released. -/
theorem Holds.releaseAll (h : Holds ledger held) : (ledger.release held).Settled [] := by
  have hnil : Holds ledger (held ++ []) := by rwa [List.append_nil]
  exact hnil.release.settled

/-- A handle that has been released is released again. -/
theorem Holds.not_settled_twice {handle : Nat} {more kept : List Nat}
    (h : Holds ledger (handles ++ held)) (hin : handle ∈ handles) (hmore : handle ∈ more) :
    ¬ ((ledger.release handles).release more).Settled kept := by
  intro hs
  have hcount := hs handle (h.made handle (List.mem_append_left _ hin))
  rw [release_released, release_released, List.count_append, List.count_append] at hcount
  have hone : 0 < handles.count handle := List.count_pos_iff.mpr hin
  have htwo : 0 < more.count handle := List.count_pos_iff.mpr hmore
  split at hcount <;> omega

/-- A handle that is held is never released. -/
theorem Holds.not_settled_lost {handle : Nat} (h : Holds ledger held) (hin : handle ∈ held) :
    ¬ ledger.Settled [] := by
  intro hs
  have hheld := h.settled handle (h.made handle hin)
  have hcount := hs handle (h.made handle hin)
  rw [hheld, if_pos hin, if_neg (by simp)] at hcount
  exact absurd hcount (by decide)

end Ledger

end Handles
