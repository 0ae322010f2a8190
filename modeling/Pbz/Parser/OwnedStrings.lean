import Pbz.Lib.Handles
import Pbz.Lib.Logged
import Pbz.Parser.Declarations

set_option autoImplicit false

/-! # The strings that a parse owns

The parser once more, with the strings that it allocates. A string is a handle of a ledger, and
`owned` is the list `owned_strings` of the file, whose handles `deinit` releases. Allocation
succeeds. `openGroups` is there for the theorems only: the group fields that have been named but
not read to their end, with the handle of the name. The strings of comments and the qualified
names are left out.
-/

namespace Pbz

open Handles Logged Program

structure OwnedStrings where
  ledger : Ledger := {}
  owned : List Nat := []
  openGroups : List (Bytes × Nat) := []

namespace OwnedStrings

def allocate (strings : OwnedStrings) : OwnedStrings :=
  { strings with ledger := strings.ledger.make }

def append (strings : OwnedStrings) (handle : Nat) : OwnedStrings :=
  { strings with owned := strings.owned ++ [handle] }

def free (handle : Nat) (strings : OwnedStrings) : OwnedStrings :=
  { strings with ledger := strings.ledger.release [handle] }

/-- `FileDescriptor.deinit`. -/
def deinit (strings : OwnedStrings) : OwnedStrings :=
  { strings with ledger := strings.ledger.release strings.owned }

/-- No handle of `owned` has been released, and all others have exactly once. -/
def Held (strings : OwnedStrings) : Prop := strings.ledger.Holds strings.owned

variable {strings : OwnedStrings}

theorem held_empty : Held {} := Ledger.holds_empty

theorem Held.own (h : strings.Held) : (strings.allocate.append strings.ledger.made).Held :=
  (Ledger.Holds.make h).perm (List.perm_append_singleton _ _).symm

/-- A string that has not been recorded is released. -/
theorem Held.allocate_free (h : strings.Held) :
    (strings.allocate.free strings.ledger.made).Held :=
  (Ledger.Holds.make h).release

end OwnedStrings

/-! ## The discipline -/

/-- What a production that returns does to the strings. -/
structure KeepsStrings (before after : OwnedStrings) : Prop where
  held : before.Held → after.Held
  made : before.ledger.made ≤ after.ledger.made
  released : after.ledger.released = before.ledger.released
  openGroups : after.openGroups = before.openGroups

/-- What a production that fails does to the strings: the names of the groups that it leaves open
are released, although they are owned by the file. -/
structure LeavesStrings (before after : OwnedStrings) (groups : List (Bytes × Nat))
    (once : List Nat) : Prop where
  openGroups : after.openGroups = groups ++ before.openGroups
  released : after.ledger.released.Perm (groups.map Prod.snd ++ once)
  holds : Ledger.Holds { made := after.ledger.made, released := once } after.owned
  made : before.ledger.made ≤ after.ledger.made
  groupsMade : ∀ group ∈ groups, group.2 < after.ledger.made

def FailsStrings (before after : OwnedStrings) : Prop :=
  before.Held → ∃ groups once, LeavesStrings before after groups once

section Discipline

variable {strings before middle after : OwnedStrings}

theorem KeepsStrings.refl : KeepsStrings strings strings := ⟨id, le_rfl, rfl, rfl⟩

theorem KeepsStrings.trans (h : KeepsStrings before middle) (h' : KeepsStrings middle after) :
    KeepsStrings before after where
  held := h'.held ∘ h.held
  made := h.made.trans h'.made
  released := h'.released.trans h.released
  openGroups := h'.openGroups.trans h.openGroups

theorem LeavesStrings.refl (h : strings.Held) :
    LeavesStrings strings strings [] strings.ledger.released where
  openGroups := rfl
  released := .refl _
  holds := h
  made := le_rfl
  groupsMade := by simp

theorem FailsStrings.refl : FailsStrings strings strings := fun h => ⟨[], _, .refl h⟩

theorem KeepsStrings.fails (h : KeepsStrings before middle) (h' : FailsStrings middle after) :
    FailsStrings before after := by
  intro hheld
  obtain ⟨groups, once, hleaves⟩ := h' (h.held hheld)
  exact ⟨groups, once,
    { hleaves with
      openGroups := by rw [hleaves.openGroups, h.openGroups]
      made := h.made.trans hleaves.made }⟩

theorem KeepsStrings.own : KeepsStrings strings (strings.allocate.append strings.ledger.made) where
  held := OwnedStrings.Held.own
  made := Nat.le_succ _
  released := rfl
  openGroups := rfl

end Discipline

/-- Only a failure ends a parse for the caller; the other stops end the program. -/
def ownership : Discipline OwnedStrings Stop where
  returns := KeepsStrings
  stops stop before after := ∀ e, stop = .error e → FailsStrings before after
  returns_refl _ := .refl
  returns_trans h h' := h.trans h'
  stops_refl _ _ _ _ := .refl
  stops_of_returns h h' e he := h.fails (h' e he)

/-! ## Programs that own strings -/

abbrev Owned (σ α : Type) := Logged OwnedStrings σ Stop α

abbrev OwnedParse := Owned Parser

namespace Owned

variable {σ α : Type}

def fail (e : ParseError) : Owned σ α := throw (.error e)

def liftError (x : Except ParseError α) : Owned σ α :=
  liftM (Pbz.liftError x : StateT σ (Except Stop) α)

def liftStop (x : Except Stop α) : Owned σ α := liftM (Pbz.liftStop x : StateT σ (Except Stop) α)

/-- Only an error runs the cleanups. -/
def onError (cleanup : OwnedStrings → OwnedStrings) : Stop → OwnedStrings → OwnedStrings
  | .error _, strings => cleanup strings
  | _, strings => strings

def errdefer (cleanup : OwnedStrings → OwnedStrings) (p : Owned σ α) : Owned σ α :=
  onStop (onError cleanup) p

/-- Allocate a string. -/
def allocate : Owned σ Nat := note fun strings => (strings.ledger.made, strings.allocate)

def append (handle : Nat) : Owned σ Unit := note fun strings => ((), strings.append handle)

/-- Allocate a string and record it with the file. -/
def own : Owned σ Nat :=
  note fun strings => (strings.ledger.made, strings.allocate.append strings.ledger.made)

/-- Allocate a string that is recorded only behind `p`, and released if `p` fails. -/
def ownBehind (p : Owned σ Unit) : Owned σ Unit := do
  let handle ← allocate
  errdefer (OwnedStrings.free handle) p
  append handle

/-- The group field `name` is open while `p` runs. -/
def inGroup (name : Bytes) (handle : Nat) (p : Owned σ α) : Owned σ α := do
  note fun strings => ((), { strings with openGroups := (name, handle) :: strings.openGroups })
  let a ← p
  note fun strings => ((), { strings with openGroups := strings.openGroups.tail })
  return a

section Rules

variable {p : Owned σ α} {q : StateT σ (Except Stop) α} {β : Type} {f : β → Owned σ α}
  {g : β → StateT σ (Except Stop) α} {s : σ}

theorem fail_follows {e : ParseError} : Follows ownership (fail e : Owned σ α) (Pbz.fail e) := .throw

theorem liftError_bind {x : Except ParseError β} (hf : ∀ b, Follows ownership (f b) (g b)) :
    Follows ownership (liftError x >>= f) (Pbz.liftError x >>= g) := .behind hf

theorem liftStop_bind {x : Except Stop β} (hf : ∀ b, Follows ownership (f b) (g b)) :
    Follows ownership (liftStop x >>= f) (Pbz.liftStop x >>= g) := .behind hf

theorem own_follows {f : Nat → Owned σ α} (hf : ∀ handle, Follows ownership (f handle) q) :
    Follows ownership (own >>= f) q :=
  .note (fun _ => .own) hf

theorem ownBehind_follows {q : StateT σ (Except Stop) Unit} :
    Follows ownership (ownBehind (liftM q)) q := by
  intro s strings
  have hrun : run (liftM q : Owned σ Unit) s strings.allocate = (q s, strings.allocate) := rfl
  cases hresult : q s with
  | ok result =>
      obtain ⟨⟨⟩, s'⟩ := result
      rw [hresult] at hrun
      refine ⟨strings.allocate.append strings.ledger.made, ?_, Discipline.ends_ok .own⟩
      exact run_note_bind.trans (run_bind_of_ok (run_onStop_of_ok hrun))
  | error stop =>
      rw [hresult] at hrun
      cases stop with
      | error e =>
          -- not recorded yet: the only release is the one of the cleanup
          refine ⟨strings.allocate.free strings.ledger.made,
            run_note_bind.trans (run_bind_of_error (run_onStop_of_error hrun)),
            Discipline.ends_error fun _ _ hheld => ⟨[], _, rfl, .refl _, hheld.allocate_free,
              Nat.le_succ _, by simp⟩⟩
      | _ =>
          exact ⟨strings.allocate,
            run_note_bind.trans (run_bind_of_error (run_onStop_of_error hrun)),
            Discipline.ends_error fun _ he => nomatch he⟩

/-! ### Groups -/

/-- The strings behind the name of a group field. -/
def nameGroup (name : Bytes) (strings : OwnedStrings) : OwnedStrings :=
  { strings.allocate.append strings.ledger.made with
    openGroups := (name, strings.ledger.made) :: strings.openGroups }

theorem nameGroup_held {name : Bytes} {strings : OwnedStrings} (h : strings.Held) :
    (nameGroup name strings).Held := h.own

/-- A group field that has been read to its end. -/
theorem keeps_of_nameGroup {name : Bytes} {before after : OwnedStrings}
    (h : KeepsStrings (nameGroup name before) after) :
    KeepsStrings before { after with openGroups := after.openGroups.tail } where
  held hheld := h.held (nameGroup_held hheld)
  made := Nat.le_of_succ_le h.made
  released := h.released
  openGroups := congrArg List.tail h.openGroups

/-- A group field that fails behind its name: the name is released, but stays with the file. -/
theorem fails_of_nameGroup {name : Bytes} {before after : OwnedStrings}
    (h : FailsStrings (nameGroup name before) after) :
    FailsStrings before (after.free before.ledger.made) := by
  intro hheld
  obtain ⟨groups, once, hleaves⟩ := h (nameGroup_held hheld)
  have hmade : before.ledger.made < after.ledger.made := hleaves.made
  -- the cleanup of the outer group runs behind those of the groups in it
  refine ⟨groups ++ [(name, before.ledger.made)], once, ?_, ?_, hleaves.holds, hmade.le, ?_⟩
  · rw [List.append_assoc]
    exact hleaves.openGroups
  · rw [List.map_append, List.append_assoc]
    exact (hleaves.released.cons _).trans List.perm_middle.symm
  · intro group hgroup
    rcases List.mem_append.mp hgroup with hgroup | hgroup
    · exact hleaves.groupsMade group hgroup
    · rw [List.mem_singleton.mp hgroup]
      exact hmade

/-- A group field behind its name, which is released if the rest fails. -/
theorem group_follows {name : Bytes} {p : Nat → Owned σ α}
    (hp : ∀ handle, Follows ownership (p handle) q) :
    Follows ownership (do
      let handle ← own
      inGroup name handle (errdefer (OwnedStrings.free handle) (p handle))) q := by
  intro s strings
  obtain ⟨after, hrun, hends⟩ := hp strings.ledger.made s (nameGroup name strings)
  have hopen : run (do
      let handle ← own
      inGroup name handle (errdefer (OwnedStrings.free handle) (p handle))) s strings
      = run (do
          let a ← errdefer (OwnedStrings.free strings.ledger.made) (p strings.ledger.made)
          note fun strings => ((), { strings with openGroups := strings.openGroups.tail })
          return a) s (nameGroup name strings) := rfl
  rw [hopen]
  -- the log of `p` begins with the group open, and only a return closes it
  cases hresult : q s with
  | ok result =>
      rw [hresult] at hrun hends
      exact ⟨_, run_bind_of_ok (b := result.1) (run_onStop_of_ok hrun),
        Discipline.ends_ok (keeps_of_nameGroup (hends.returns _ rfl))⟩
  | error stop =>
      rw [hresult] at hrun hends
      refine ⟨_, run_bind_of_error (run_onStop_of_error hrun), Discipline.ends_error ?_⟩
      rintro e rfl
      exact fails_of_nameGroup (hends.stops _ rfl e rfl)

end Rules

/-! ## String literals -/

def lowercaseOwned (name : Bytes) : OwnedParse (Bytes × Nat) := do
  let handle ← own
  return (name.map toLower, handle)

/-- The part of `parseGroupField` from `lowercaseOwned` on. Where it fails, the name of the field is
released by an `errdefer`, although the file owns it. -/
def behindGroupName {α : Type} (name : Bytes) (rest : Bytes → OwnedParse α) : OwnedParse α := do
  let (fieldName, handle) ← lowercaseOwned name
  -- `errdefer self.allocator.free(field_name)`
  inGroup name handle (errdefer (OwnedStrings.free handle) (rest fieldName))

theorem behindGroupName_follows {α : Type} {name : Bytes} {rest : Bytes → OwnedParse α}
    {q : Parse α} (hrest : Follows ownership (rest (name.map toLower)) q) :
    Follows ownership (behindGroupName name rest) q :=
  group_follows fun _ => hrest

def decodeStringLiteral (text : Bytes) : OwnedParse Bytes := do
  let decoded ← liftStop (Pbz.decodeStringLiteral text)
  let _ ← own
  return decoded

/-- A literal that stands alone is returned as it is, joined ones are a string of their own. -/
def moreStrings : Bool → Nat → Bytes → OwnedParse Bytes
  | _, 0, _ => throw .fuel
  | alone, rounds + 1, joined => do
      let self ← get
      if self.current.tag == .stringLiteral then
        let part ← decodeStringLiteral self.current.text
        Parser.advanceVoid
        moreStrings false rounds (joined ++ part)
      else if alone then return joined
      else
        let _ ← own
        return joined

def expectString (rounds : Nat) : OwnedParse Bytes := do
  let self ← get
  if self.current.tag == .stringLiteral then
    let first ← decodeStringLiteral self.current.text
    Parser.advanceVoid
    moreStrings true rounds first
  else fail .unexpectedToken

section Strings

variable {σ β : Type} {rounds : Nat}

theorem decodeStringLiteral_bind {text : Bytes} {f : Bytes → OwnedParse β} {g : Bytes → Parse β}
    (hf : ∀ decoded, Follows ownership (f decoded) (g decoded)) :
    Follows ownership (decodeStringLiteral text >>= f)
      (Pbz.liftStop (Pbz.decodeStringLiteral text) >>= g) := by
  unfold decodeStringLiteral
  simp only [bind_assoc, pure_bind]
  exact liftStop_bind fun decoded => own_follows fun _ => hf decoded

theorem moreStrings_follows {alone : Bool} {joined : Bytes} :
    Follows ownership (moreStrings alone rounds joined) (Parser.moreStrings rounds joined) := by
  induction rounds generalizing alone joined with
  | zero => exact .throw
  | succ rounds ih =>
      refine .get fun s => .ite (fun _ => ?_) fun _ => ?_
      · exact decodeStringLiteral_bind (fun part => .behind fun _ => ih) s
      · cases alone with
        | true => exact Follows.pure s
        | false => exact own_follows (fun _ => .pure) s

theorem expectString_follows :
    Follows ownership (expectString rounds) (Parser.expectString rounds) := by
  refine .get fun s => .ite (fun _ => ?_) fun _ => fail_follows s
  exact decodeStringLiteral_bind (fun first => .behind fun _ => moreStrings_follows) s

end Strings

end Owned

end Pbz
