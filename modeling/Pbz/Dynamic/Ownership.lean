import Pbz.Dynamic.Consume
import Pbz.Lib.Handles

set_option autoImplicit false

/-! # Who owns the parts of a map entry

`decodeMapEntryValue` once more, with the values that `decodeValue` makes for it as handles: every
call of `deinitValue` on one of them is a release in a ledger. The optional variables of the source
keep what they hold when it is released, so that the deferred cleanup, which releases what they
hold, may release it again.

A call that allocates may run out of memory; `memory n` says whether the `n`-th one does not.
-/

namespace Pbz

open Handles

/-! ## The function with its handles -/

inductive EntryFailure where
  | decode (e : Error)
  | outOfMemory

/-- A key or value; the handle is missing if `decodeValue` did not make it. -/
structure Slot where
  value : Value
  handle : Option Nat := none

/-- The handles of what an optional variable holds. -/
def handlesOf (slot : Option Slot) : List Nat := (slot.bind Slot.handle).toList

/-- `maybe_key`, `maybe_value` and whether the loop ended with an undeclared value of a closed
enum. -/
structure OwnedEntryState where
  key : Option Slot := none
  value : Option Slot := none
  undeclared : Bool := false
  ledger : Ledger := {}
  allocations : Nat := 0

namespace OwnedEntryState

/-- The deferred cleanup of a call that has not succeeded. -/
def cleanUp (state : OwnedEntryState) : Ledger :=
  (state.ledger.release (handlesOf state.key)).release (handlesOf state.value)

end OwnedEntryState

/-- What a call leaves behind and what it returns. -/
structure EntryOutcome where
  ledger : Ledger
  result : Except EntryFailure (Option (Slot × Slot))

section

variable (registry : Option Registry) (nested : Option StreamDecoder) (memory : Nat → Bool)

/-- `decodeValue` when it succeeds and memory suffices makes a handle, which `store` puts into its
variable. -/
def ownDecoded (store : OwnedEntryState → Slot → OwnedEntryState) (state : OwnedEntryState)
    (decoded : ReadResult Value) : Loop.Step UInt8 OwnedEntryState EntryFailure :=
  match decoded with
  | .error e => .fail state (.decode e)
  | .ok (value, rest) =>
      if memory state.allocations then
        .next (store { state with
            ledger := state.ledger.make, allocations := state.allocations + 1 }
          { value, handle := some state.ledger.made }) rest
      else .fail state .outOfMemory

/-- The pass over a value: the old one is released before the new one is read. -/
def ownedValuePass (file : FileDescriptor) (current : MessageDescriptor)
    (field : FieldDescriptor) (valueKind : FieldKind) (tag : Tag) (state : OwnedEntryState)
    (rest : Bytes) : Loop.Step UInt8 OwnedEntryState EntryFailure :=
  let released := { state with ledger := state.ledger.release (handlesOf state.value) }
  match registryEnumDescriptor file registry current valueKind with
  | some enumeration =>
      if tag.wireType ≠ .varint then .fail released (.decode .invalidWireType)
      else match readInt32 rest with
        | .error e => .fail released (.decode e)
        | .ok (v, rest) =>
            if enumIsClosed file registry enumeration && !enumHasNumber enumeration v then
              .done { released with undeclared := true } rest
            else .next { released with value := some { value := .enumeration v } } rest
  | none =>
      if tag.wireType ≠ valueKind.wireType then .fail released (.decode .invalidWireType)
      else
        ownDecoded memory (fun state slot => { state with value := some slot }) released
          (decodeValue registry nested file current field valueKind rest)

/-- One pass of the loop of `decodeMapEntryValue`. -/
def ownedEntryPass (levels : Nat) (file : FileDescriptor) (current : MessageDescriptor)
    (field : FieldDescriptor) (keyType : ScalarType) (valueKind : FieldKind)
    (state : OwnedEntryState) (input : Bytes) :
    Loop.Step UInt8 OwnedEntryState EntryFailure :=
  match nextTag input with
  | .error e => .fail state (.decode e)
  | .ok none => .done state input
  | .ok (some (tag, rest)) =>
      if tag.number = 1 then
        if tag.wireType ≠ keyType.wireType then .fail state (.decode .invalidWireType)
        else
          let released := { state with ledger := state.ledger.release (handlesOf state.key) }
          ownDecoded memory (fun state slot => { state with key := some slot }) released
            (decodeValue registry nested file current field (.scalar keyType) rest)
      else if tag.number = 2 then
        ownedValuePass registry nested memory file current field valueKind tag state rest
      else match skipValue levels tag rest with
        | .error e => .fail state (.decode e)
        | .ok rest => .next state rest

/-- A default in place of a key or value that the entry leaves out; `decodeValue` has not made
it. -/
def defaultSlot (file : FileDescriptor) (current : MessageDescriptor) (kind : FieldKind)
    (allocations : Nat) : Except EntryFailure Slot :=
  match defaultValue registry file current kind with
  | .error e => .error (.decode e)
  | .ok value => if memory allocations then .ok { value } else .error .outOfMemory

def entryKey (file : FileDescriptor) (current : MessageDescriptor) (keyType : ScalarType)
    (state : OwnedEntryState) : Except EntryFailure Slot :=
  match state.key with
  | some key => .ok key
  | none => defaultSlot registry memory file current (.scalar keyType) state.allocations

def entryValue (file : FileDescriptor) (current : MessageDescriptor) (valueKind : FieldKind)
    (state : OwnedEntryState) : Except EntryFailure Slot :=
  match state.value with
  | some value => .ok value
  | none =>
      if (registryEnumDescriptor file registry current valueKind).isSome then
        .ok { value := .enumeration 0 }
      else defaultSlot registry memory file current valueKind (state.allocations + 1)

/-- The end of the function: the key and the value move out of their variables one after the
other, and the second deferred cleanup stands behind both. -/
def finishEntry (file : FileDescriptor) (current : MessageDescriptor) (keyType : ScalarType)
    (valueKind : FieldKind) (state : OwnedEntryState) : EntryOutcome :=
  match entryKey registry memory file current keyType state with
  | .error e =>
      -- `maybe_key` is null here, the cleanup finds `maybe_value` only
      { ledger := state.ledger.release (handlesOf state.value), result := .error e }
  | .ok key =>
      match entryValue registry memory file current valueKind state with
      -- `maybe_key` has been cleared and the cleanup of `key` does not stand yet
      | .error e => { ledger := state.ledger, result := .error e }
      | .ok value =>
          if memory (state.allocations + 2) then
            { ledger := state.ledger, result := .ok (some (key, value)) }
          else
            { ledger := (state.ledger.release (handlesOf (some key))).release
                (handlesOf (some value)),
              result := .error .outOfMemory }

/-- How the function ends behind the loop. -/
def endEntry (file : FileDescriptor) (current : MessageDescriptor) (keyType : ScalarType)
    (valueKind : FieldKind) :
    OwnedEntryState × Except EntryFailure Bytes → EntryOutcome
  | (state, .error e) => { ledger := state.cleanUp, result := .error e }
  | (state, .ok _) =>
      if state.undeclared then { ledger := state.cleanUp, result := .ok none }
      else finishEntry registry memory file current keyType valueKind state

def decodeMapEntryOwned (levels : Nat) (file : FileDescriptor) (current : MessageDescriptor)
    (field : FieldDescriptor) (keyType : ScalarType) (valueKind : FieldKind) (payload : Bytes) :
    EntryOutcome :=
  endEntry registry memory file current keyType valueKind
    (Loop.run (ownedEntryPass registry nested memory levels file current field keyType valueKind)
      {} payload)

end

/-! ## The property and when it holds -/

/-- The handles in the entry that is returned. -/
def EntryOutcome.kept (outcome : EntryOutcome) : List Nat :=
  match outcome.result with
  | .ok (some (key, value)) => handlesOf (some key) ++ handlesOf (some value)
  | _ => []

/-- The handles in a returned entry have not been released, all others exactly once. -/
def EntryOutcome.ReleasedOnce (outcome : EntryOutcome) : Prop :=
  outcome.ledger.Settled outcome.kept

section

variable (registry : Option Registry) (nested : Option StreamDecoder) (memory : Nat → Bool)
  (file : FileDescriptor) (current : MessageDescriptor) (field : FieldDescriptor)
  (keyType : ScalarType) (valueKind : FieldKind)

/-- A key or value of this kind can be read and there is memory for it. -/
def CanRead (kind : FieldKind) (state : OwnedEntryState) (input : Bytes) : Prop :=
  (∃ result, decodeValue registry nested file current field kind input = .ok result)
    ∧ memory state.allocations = true

/-- A second key can be read, and a second value that is no enum has its wire type and can be
read. -/
structure ReadsAgain (state : OwnedEntryState) (input : Bytes) : Prop where
  key : ∀ tag rest, nextTag input = .ok (some (tag, rest)) → tag.number = 1 →
    tag.wireType = keyType.wireType → state.key.isSome →
      CanRead registry nested memory file current field (.scalar keyType) state rest
  value : ∀ tag rest, nextTag input = .ok (some (tag, rest)) → tag.number = 2 →
    registryEnumDescriptor file registry current valueKind = none → state.value.isSome →
      tag.wireType = valueKind.wireType
        ∧ CanRead registry nested memory file current field valueKind state rest

/-- An entry with a key and without a value has a default value. -/
def HasDefault (state : OwnedEntryState) (input : Bytes) : Prop :=
  input = [] → state.key.isSome → state.value = none →
    registryEnumDescriptor file registry current valueKind = none →
      ∃ slot, defaultSlot registry memory file current valueKind (state.allocations + 1) = .ok slot

end

/-! ## The invariant -/

/-- Between two passes the ledger holds the handles of the two variables; a key has one, and a
value if it is no enum. -/
structure OwnershipInvariant (registry : Option Registry) (file : FileDescriptor)
    (current : MessageDescriptor) (valueKind : FieldKind) (state : OwnedEntryState) : Prop where
  holds : state.ledger.Holds (handlesOf state.key ++ handlesOf state.value)
  key : ∀ slot, state.key = some slot → slot.handle.isSome
  value : ∀ slot, state.value = some slot →
    (slot.handle.isSome ↔ registryEnumDescriptor file registry current valueKind = none)
  declared : state.undeclared = false

section

variable {registry : Option Registry} {nested : Option StreamDecoder} {memory : Nat → Bool}
  {levels : Nat} {file : FileDescriptor} {current : MessageDescriptor} {field : FieldDescriptor}
  {keyType : ScalarType} {valueKind : FieldKind} {state : OwnedEntryState} {input : Bytes}

theorem handlesOf_some {slot : Slot} {handle : Nat} (h : slot.handle = some handle) :
    handlesOf (some slot) = [handle] := by
  simp [handlesOf, h]

@[simp] theorem handlesOf_none : handlesOf none = [] := rfl

/-- The cleanup of a state that holds its handles. -/
theorem OwnershipInvariant.cleanUp (h : OwnershipInvariant registry file current valueKind state) :
    state.cleanUp.Settled [] :=
  h.holds.release.releaseAll

theorem OwnershipInvariant.handlesOf_value (h : OwnershipInvariant registry file current valueKind state)
    (henum : registryEnumDescriptor file registry current valueKind ≠ none) :
    handlesOf state.value = [] := by
  cases hv : state.value with
  | none => rfl
  | some slot =>
      have hnone := (h.value slot hv).not.mpr henum
      simpa [handlesOf] using hnone

theorem OwnershipInvariant.handlesOf_value_iff
    (h : OwnershipInvariant registry file current valueKind state)
    (henum : registryEnumDescriptor file registry current valueKind = none) :
    handlesOf state.value = [] ↔ state.value.isSome = false := by
  cases hv : state.value with
  | none => simp
  | some slot =>
      obtain ⟨handle, hhandle⟩ := Option.isSome_iff_exists.mp ((h.value slot hv).mpr henum)
      simp [handlesOf, hhandle]

/-- A key whose replacement cannot be read is released again by the cleanup. -/
theorem OwnershipInvariant.cleanUp_key (h : OwnershipInvariant registry file current valueKind state) :
    (OwnedEntryState.cleanUp
        { state with ledger := state.ledger.release (handlesOf state.key) }).Settled []
      ↔ state.key.isSome = false := by
  rw [Option.isSome_eq_false_iff, Option.isNone_iff_eq_none]
  constructor
  · intro hs
    cases hkey : state.key with
    | none => rfl
    | some slot =>
        obtain ⟨handle, hhandle⟩ := Option.isSome_iff_exists.mp (h.key slot hkey)
        have hmem : handle ∈ handlesOf state.key := by
          rw [hkey, handlesOf_some hhandle]
          exact List.mem_cons_self
        rw [OwnedEntryState.cleanUp, Ledger.release_release] at hs
        exact absurd hs (h.holds.not_settled_twice hmem (List.mem_append_right _ hmem))
  · intro hkey
    have hnil : handlesOf state.key = [] := by
      rw [hkey]
      rfl
    rw [hnil, Ledger.release_nil]
    exact h.cleanUp

/-- The same for a value. -/
theorem OwnershipInvariant.cleanUp_value (h : OwnershipInvariant registry file current valueKind state) :
    (OwnedEntryState.cleanUp
        { state with ledger := state.ledger.release (handlesOf state.value) }).Settled []
      ↔ handlesOf state.value = [] := by
  constructor
  · intro hs
    by_contra hne
    obtain ⟨handle, hmem⟩ := List.exists_mem_of_ne_nil _ hne
    have hholds := h.holds.perm List.perm_append_comm
    rw [OwnedEntryState.cleanUp, Ledger.release_release] at hs
    exact hholds.not_settled_twice hmem (List.mem_append_left _ hmem) hs
  · intro hvalue
    rw [hvalue, Ledger.release_nil]
    exact h.cleanUp

/-! ## One pass -/

/-- Nothing goes wrong in the pass at this state and input. -/
def GoesWell (registry : Option Registry) (nested : Option StreamDecoder) (memory : Nat → Bool)
    (file : FileDescriptor) (current : MessageDescriptor) (field : FieldDescriptor)
    (keyType : ScalarType) (valueKind : FieldKind) (state : OwnedEntryState) (input : Bytes) :
    Prop :=
  ReadsAgain registry nested memory file current field keyType valueKind state input
    ∧ HasDefault registry memory file current valueKind state input

theorem goesWell_of_tag {tag : Tag} {rest : Bytes} (hnext : nextTag input = .ok (some (tag, rest))) :
    GoesWell registry nested memory file current field keyType valueKind state input
      ↔ (tag.number = 1 → tag.wireType = keyType.wireType → state.key.isSome →
            CanRead registry nested memory file current field (.scalar keyType) state rest)
        ∧ (tag.number = 2 → registryEnumDescriptor file registry current valueKind = none →
            state.value.isSome → tag.wireType = valueKind.wireType
              ∧ CanRead registry nested memory file current field valueKind state rest) := by
  have hne : input ≠ [] := by
    rintro rfl
    simp [nextTag] at hnext
  constructor
  · exact fun h => ⟨h.1.key tag rest hnext, h.1.value tag rest hnext⟩
  · rintro ⟨hkey, hvalue⟩
    refine ⟨⟨?_, ?_⟩, fun he => absurd he hne⟩
    · intro tag' rest' hnext'
      obtain ⟨rfl, rfl⟩ : tag = tag' ∧ rest = rest' := by simpa [hnext] using hnext'
      exact hkey
    · intro tag' rest' hnext'
      obtain ⟨rfl, rfl⟩ : tag = tag' ∧ rest = rest' := by simpa [hnext] using hnext'
      exact hvalue

/-- What a pass has to do with `GoesWell`: it keeps the invariant where it goes on, and where it
ends the function the handles are right exactly if it went well. -/
def SoundPass (registry : Option Registry) (memory : Nat → Bool) (file : FileDescriptor)
    (current : MessageDescriptor) (keyType : ScalarType) (valueKind : FieldKind) (well : Prop) :
    Loop.Step UInt8 OwnedEntryState EntryFailure → Prop
  | .next state _ => OwnershipInvariant registry file current valueKind state ∧ well
  | .done state rest =>
      (endEntry registry memory file current keyType valueKind (state, .ok rest)).ReleasedOnce
        ↔ well
  | .fail state e =>
      (endEntry registry memory file current keyType valueKind (state, .error e)).ReleasedOnce
        ↔ well

theorem soundPass_fail {well : Prop} {e : EntryFailure} (hwell : state.cleanUp.Settled [] ↔ well) :
    SoundPass registry memory file current keyType valueKind well (.fail state e) :=
  hwell

/-- Reading a key or a value into its variable, whose old handle the state has released. -/
theorem soundPass_decoded {store : OwnedEntryState → Slot → OwnedEntryState} {kind : FieldKind}
    {rest : Bytes} {held : Bool} (hlost : state.cleanUp.Settled [] ↔ held = false)
    (hstore : ∀ value, OwnershipInvariant registry file current valueKind
      (store { state with ledger := state.ledger.make, allocations := state.allocations + 1 }
        { value, handle := some state.ledger.made })) :
    SoundPass registry memory file current keyType valueKind
      (held → CanRead registry nested memory file current field kind state rest)
      (ownDecoded memory store state
        (decodeValue registry nested file current field kind rest)) := by
  have hfail {well : Prop} (hno : ¬ well) : state.cleanUp.Settled [] ↔ (held → well) := by
    rw [hlost]
    constructor
    · intro hfree hheld
      exact absurd hheld (by simp [hfree])
    · intro himp
      rw [← Bool.not_eq_true]
      exact fun hheld => hno (himp hheld)
  cases hd : decodeValue registry nested file current field kind rest with
  | error e =>
      refine soundPass_fail (hfail ?_)
      rintro ⟨⟨result, hresult⟩, _⟩
      rw [hd] at hresult
      simp at hresult
  | ok result =>
      obtain ⟨value, rest'⟩ := result
      cases hm : memory state.allocations with
      | false =>
          have hno : ¬ CanRead registry nested memory file current field kind state rest :=
            fun hread => absurd hread.2 (by simp [hm])
          simpa [ownDecoded, hm] using soundPass_fail (hfail hno)
      | true =>
          have hread : CanRead registry nested memory file current field kind state rest :=
            ⟨⟨_, hd⟩, hm⟩
          simp only [ownDecoded, hm, if_true]
          exact ⟨hstore value, fun _ => hread⟩

/-! ## The end of the function -/

theorem defaultSlot_handle {kind : FieldKind} {allocations : Nat} {slot : Slot}
    (h : defaultSlot registry memory file current kind allocations = .ok slot) :
    slot.handle = none := by
  unfold defaultSlot at h
  cases hd : defaultValue registry file current kind with
  | error e => simp [hd] at h
  | ok value =>
      simp only [hd] at h
      split at h
      · rw [← Except.ok.inj h]
      · simp at h

theorem entryKey_handles {key : Slot}
    (h : entryKey registry memory file current keyType state = .ok key) :
    handlesOf (some key) = handlesOf state.key := by
  unfold entryKey at h
  cases hkey : state.key with
  | some slot =>
      simp only [hkey, Except.ok.injEq] at h
      rw [h]
  | none =>
      simp only [hkey] at h
      simp [handlesOf, defaultSlot_handle h]

theorem entryValue_handles {value : Slot}
    (h : entryValue registry memory file current valueKind state = .ok value) :
    handlesOf (some value) = handlesOf state.value := by
  unfold entryValue at h
  cases hvalue : state.value with
  | some slot =>
      simp only [hvalue, Except.ok.injEq] at h
      rw [h]
  | none =>
      simp only [hvalue] at h
      split at h
      · rw [← Except.ok.inj h]
        rfl
      · simp [handlesOf, defaultSlot_handle h]

/-- A value can be missing at the end only if there is none to take in its place. -/
theorem entryValue_isOk :
    (∃ value, entryValue registry memory file current valueKind state = .ok value)
      ↔ (state.value = none → registryEnumDescriptor file registry current valueKind = none →
          ∃ slot, defaultSlot registry memory file current valueKind (state.allocations + 1)
            = .ok slot) := by
  unfold entryValue
  cases hvalue : state.value with
  | some slot => simp
  | none =>
      cases henum : registryEnumDescriptor file registry current valueKind with
      | some enumeration => simp
      | none => simp

theorem finishEntry_releasedOnce (h : OwnershipInvariant registry file current valueKind state) :
    (finishEntry registry memory file current keyType valueKind state).ReleasedOnce
      ↔ (state.key.isSome → state.value = none →
          registryEnumDescriptor file registry current valueKind = none →
            ∃ slot, defaultSlot registry memory file current valueKind (state.allocations + 1)
              = .ok slot) := by
  rw [← entryValue_isOk, finishEntry]
  cases hkey : entryKey registry memory file current keyType state with
  | error e =>
      -- the key is missing and has no default
      have hnone : state.key = none := by
        unfold entryKey at hkey
        cases hk : state.key with
        | none => rfl
        | some slot => simp [hk] at hkey
      have hholds := h.holds
      rw [hnone, handlesOf_none, List.nil_append] at hholds
      refine iff_of_true hholds.releaseAll (fun hsome => ?_)
      rw [hnone] at hsome
      simp at hsome
  | ok key =>
      simp only
      cases hvalue : entryValue registry memory file current valueKind state with
      | error e =>
          -- the key has left its variable, and nothing releases it
          have hno : ¬ ∃ value, Except.error (α := Slot) e = .ok value := by simp
          constructor
          · intro hs hsome
            obtain ⟨slot, hslot⟩ := Option.isSome_iff_exists.mp hsome
            obtain ⟨handle, hhandle⟩ := Option.isSome_iff_exists.mp (h.key slot hslot)
            have hmem : handle ∈ handlesOf state.key ++ handlesOf state.value := by
              rw [hslot, handlesOf_some hhandle]
              exact List.mem_cons_self
            exact absurd hs (h.holds.not_settled_lost hmem)
          · intro himp
            have hnone : state.key = none := by
              rw [← Option.not_isSome_iff_eq_none]
              exact fun hsome => hno (himp hsome)
            have hmissing : state.value = none := by
              unfold entryValue at hvalue
              cases hv : state.value with
              | none => rfl
              | some slot => simp [hv] at hvalue
            have hholds := h.holds
            rw [hnone, hmissing] at hholds
            exact hholds.settled
      | ok value =>
          simp only
          have hheld : handlesOf (some key) ++ handlesOf (some value)
              = handlesOf state.key ++ handlesOf state.value := by
            rw [entryKey_handles hkey, entryValue_handles hvalue]
          have hholds := h.holds
          rw [← hheld] at hholds
          have hok : ∃ other, (Except.ok value : Except EntryFailure Slot) = .ok other :=
            ⟨value, rfl⟩
          split
          · exact iff_of_true hholds.settled (fun _ => hok)
          · exact iff_of_true hholds.release.releaseAll (fun _ => hok)

/-! ## The loop -/

/-- A pass over a value. -/
theorem soundPass_valueTag (h : OwnershipInvariant registry file current valueKind state) {tag : Tag}
    {rest : Bytes} :
    SoundPass registry memory file current keyType valueKind
      (registryEnumDescriptor file registry current valueKind = none → state.value.isSome →
        tag.wireType = valueKind.wireType
          ∧ CanRead registry nested memory file current field valueKind state rest)
      (ownedValuePass registry nested memory file current field valueKind tag state rest) := by
  have hfree (henum : registryEnumDescriptor file registry current valueKind ≠ none) :
      (OwnedEntryState.cleanUp
        { state with ledger := state.ledger.release (handlesOf state.value) }).Settled [] :=
    h.cleanUp_value.mpr (h.handlesOf_value henum)
  rw [ownedValuePass]
  cases henum : registryEnumDescriptor file registry current valueKind with
  | some enumeration =>
      have hne : registryEnumDescriptor file registry current valueKind ≠ none := by simp [henum]
      have hnil := h.handlesOf_value hne
      simp only [reduceCtorEq, false_imp_iff]
      split
      · exact soundPass_fail (iff_of_true (hfree hne) trivial)
      · cases readInt32 rest with
        | error e => exact soundPass_fail (iff_of_true (hfree hne) trivial)
        | ok result =>
            simp only
            split
            · exact iff_of_true (hfree hne) trivial
            · have hholds := h.holds
              refine ⟨⟨?_, h.key, ?_, h.declared⟩, trivial⟩
              · rw [hnil] at hholds ⊢
                exact hholds
              · rintro slot hslot
                rw [← Option.some.inj hslot]
                simp [henum]
  | none =>
      simp only [true_imp_iff]
      have hlost := h.cleanUp_value.trans (h.handlesOf_value_iff henum)
      split
      · next hwire =>
        refine soundPass_fail (hlost.trans ?_)
        constructor
        · intro hfree hheld
          exact absurd hheld (by simp [hfree])
        · intro himp
          rw [← Bool.not_eq_true]
          exact fun hheld => hwire (himp hheld).1
      · next hwire =>
        simp only [not_not.mp hwire, true_and]
        refine soundPass_decoded hlost (fun value => ⟨?_, h.key, ?_, h.declared⟩)
        · exact (h.holds.perm List.perm_append_comm).release.make.perm
            (List.perm_append_singleton _ _).symm
        · rintro slot hslot
          rw [← Option.some.inj hslot]
          simp [henum]

/-- One pass of the loop. -/
theorem ownedEntryPass_sound (h : OwnershipInvariant registry file current valueKind state) :
    SoundPass registry memory file current keyType valueKind
      (GoesWell registry nested memory file current field keyType valueKind state input)
      (ownedEntryPass registry nested memory levels file current field keyType valueKind state
        input) := by
  rw [ownedEntryPass]
  cases hnext : nextTag input with
  | error e =>
      refine soundPass_fail (iff_of_true h.cleanUp ⟨⟨?_, ?_⟩, ?_⟩)
      · simp [hnext]
      · simp [hnext]
      · rintro rfl
        simp [nextTag] at hnext
  | ok next =>
      cases next with
      | none =>
          have hempty := nextTag_none hnext
          show (endEntry registry memory file current keyType valueKind (state, .ok input)).ReleasedOnce
            ↔ _
          rw [endEntry, h.declared, if_neg (by simp), finishEntry_releasedOnce h]
          constructor
          · intro hdefault
            refine ⟨⟨?_, ?_⟩, fun _ => hdefault⟩
            · simp [hnext]
            · simp [hnext]
          · exact fun hwell => hwell.2 hempty
      | some pair =>
          obtain ⟨tag, rest⟩ := pair
          simp only [goesWell_of_tag hnext]
          by_cases hone : tag.number = 1
          · have htwo : tag.number ≠ 2 := by omega
            simp only [hone, if_true, true_imp_iff, OfNat.one_ne_ofNat, false_imp_iff, and_true]
            by_cases hwire : tag.wireType = keyType.wireType
            · rw [if_neg (not_not.mpr hwire)]
              simp only [hwire, true_imp_iff]
              refine soundPass_decoded h.cleanUp_key (fun value => ⟨?_, ?_, h.value, h.declared⟩)
              · exact h.holds.release.make
              · rintro slot hslot
                rw [← Option.some.inj hslot]
                rfl
            · rw [if_pos hwire]
              exact soundPass_fail (iff_of_true h.cleanUp (fun hc => absurd hc hwire))
          · rw [if_neg hone]
            by_cases htwo : tag.number = 2
            · simp only [htwo, if_true, true_imp_iff, OfNat.ofNat_ne_one, false_imp_iff, true_and]
              exact soundPass_valueTag h
            · rw [if_neg htwo]
              have hwell : (tag.number = 1 → tag.wireType = keyType.wireType → state.key.isSome →
                  CanRead registry nested memory file current field (.scalar keyType) state rest)
                  ∧ (tag.number = 2 → registryEnumDescriptor file registry current valueKind = none →
                    state.value.isSome → tag.wireType = valueKind.wireType
                      ∧ CanRead registry nested memory file current field valueKind state rest) :=
                ⟨fun hc => absurd hc hone, fun hc => absurd hc htwo⟩
              cases skipValue levels tag rest with
              | error e => exact soundPass_fail (iff_of_true h.cleanUp hwell)
              | ok rest' => exact ⟨h, hwell⟩

theorem ownershipInvariant_start : OwnershipInvariant registry file current valueKind {} where
  holds := Ledger.holds_empty
  key := by simp
  value := by simp
  declared := rfl

theorem ownDecoded_next {store : OwnedEntryState → Slot → OwnedEntryState} {kind : FieldKind}
    {bytes rest : Bytes} {state' : OwnedEntryState}
    (h : ownDecoded memory store state (decodeValue registry nested file current field kind bytes)
      = .next state' rest) : rest.length ≤ bytes.length := by
  cases hd : decodeValue registry nested file current field kind bytes with
  | error e => simp [ownDecoded, hd] at h
  | ok result =>
      obtain ⟨value, rest'⟩ := result
      simp only [ownDecoded, hd] at h
      split at h
      · simp only [Loop.Step.next.injEq] at h
        rw [← h.2]
        exact (decodeValue_bounded file current field kind).shrinks _ _ _ hd
      · simp at h

theorem ownedValuePass_next {tag : Tag} {bytes rest : Bytes} {state' : OwnedEntryState}
    (h : ownedValuePass registry nested memory file current field valueKind tag state bytes
      = .next state' rest) : rest.length ≤ bytes.length := by
  rw [ownedValuePass] at h
  cases henum : registryEnumDescriptor file registry current valueKind with
  | none =>
      simp only [henum] at h
      split at h
      · simp at h
      · exact ownDecoded_next h
  | some enumeration =>
      simp only [henum] at h
      split at h
      · simp at h
      · cases hread : readInt32 bytes with
        | error e => simp [hread] at h
        | ok result =>
            simp only [hread] at h
            split at h
            · simp at h
            · simp only [Loop.Step.next.injEq] at h
              rw [← h.2]
              exact readInt32_bounded.shrinks _ _ _ hread

/-- Passes that go on have read a tag. -/
theorem ownedEntryPass_consuming :
    Loop.Consuming (ownedEntryPass registry nested memory levels file current field keyType
      valueKind) := by
  intro state input state' rest h
  rw [ownedEntryPass] at h
  cases hnext : nextTag input with
  | error e => simp [hnext] at h
  | ok next =>
      cases next with
      | none => simp [hnext] at h
      | some pair =>
          obtain ⟨tag, bytes⟩ := pair
          have hlt := nextTag_length hnext
          simp only [hnext] at h
          suffices hle : rest.length ≤ bytes.length by omega
          split at h
          · split at h
            · simp at h
            · exact ownDecoded_next h
          · split at h
            · exact ownedValuePass_next h
            · cases hskip : skipValue levels tag bytes with
              | error e => simp [hskip] at h
              | ok bytes' =>
                  simp only [hskip, Loop.Step.next.injEq] at h
                  rw [← h.2]
                  exact skipValue_shrinks levels tag _ _ hskip

/-- When `decodeMapEntryValue` releases each value that it has decoded exactly once, apart from
those in the entry it returns: exactly when no pass over a second key or value fails to read it,
and an entry with a key but no value has a default value to take. -/
theorem decodeMapEntryOwned_releasedOnce_iff (registry : Option Registry)
    (nested : Option StreamDecoder) (memory : Nat → Bool) (levels : Nat) (file : FileDescriptor)
    (current : MessageDescriptor) (field : FieldDescriptor) (keyType : ScalarType)
    (valueKind : FieldKind) (payload : Bytes) :
    (decodeMapEntryOwned registry nested memory levels file current field keyType valueKind
        payload).ReleasedOnce
      ↔ ∀ state input,
          Loop.Reaches (ownedEntryPass registry nested memory levels file current field keyType
            valueKind) {} payload state input →
          ReadsAgain registry nested memory file current field keyType valueKind state input
            ∧ HasDefault registry memory file current valueKind state input := by
  have key := Loop.run_induction (@ownedEntryPass_consuming registry nested memory levels file
      current field keyType valueKind)
    (fun state input result => OwnershipInvariant registry file current valueKind state →
      ((endEntry registry memory file current keyType valueKind result).ReleasedOnce
        ↔ ∀ t ys, Loop.Reaches (ownedEntryPass registry nested memory levels file current field
            keyType valueKind) state input t ys →
          GoesWell registry nested memory file current field keyType valueKind t ys))
    ?_ ?_ ?_ {} payload ownershipInvariant_start
  · exact key
  · intro state input state' rest hpass h
    have hsound := @ownedEntryPass_sound registry nested memory levels file current field keyType
      valueKind state input h
    rw [hpass] at hsound
    rw [Loop.reaches_of_last (by simp [hpass])]
    exact hsound
  · intro state input state' e hpass h
    have hsound := @ownedEntryPass_sound registry nested memory levels file current field keyType
      valueKind state input h
    rw [hpass] at hsound
    rw [Loop.reaches_of_last (by simp [hpass])]
    exact hsound
  · intro state input state' rest hpass ih h
    have hsound := @ownedEntryPass_sound registry nested memory levels file current field keyType
      valueKind state input h
    rw [hpass] at hsound
    obtain ⟨hnext, hwell⟩ := hsound
    rw [Loop.reaches_of_next hpass, ih hnext]
    exact ⟨fun hall => ⟨hwell, hall⟩, fun hall => hall.2⟩

end

/-! ## Entries that go wrong -/

instance (outcome : EntryOutcome) : Decidable outcome.ReleasedOnce :=
  inferInstanceAs (Decidable (outcome.ledger.Settled _))

/-- A field `map<string, Missing>` whose value type is not declared. -/
def missingField : FieldDescriptor :=
  { name := ascii "missing", number := 1, kind := .map .string (.message (ascii "Missing")) }

def missingMessage : MessageDescriptor := { name := ascii "Host", fields := [missingField] }

/-- A second key that is cut off: the first one is released twice. An entry with a key alone, and a
value type that cannot be resolved: the key is never released. -/
theorem exists_not_releasedOnce :
    ¬ (decodeMapEntryOwned none none (fun _ => true) recursionLimit {} missingMessage missingField
        .string (.message (ascii "Missing")) [0x0a, 0x01, 0x61, 0x0a, 0x05]).ReleasedOnce
      ∧ ¬ (decodeMapEntryOwned none none (fun _ => true) recursionLimit {} missingMessage
          missingField .string (.message (ascii "Missing")) [0x0a, 0x01, 0x61]).ReleasedOnce := by
  decide

/-! ## The values without their handles -/

def EntryFailure.erase : EntryFailure → Error
  | .decode e => e
  | .outOfMemory => .overflow

def OwnedEntryState.erase (state : OwnedEntryState) : MapEntryState :=
  { key := state.key.map Slot.value, value := state.value.map Slot.value,
    undeclared := state.undeclared }

def EntryOutcome.erase (outcome : EntryOutcome) : Except Error (Option Value) :=
  (outcome.result.mapError EntryFailure.erase).map
    (fun entry => entry.map (fun pair => .mapEntry pair.1.value pair.2.value))

section

variable {registry : Option Registry} {nested : Option StreamDecoder} {levels : Nat}
  {file : FileDescriptor} {current : MessageDescriptor} {field : FieldDescriptor}
  {keyType : ScalarType} {valueKind : FieldKind}

theorem ownedValuePass_erase (tag : Tag) (state : OwnedEntryState) (rest : Bytes) :
    (ownedValuePass registry nested (fun _ => true) file current field valueKind tag state
        rest).view OwnedEntryState.erase EntryFailure.erase
      = match registryEnumDescriptor file registry current valueKind with
        | some enumeration =>
            if tag.wireType ≠ .varint then .fail state.erase .invalidWireType
            else match readInt32 rest with
              | .error e => .fail state.erase e
              | .ok (v, rest) =>
                  if enumIsClosed file registry enumeration && !enumHasNumber enumeration v then
                    .done { state.erase with undeclared := true } rest
                  else .next { state.erase with value := some (.enumeration v) } rest
        | none =>
            if tag.wireType ≠ valueKind.wireType then .fail state.erase .invalidWireType
            else match decodeValue registry nested file current field valueKind rest with
              | .error e => .fail state.erase e
              | .ok (v, rest) => .next { state.erase with value := some v } rest := by
  rw [ownedValuePass]
  cases registryEnumDescriptor file registry current valueKind with
  | none =>
      simp only
      split
      · rfl
      · cases decodeValue registry nested file current field valueKind rest with
        | error e => rfl
        | ok result => rfl
  | some enumeration =>
      simp only
      split
      · rfl
      · cases readInt32 rest with
        | error e => rfl
        | ok result =>
            simp only
            split <;> rfl

theorem ownedEntryPass_erase (state : OwnedEntryState) (input : Bytes) :
    mapEntryPass registry nested levels file current field keyType valueKind state.erase input
      = (ownedEntryPass registry nested (fun _ => true) levels file current field keyType valueKind
          state input).view OwnedEntryState.erase EntryFailure.erase := by
  rw [mapEntryPass, ownedEntryPass]
  cases nextTag input with
  | error e => rfl
  | ok next =>
      cases next with
      | none => rfl
      | some pair =>
          simp only
          split
          · split
            · rfl
            · cases decodeValue registry nested file current field (.scalar keyType) pair.2 with
              | error e => rfl
              | ok result => rfl
          · split
            · exact (ownedValuePass_erase _ _ _).symm
            · cases skipValue levels pair.1 pair.2 with
              | error e => rfl
              | ok rest => rfl

theorem defaultSlot_erase (kind : FieldKind) (allocations : Nat) :
    ((defaultSlot registry (fun _ => true) file current kind allocations).mapError
        EntryFailure.erase).map Slot.value = defaultValue registry file current kind := by
  unfold defaultSlot
  cases defaultValue registry file current kind <;> rfl

theorem entryKey_erase (state : OwnedEntryState) :
    ((entryKey registry (fun _ => true) file current keyType state).mapError
        EntryFailure.erase).map Slot.value
      = (state.key.map Slot.value).elim (defaultValue registry file current (.scalar keyType))
          .ok := by
  unfold entryKey
  cases state.key with
  | none => exact defaultSlot_erase _ _
  | some slot => rfl

theorem entryValue_erase (state : OwnedEntryState) :
    ((entryValue registry (fun _ => true) file current valueKind state).mapError
        EntryFailure.erase).map Slot.value
      = (state.value.map Slot.value).elim
          (if (registryEnumDescriptor file registry current valueKind).isSome then
            .ok (.enumeration 0) else defaultValue registry file current valueKind) .ok := by
  unfold entryValue
  cases state.value with
  | none =>
      simp only [Option.map_none, Option.elim_none]
      split
      · rfl
      · exact defaultSlot_erase _ _
  | some slot => rfl

theorem finishEntry_erase (state : OwnedEntryState) :
    (finishEntry registry (fun _ => true) file current keyType valueKind state).erase
      = (mapEntryOf registry file current keyType valueKind state.erase).map some := by
  have hkey := @entryKey_erase registry file current keyType state
  have hvalue := @entryValue_erase registry file current valueKind state
  have hof : mapEntryOf registry file current keyType valueKind state.erase
      = ((state.key.map Slot.value).elim (defaultValue registry file current (.scalar keyType))
          .ok).bind (fun key => ((state.value.map Slot.value).elim
            (if (registryEnumDescriptor file registry current valueKind).isSome then
              .ok (.enumeration 0) else defaultValue registry file current valueKind) .ok).bind
              (fun value => .ok (.mapEntry key value))) := by
    rw [mapEntryOf, OwnedEntryState.erase]
    cases (registryEnumDescriptor file registry current valueKind).isSome <;>
      cases state.key <;> cases state.value <;> rfl
  rw [hof, ← hkey, ← hvalue, finishEntry]
  cases entryKey registry (fun _ => true) file current keyType state with
  | error e => rfl
  | ok key =>
      simp only
      cases entryValue registry (fun _ => true) file current valueKind state with
      | error e => rfl
      | ok value => rfl

/-- Where memory suffices, the function with its handles computes what `decodeMapEntryValue`
does. -/
theorem decodeMapEntryOwned_erase (payload : Bytes) :
    (decodeMapEntryOwned registry nested (fun _ => true) levels file current field keyType valueKind
        payload).erase
      = decodeMapEntryValue registry nested levels file current field keyType valueKind
          payload := by
  have hrun := Loop.run_view (@ownedEntryPass_erase registry nested levels file current field
    keyType valueKind) {} payload
  rw [decodeMapEntryValue, decodeMapEntryOwned]
  rw [show ({} : MapEntryState) = OwnedEntryState.erase {} from rfl, hrun]
  cases Loop.run (ownedEntryPass registry nested (fun _ => true) levels file current field keyType
    valueKind) {} payload with
  | mk state result =>
      cases result with
      | error e => rfl
      | ok rest =>
          rw [endEntry]
          show _ = if state.undeclared then _ else _
          cases hu : state.undeclared with
          | true => rfl
          | false =>
              simp only [Bool.false_eq_true, if_false]
              rw [finishEntry_erase]
              cases mapEntryOf registry file current keyType valueKind state.erase <;> rfl

end

end Pbz
