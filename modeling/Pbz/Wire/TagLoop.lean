import Pbz.Wire.Reader

set_option autoImplicit false

/-! # Decoders that switch over field numbers

A decoder reads tag after tag and looks for the case of its number. The value of a number without a
case is skipped. The fields of a message may be written one after the other: what the loop does on
each of them is a rule `Passes`.
-/

namespace Pbz

namespace TagLoop

/-- The cases of the `switch` over the number of a tag. A case reads the value and changes the state
of the decoder. -/
abbrev Cases (σ ε : Type) := σ → Tag → Bytes → Option (Except ε (σ × Bytes))

variable {σ ε : Type} {lift : Error → ε} {cases : Cases σ ε}

def expectWireType (tag : Tag) (expected : WireType) : Except Error Unit :=
  if tag.wireType != expected then .error .invalidWireType else .ok ()

/-- A case that expects a wire type, reads a value and stores it. -/
def readCase {α : Type} (lift : Error → ε) (expected : WireType) (read : Bytes → ReadResult α)
    (store : α → Except ε σ) (tag : Tag) (input : Bytes) : Except ε (σ × Bytes) := do
  (expectWireType tag expected).mapError lift
  let (value, rest) ← (read input).mapError lift
  let state ← store value
  return (state, rest)

def pass (lift : Error → ε) (cases : Cases σ ε) (state : σ) (input : Bytes) :
    Loop.Step UInt8 σ ε :=
  match nextTag input with
  | .error e => .fail state (lift e)
  | .ok none => .done state []
  | .ok (some (tag, rest)) =>
      match cases state tag rest with
      | some (.error e) => .fail state e
      | some (.ok (state, rest)) => .next state rest
      | none =>
          match skipValue recursionLimit tag rest with
          | .error e => .fail state (lift e)
          | .ok rest => .next state rest

def decode (lift : Error → ε) (cases : Cases σ ε) (init : σ) (bytes : Bytes) : Except ε σ :=
  match Loop.run (pass lift cases) init bytes with
  | (_, .error e) => .error e
  | (state, .ok _) => .ok state

/-- No case goes back in the input. -/
def Shrinking (cases : Cases σ ε) : Prop :=
  ∀ state tag rest state' rest', cases state tag rest = some (.ok (state', rest')) →
    rest'.length ≤ rest.length

section

variable {α : Type} {read : Bytes → ReadResult α} {store : α → Except ε σ} {expected : WireType}

/-- A value that is read and stored. -/
theorem readCase_eq {number : Nat} {input rest : Bytes} {value : α} {state : σ}
    (hread : read input = .ok (value, rest)) (hstore : store value = .ok state) :
    readCase lift expected read store { number, wireType := expected } input = .ok (state, rest) := by
  have hexpect : expectWireType { number, wireType := expected } expected = .ok () :=
    if_neg (by simp)
  simp only [readCase, hexpect, hread, hstore, Except.mapError, Bind.bind, Except.bind]
  rfl

/-- Only what is read is stored. -/
theorem readCase_congr {other : α → Except ε σ} {input : Bytes}
    (h : ∀ value rest, read input = .ok (value, rest) → store value = other value) (tag : Tag) :
    readCase lift expected read store tag input = readCase lift expected read other tag input := by
  cases hread : read input with
  | error e => simp only [readCase, hread, Except.mapError, Bind.bind, Except.bind]
  | ok result =>
      obtain ⟨value, rest⟩ := result
      simp only [readCase, hread, h value rest hread, Except.mapError, Bind.bind, Except.bind]

theorem of_readCase {tag : Tag} {input rest : Bytes} {state : σ}
    (h : readCase lift expected read store tag input = .ok (state, rest)) :
    ∃ value, read input = .ok (value, rest) ∧ store value = .ok state := by
  rw [readCase] at h
  cases hexpect : expectWireType tag expected with
  | error e =>
      rw [hexpect] at h
      cases h
  | ok checked =>
      cases hread : read input with
      | error e =>
          rw [hexpect, hread] at h
          cases h
      | ok result =>
          obtain ⟨value, more⟩ := result
          cases hstore : store value with
          | error e =>
              simp only [hexpect, hread, hstore, Except.mapError, Bind.bind, Except.bind] at h
              cases h
          | ok stored =>
              simp only [hexpect, hread, hstore, Except.mapError, Bind.bind, Except.bind] at h
              cases h
              exact ⟨value, rfl, hstore⟩

end

/-- What a pass does that goes on: it reads a value that has a case, or skips one that has none. -/
theorem pass_next {state state' : σ} {input rest' : Bytes}
    (h : pass lift cases state input = .next state' rest') :
    ∃ tag rest, nextTag input = .ok (some (tag, rest))
      ∧ (cases state tag rest = some (.ok (state', rest'))
        ∨ (cases state tag rest = none ∧ skipValue recursionLimit tag rest = .ok rest'
          ∧ state' = state)) := by
  rw [pass] at h
  split at h
  · cases h
  · cases h
  · next tag rest htag =>
    refine ⟨tag, rest, htag, ?_⟩
    split at h
    · cases h
    · next hcase =>
      cases h
      exact .inl hcase
    · next hcase =>
      split at h
      · cases h
      · next hskip =>
        cases h
        exact .inr ⟨hcase, hskip, rfl⟩

theorem pass_consuming (hcases : Shrinking cases) : Loop.Consuming (pass lift cases) := by
  intro state input state' rest' h
  obtain ⟨tag, rest, htag, hcase | ⟨-, hskip, -⟩⟩ := pass_next h
  · exact Nat.lt_of_le_of_lt (hcases _ _ _ _ _ hcase) (nextTag_length htag)
  · exact Nat.lt_of_le_of_lt (skipValue_shrinks _ _ _ _ hskip) (nextTag_length htag)

/-! ## Written fields -/

/-- Over these bytes, whatever follows, the loop goes from the one state to the other. -/
def Passes (lift : Error → ε) (cases : Cases σ ε) (state : σ) (bytes : Bytes) (state' : σ) : Prop :=
  ∀ rest, Loop.run (pass lift cases) state (bytes ++ rest) = Loop.run (pass lift cases) state' rest

theorem Passes.nil (state : σ) : Passes lift cases state [] state := fun _ => rfl

theorem Passes.append {state middle state' : σ} {bytes bytes' : Bytes}
    (hfirst : Passes lift cases state bytes middle)
    (hsecond : Passes lift cases middle bytes' state') :
    Passes lift cases state (bytes ++ bytes') state' := by
  intro rest
  rw [List.append_assoc, hfirst, hsecond]

/-- A field whose value is read by the case of its number. -/
theorem Passes.field (hcases : Shrinking cases) {state state' : σ} {number : Nat}
    {wireType : WireType} {payload : Bytes} (hnumber : ValidNumber number)
    (hread : ∀ rest,
      cases state { number, wireType } (payload ++ rest) = some (.ok (state', rest))) :
    Passes lift cases state (writeVarint (number * 8 + wireType.toNat) ++ payload) state' := by
  intro rest
  refine Loop.run_of_next (pass_consuming hcases) ?_
  rw [List.append_assoc, pass, nextTag_tag hnumber]
  simp only [hread]

/-- A field that is read and stored. -/
theorem Passes.stored (hcases : Shrinking cases) {α : Type} {read : Bytes → ReadResult α}
    {store : α → Except ε σ} {state state' : σ} {number : Nat} {wireType : WireType}
    {payload : Bytes} {value : α} (hnumber : ValidNumber number)
    (hcase : ∀ input, cases state { number, wireType } input
      = some (readCase lift wireType read store { number, wireType } input))
    (hread : ∀ rest, read (payload ++ rest) = .ok (value, rest)) (hstore : store value = .ok state') :
    Passes lift cases state (writeVarint (number * 8 + wireType.toNat) ++ payload) state' := by
  refine Passes.field hcases hnumber fun rest => ?_
  rw [hcase, readCase_eq (hread rest) hstore]

/-- The loop ends in the state that it has come to. -/
theorem Passes.decode {init state : σ} {bytes : Bytes} (h : Passes lift cases init bytes state) :
    decode lift cases init bytes = .ok state := by
  have hend : Loop.run (pass lift cases) state [] = (state, .ok []) :=
    Loop.run_of_done (by rw [pass, nextTag_nil])
  have hrun := h []
  rw [List.append_nil, hend] at hrun
  rw [TagLoop.decode, hrun]

/-! ## Rules -/

/-- What the cases keep is true of what is decoded. -/
theorem decode_invariant (I : σ → Prop)
    (hcases : ∀ state tag rest state' rest', I state →
      cases state tag rest = some (.ok (state', rest')) → I state')
    {init state : σ} {bytes : Bytes} (hinit : I init) (h : decode lift cases init bytes = .ok state) :
    I state := by
  have hpass : ∀ state input, I state → I (pass lift cases state input).state := by
    intro state input hstate
    cases hp : pass lift cases state input with
    | done state' rest =>
        rw [pass] at hp
        split at hp
        · cases hp
        · cases hp
          exact hstate
        · split at hp
          · cases hp
          · cases hp
          · split at hp <;> cases hp
    | next state' rest =>
        obtain ⟨tag, rest', -, hcase | ⟨-, -, rfl⟩⟩ := pass_next hp
        · exact hcases _ _ _ _ _ hstate hcase
        · exact hstate
    | fail state' e =>
        rw [pass] at hp
        split at hp
        · cases hp
          exact hstate
        · cases hp
        · split at hp
          · cases hp
            exact hstate
          · cases hp
          · split at hp <;> cases hp
            exact hstate
  have hrun := Loop.run_invariant I hpass init bytes hinit
  rw [decode] at h
  split at h
  · cases h
  · next state' rest hstate =>
    cases h
    rw [hstate] at hrun
    exact hrun

/-- Decoders whose cases agree on what stands behind a tag agree. -/
theorem decode_congr {others : Cases σ ε} {bytes : Bytes} (hcases : Shrinking cases)
    (h : ∀ state tag rest, rest.length < bytes.length →
      cases state tag rest = others state tag rest) (init : σ) :
    decode lift cases init bytes = decode lift others init bytes := by
  have hpass : ∀ state input, input.length ≤ bytes.length →
      pass lift cases state input = pass lift others state input := by
    intro state input hle
    rw [pass, pass]
    cases htag : nextTag input with
    | error e => rfl
    | ok read =>
        cases read with
        | none => rfl
        | some field =>
            obtain ⟨tag, rest⟩ := field
            have hlt := Nat.lt_of_lt_of_le (nextTag_length htag) hle
            simp only [h state tag rest hlt]
  rw [decode, decode, Loop.run_congr (pass_consuming hcases) hpass init bytes (Nat.le_refl _)]

end TagLoop

end Pbz
