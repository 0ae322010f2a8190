import Pbz.Codegen.KnownReuseRun

set_option autoImplicit false

/-! # Agreement of the hot path with `decode`

The claim that `decodeKnownReuse` makes for itself: into buffers of the lengths that `decode`
produces it writes what `decode` does, and nothing outside of them. It holds where the surplus that
the hot path counts has room behind the fields it knows, and a panel of lights shows an input
without that room.
-/

namespace Pbz

namespace Codegen

/-- The members of the struct of a message are equal. -/
structure SameMembers (file : FileDescriptor) (message : MessageDescriptor)
    (a b : EmittedStruct) : Prop where
  value : ∀ field ∈ message.fields, field.cardinality ≠ .repeated →
    a.value field.number = b.value field.number
  has : ∀ field ∈ message.fields, hasPresence file field = true →
    a.has field.number = b.has field.number
  items : ∀ field ∈ message.fields, field.cardinality = .repeated →
    a.items field.number = b.items field.number
  unknownFields : a.unknownFields = b.unknownFields

/-- `decodeKnownReuse` does not index outside of a buffer, and a struct that it leaves has the
members that `decode` has produced. -/
def ReusesLike (file : FileDescriptor) (message : MessageDescriptor)
    (fieldDefault : FieldDescriptor → Value) (self : EmittedStruct) (bytes : Bytes)
    (decoded : EmittedStruct) : Prop :=
  decodeKnownReuse file message fieldDefault self bytes ≠ .error .outOfBounds ∧
    ∀ reused, decodeKnownReuse file message fieldDefault self bytes = .ok reused →
      SameMembers file message reused decoded

/-- The surplus of no field is greater than the number of its elements behind the fields that the
hot path knows, and if there is nothing behind them, `decode` has kept no packed payload. -/
def BuffersSuffice (otherField : OtherField) (file : FileDescriptor) (message : MessageDescriptor)
    (bytes : Bytes) : Prop :=
  ∃ s rest, Loop.run (surplusPass file message) {} bytes = (s, .ok rest) ∧
    ¬ Overruns otherField file message s rest ∧ (rest = [] → s.kept = false)

section

variable {fieldDefault : FieldDescriptor → Value} {otherField : OtherField}
  {file : FileDescriptor} {message : MessageDescriptor} {self decoded : EmittedStruct}
  {bytes : Bytes}

theorem alike_init (hflat : FlatMessage file message) (self : EmittedStruct) :
    Alike file message (.init fieldDefault message) (hotInit file message fieldDefault self)
      {} where
  value := by
    intro field hf hr
    simp only [hotInit, EmittedStruct.init, hflat.findFieldByNumber hf]
    rw [if_neg (by simpa using hr)]
    rfl
  has := by
    intro field hf hp
    simp only [hotInit, EmittedStruct.init, hflat.findFieldByNumber hf]
    rw [if_pos hp]
  used := fun _ _ _ => rfl
  contents := fun _ _ _ _ => rfl
  fixed := fun _ _ _ => rfl
  kept := iff_of_true rfl rfl

theorem run_of_decode
    (h : decode fieldDefault otherField file message bytes = .ok decoded) :
    ∃ end', Loop.run (decodePass otherField file message) (.init fieldDefault message) bytes
      = (decoded, .ok end') := by
  unfold decode at h
  cases hrun : Loop.run (decodePass otherField file message) (.init fieldDefault message)
      bytes with
  | mk found result =>
      rw [hrun] at h
      cases result with
      | error e => cases h
      | ok end' => cases h; exact ⟨end', rfl⟩

/-- The hot path agrees with `decode` exactly where the buffers suffice for what it counts. -/
theorem decodeKnownReuse_agrees_iff (hreuse : ReuseMessage file message)
    (hdecode : decode fieldDefault otherField file message bytes = .ok decoded)
    (hsizes : ∀ field ∈ message.fields, field.cardinality = .repeated →
      (self.items field.number).length = (decoded.items field.number).length) :
    ReusesLike file message fieldDefault self bytes decoded
      ↔ BuffersSuffice otherField file message bytes := by
  obtain ⟨end', hrun⟩ := run_of_decode hdecode
  obtain ⟨s, rest, hsurplus, -, -⟩ := surplus_run hreuse hrun {}
  have hsuffice : BuffersSuffice otherField file message bytes ↔
      ¬ Overruns otherField file message s rest ∧ (rest = [] → s.kept = false) := by
    constructor
    · rintro ⟨s', rest', hsurplus', hspec⟩
      rw [hsurplus] at hsurplus'
      cases hsurplus'
      exact hspec
    · exact fun hspec => ⟨s, rest, hsurplus, hspec⟩
  have hend := hot_run hreuse hrun (alike_init hreuse.flatMessage self) hsizes hsurplus
  rw [hsuffice]
  unfold ReusesLike decodeKnownReuse
  generalize Loop.run (hotPass file message) (hotInit file message fieldDefault self) bytes = result
    at hend
  cases hend with
  | outside overruns => simp [overruns]
  | stopped inside behind => simp [inside, behind]
  | @finished hot inside alike behind sizes =>
      subst behind
      have hzero : ∀ field ∈ message.fields, field.cardinality = .repeated →
          s.count field.number = 0 := by
        intro field hf hr
        by_contra hne
        exact inside ⟨field, hf, hr, by rw [elements_nil]; omega⟩
      have hused : ∀ field ∈ message.fields, field.cardinality = .repeated →
          (hot.buffer field.number).used = (hot.buffer field.number).size := by
        intro field hf hr
        rw [alike.used field hf hr, hzero field hf hr, sizes field hf hr, Nat.add_zero]
      have hfull : message.fields.all (fun field => field.cardinality != .repeated
          || (hot.buffer field.number).used == (hot.buffer field.number).size) = true := by
        refine List.all_eq_true.mpr fun field hf => ?_
        by_cases hr : field.cardinality = .repeated
        · simp [hused field hf hr]
        · simp [hr]
      simp only [hfull, if_true, ne_eq, reduceCtorEq, not_false_eq_true, true_and,
        Except.ok.injEq, forall_eq']
      rw [← alike.kept]
      constructor
      · exact fun hsame => ⟨inside, fun _ => hsame.unknownFields.symm⟩
      · rintro ⟨-, hunknown⟩
        exact
          { value := alike.value
            has := alike.has
            items := by
              intro field hf hr
              show (hot.buffer field.number).cells = _
              rw [FilledBuffer.cells_of_full (hused field hf hr),
                alike.contents field hf hr (hzero field hf hr)]
            unknownFields := (hunknown trivial).symm }

/-- Without repeated `bool` fields, and with no enum whose packed payloads `decode` keeps, there is
no surplus. -/
theorem surplus_of_regular (h : ∀ field ∈ message.fields, field.kind ≠ .scalar .bool
      ∧ keepsPacked file message field = false) (input : Bytes) :
    (∀ number, (Loop.run (surplusPass file message) {} input).1.count number = 0)
      ∧ (Loop.run (surplusPass file message) {} input).1.kept = false := by
  refine Loop.run_invariant
    (fun s : Surplus => (∀ number, s.count number = 0) ∧ s.kept = false) ?_ {} input
    ⟨fun _ => rfl, rfl⟩
  rintro s xs hs
  have hsame : (surplusPass file message s xs).state.count = s.count
      ∧ (surplusPass file message s xs).state.kept = s.kept := by
    unfold surplusPass
    split
    · exact ⟨rfl, rfl⟩
    · cases readRawTag xs with
      | error e => exact ⟨rfl, rfl⟩
      | ok pair =>
          simp only
          cases hswitch : switchCase message hotCase pair.1 with
          | none => exact ⟨rfl, rfl⟩
          | some found =>
              obtain ⟨field, isPacked⟩ := found
              obtain ⟨hbool, hkeeps⟩ := h field (switchCase_some hswitch).1
              have hnone : ∀ payload, packedSurplus file message field payload = 0 := by
                intro payload
                unfold packedSurplus
                cases hkind : field.kind with
                | scalar scalar =>
                    cases scalar with
                    | bool => exact absurd hkind hbool
                    | _ => rfl
                | enumeration name => simp [hkeeps]
                | _ => rfl
              simp only [surplusField]
              split
              · cases readBytes pair.2 with
                | error e => exact ⟨rfl, rfl⟩
                | ok read =>
                    simp only [hnone, hkeeps, stopsInside, Bool.false_and, Bool.false_eq_true,
                      if_false, Loop.Step.state, Surplus.add, Nat.add_zero,
                      Function.update_eq_self, Bool.or_false, and_self]
              · cases readOne file field pair.2 <;> exact ⟨rfl, rfl⟩
  exact ⟨fun number => by rw [hsame.1]; exact hs.1 number, by rw [hsame.2]; exact hs.2⟩

theorem buffersSuffice_of_regular (hreuse : ReuseMessage file message)
    (h : ∀ field ∈ message.fields, field.kind ≠ .scalar .bool
      ∧ keepsPacked file message field = false)
    (hdecode : decode fieldDefault otherField file message bytes = .ok decoded) :
    BuffersSuffice otherField file message bytes := by
  obtain ⟨end', hrun⟩ := run_of_decode hdecode
  obtain ⟨s, rest, hsurplus, -, -⟩ := surplus_run hreuse hrun {}
  obtain ⟨hcount, hkept⟩ := surplus_of_regular h bytes
  rw [hsurplus] at hcount hkept
  refine ⟨s, rest, hsurplus, ?_, fun _ => hkept⟩
  rintro ⟨field, -, -, hlt⟩
  rw [hcount] at hlt
  exact absurd hlt (Nat.not_lt_zero _)

end

/-! ## A panel of lights -/

/-- `repeated bool lights = 1;` in proto3. -/
def lightsField : FieldDescriptor :=
  { name := ascii "lights", number := 1, cardinality := .repeated, kind := .scalar .bool }

def panelMessage : MessageDescriptor := { name := ascii "Panel", fields := [lightsField] }

def panelFile : FileDescriptor :=
  { (FileDescriptor.setSyntax {} .proto3) with messages := [panelMessage] }

theorem panel_reuse : ReuseMessage panelFile panelMessage where
  canDecode := by decide
  unique := by decide
  oneofs := by
    intro field hf name hname
    obtain rfl := List.mem_singleton.mp hf
    cases hname

/-- A panel with a buffer for some lights. -/
def panelOf (lights : Nat) : EmittedStruct :=
  { emptyStruct with items := fun _ => List.replicate lights (.boolean false) }

def lightsDefault (_ : FieldDescriptor) : Value := .boolean false

def noOtherField : OtherField := fun _ _ _ _ => .error .typeMismatch

/-- The number of lights that are decoded. -/
def decodedLights (bytes : Bytes) : Option Nat :=
  match decode lightsDefault noOtherField panelFile panelMessage bytes with
  | .error _ => none
  | .ok decoded => some (decoded.items 1).length

theorem decode_of_decodedLights {bytes : Bytes} {n : Nat} (h : decodedLights bytes = some n) :
    ∃ decoded, decode lightsDefault noOtherField panelFile panelMessage bytes = .ok decoded ∧
      ∀ field ∈ panelMessage.fields, field.cardinality = .repeated →
        ((panelOf n).items field.number).length = (decoded.items field.number).length := by
  unfold decodedLights at h
  cases hdecode : decode lightsDefault noOtherField panelFile panelMessage bytes with
  | error e => rw [hdecode] at h; cases h
  | ok decoded =>
      rw [hdecode] at h
      refine ⟨decoded, rfl, fun field hf _ => ?_⟩
      obtain rfl := List.mem_singleton.mp hf
      have hlength : (decoded.items 1).length = n := by simpa using h
      simp [panelOf, lightsField, hlength]

/-- The index of the fast path leaves the buffer. -/
def leavesBuffer (result : Except Fault EmittedStruct) : Bool :=
  match result with
  | .error .outOfBounds => true
  | _ => false

/-- A light that is written with two bytes is one for `decode` and two for the hot path. -/
theorem panel_outOfBounds :
    ReuseMessage panelFile panelMessage ∧
      ∃ decoded, decode lightsDefault noOtherField panelFile panelMessage [0x0a, 2, 0x80, 1]
          = .ok decoded ∧
        (∀ field ∈ panelMessage.fields, field.cardinality = .repeated →
          ((panelOf 1).items field.number).length = (decoded.items field.number).length) ∧
        ¬ ReusesLike panelFile panelMessage lightsDefault (panelOf 1) [0x0a, 2, 0x80, 1]
          decoded := by
  have hlights : decodedLights [0x0a, 2, 0x80, 1] = some 1 := by decide
  obtain ⟨decoded, hdecode, hsizes⟩ := decode_of_decodedLights hlights
  refine ⟨panel_reuse, decoded, hdecode, hsizes, fun hlike => hlike.1 ?_⟩
  have hleaves : leavesBuffer (decodeKnownReuse panelFile panelMessage lightsDefault (panelOf 1)
      [0x0a, 2, 0x80, 1]) = true := by decide
  unfold leavesBuffer at hleaves
  split at hleaves
  · assumption
  · cases hleaves

theorem decodeKnownReuse_agrees_iff_panel :
    ∃ decoded, decode lightsDefault noOtherField panelFile panelMessage [0x0a, 2, 1, 0]
        = .ok decoded ∧
      (ReusesLike panelFile panelMessage lightsDefault (panelOf 2) [0x0a, 2, 1, 0] decoded
        ↔ BuffersSuffice noOtherField panelFile panelMessage [0x0a, 2, 1, 0]) := by
  have hlights : decodedLights [0x0a, 2, 1, 0] = some 2 := by decide
  obtain ⟨decoded, hdecode, hsizes⟩ := decode_of_decodedLights hlights
  exact ⟨decoded, hdecode, decodeKnownReuse_agrees_iff panel_reuse hdecode hsizes⟩

end Codegen

end Pbz
