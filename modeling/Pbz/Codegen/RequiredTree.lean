import Pbz.Codegen.MergeLaws
import Pbz.Codegen.RequiredChecks

set_option autoImplicit false

/-! # Required fields of a tree of structs

What the emitted checks of required fields are for: that no message of a struct lacks a required
field. The messages of a struct, with those that they hold, are a tree (`Holds`); a message that is
held as bytes belongs to it if the flag beside the bytes is set. The checks go through another tree,
with the messages that are held as bytes whose bytes are not empty.
-/

namespace Pbz

open Finding Relation

/-- A struct with its value. -/
abbrev StructValue := GeneratedStruct × EmittedMessage

namespace Codegen

/-! ## The trees -/

section

variable (explicitDefault : FieldKind → OptionValue → Option Value) (keeps : Member → Bool)

/-- A message that the struct holds. -/
def HoldsMessage (n : StructValue) (held : HeldMessage) : Prop :=
  (∃ field ∈ n.1.message.fields, held ∈ fieldMessages keeps n.1 n.2 field) ∨
  (∃ oneof ∈ n.1.message.oneofs, held ∈ oneofMessages n.1 n.2 oneof) ∨
  ∃ field ∈ n.1.extensions, ∃ messages, extensionMessages n.1 n.2 field = .ok messages ∧
    held ∈ messages

/-- The struct holds the other one, or its bytes. -/
def Holds (n m : StructValue) : Prop :=
  ∃ held, HoldsMessage keeps n held ∧ held.struct = m.1 ∧ openHeld explicitDefault held = .ok m.2

/-- The field holds a singular message as bytes. -/
def KeptAsBytes (s t : GeneratedStruct) (field : FieldDescriptor) : Prop :=
  s.messageStruct field.kind = some t ∧ field.oneofName = none ∧ field.cardinality ≠ .repeated ∧
    s.typedSingular field = none

/-- The struct holds the bytes of the other one in a member that `keeps` is true of. -/
def HoldsBytes (n m : StructValue) : Prop :=
  ∃ field ∈ n.1.message.fields, KeptAsBytes n.1 m.1 field ∧
    keeps (n.2.member field.number) = true ∧
    decodeEmitted explicitDefault m.1 (n.2.member field.number).payload = .ok m.2

end

/-! ### Which singular messages are held as bytes -/

/-- The flag says that there is a message. -/
def flagged (own : Member) : Bool := own.has

def flaggedNonEmpty (own : Member) : Bool := own.has && nonEmptyPayload own

def flaggedEmpty (own : Member) : Bool := own.has && !nonEmptyPayload own

def unflaggedNonEmpty (own : Member) : Bool := !own.has && nonEmptyPayload own

def anyPayload (own : Member) : Bool := own.has || nonEmptyPayload own

/-! ## Required fields -/

/-- The value of a field is there: in its oneof, as a struct, or by its flag. -/
def hasField (s : GeneratedStruct) (self : EmittedMessage) (field : FieldDescriptor) : Bool :=
  match field.oneofName with
  | some oneof =>
      match self.oneof oneof with
      | some (number, _) => number == field.number
      | none => false
  | none =>
      if (s.typedSingular field).isSome then (self.member field.number).nested.isSome
      else (self.member field.number).has

/-- A required field is not there. -/
def Lacks (n : StructValue) : Prop :=
  ∃ field ∈ n.1.message.fields, isRequired field = true ∧ hasField n.1 n.2 field = false

/-! ## The code of the checks -/

/-- The struct has a flag for the field: `writeFieldDecl`. -/
def declaresFlag (s : GeneratedStruct) (field : FieldDescriptor) : Bool :=
  field.oneofName.isNone && (s.typedSingular field).isNone && (s.typedRepeated field).isNone &&
    hasPresence s.file field

/-- The checks of the first struct call those of the second one. -/
def ChecksCall (s t : GeneratedStruct) : Prop :=
  (∃ field ∈ s.message.fields, s.messageStruct field.kind = some t ∨
    ∃ key typeName, field.kind = .map key (.message typeName) ∧ s.nestedStruct typeName = some t) ∨
  ∃ field ∈ s.extensions, extensionAppliesToMessage s.file s.message field = true ∧
    s.messageStruct field.kind = some t

/-- The code of the checks compiles: they read the flags of the required fields. -/
def ChecksCompile (s : GeneratedStruct) : Prop :=
  ∀ t, ReflTransGen ChecksCall s t → ∀ field ∈ t.message.fields, isRequired field = true →
    declaresFlag t field = true

section

variable (explicitDefault : FieldKind → OptionValue → Option Value)

/-- There are the two checks, and they say whether a message of the struct lacks a required
field. -/
def ChecksComplete (s : GeneratedStruct) (self : EmittedMessage) : Prop :=
  ChecksCompile s ∧
    (Returns (fun fuel => validateRequiredRecursive explicitDefault fuel s self) (.ok ()) ↔
      ¬ Reaches (Holds explicitDefault flagged) Lacks (s, self)) ∧
    (Returns (fun fuel => missingRequiredFieldPath explicitDefault fuel s self) (.ok ()) ↔
      ¬ Reaches (Holds explicitDefault flagged) Lacks (s, self))

/-- The bytes of all messages can be decoded, also of those in the messages. -/
inductive WellFormed : StructValue → Prop where
  | intro {n : StructValue}
      (extensions : ∀ field ∈ n.1.extensions,
        ∃ messages, extensionMessages n.1 n.2 field = .ok messages)
      (messages : ∀ held, HoldsMessage anyPayload n held →
        ∃ message, openHeld explicitDefault held = .ok message)
      (below : ∀ m, Holds explicitDefault anyPayload n m → WellFormed m) : WellFormed n

end

/-! ## Edges of the trees -/

section

variable {explicitDefault : FieldKind → OptionValue → Option Value} {keeps : Member → Bool}
  {s t : GeneratedStruct} {self : EmittedMessage} {field : FieldDescriptor} {n m : StructValue}

/-- The messages of a field that is not stored as a struct. -/
theorem fieldMessages_untyped (hstruct : s.messageStruct field.kind = some t)
    (htyped : s.typedSingular field = none) :
    fieldMessages keeps s self field
      = if field.oneofName.isSome then []
        else if field.cardinality == .repeated then
          (self.member field.number).items.map (⟨field.name, t, ·⟩)
        else if keeps (self.member field.number) then
          [⟨field.name, t, .payload (self.member field.number).payload⟩]
        else [] := by
  unfold fieldMessages
  dsimp only
  split
  · next hmap =>
    rw [hmap] at hstruct
    cases hstruct
  · simp only [hstruct, htyped]

/-- The message of a field that is held as bytes. -/
theorem fieldMessages_of_keptAsBytes (h : KeptAsBytes s t field) :
    fieldMessages keeps s self field
      = if keeps (self.member field.number) then
          [⟨field.name, t, .payload (self.member field.number).payload⟩]
        else [] := by
  obtain ⟨hstruct, honeof, hsingular, htyped⟩ := h
  rw [fieldMessages_untyped hstruct htyped, honeof, if_neg (by simp),
    if_neg (by simpa using hsingular)]

/-- The messages of any other field do not depend on `keeps`. -/
theorem fieldMessages_of_not_keptAsBytes (h : ∀ t, ¬ KeptAsBytes s t field) :
    fieldMessages keeps s self field = fieldMessages (fun _ => false) s self field := by
  cases hstruct : s.messageStruct field.kind with
  | none =>
      unfold fieldMessages
      dsimp only
      split
      · rfl
      · rw [hstruct]
  | some t =>
      cases htyped : s.typedSingular field with
      | some u =>
          unfold fieldMessages
          dsimp only
          split
          · rfl
          · simp only [hstruct, htyped]
      | none =>
          rw [fieldMessages_untyped hstruct htyped, fieldMessages_untyped hstruct htyped]
          by_cases honeof : field.oneofName.isSome = true
          · rw [if_pos honeof, if_pos honeof]
          · rw [if_neg honeof, if_neg honeof]
            by_cases hrepeated : (field.cardinality == .repeated) = true
            · rw [if_pos hrepeated, if_pos hrepeated]
            · -- such a field is held as bytes
              exact (h t ⟨hstruct, by simpa using honeof, by simpa using hrepeated, htyped⟩).elim

/-- Only the singular messages that are held as bytes depend on `keeps`. -/
theorem mem_fieldMessages_iff {held : HeldMessage} : held ∈ fieldMessages keeps s self field ↔
    held ∈ fieldMessages (fun _ => false) s self field ∨
      ∃ t, KeptAsBytes s t field ∧ keeps (self.member field.number) = true ∧
        held = ⟨field.name, t, .payload (self.member field.number).payload⟩ := by
  by_cases hbytes : ∃ t, KeptAsBytes s t field
  · obtain ⟨t, ht⟩ := hbytes
    have hnone : fieldMessages (fun _ => false) s self field = [] := by
      rw [fieldMessages_of_keptAsBytes ht]
      rfl
    rw [hnone, fieldMessages_of_keptAsBytes ht]
    simp only [List.not_mem_nil, false_or]
    constructor
    · intro hmem
      split at hmem
      · next hkeeps => exact ⟨t, ht, hkeeps, List.mem_singleton.mp hmem⟩
      · cases hmem
    · rintro ⟨t', ht', hkeeps, rfl⟩
      obtain rfl : t = t' := Option.some.inj (ht.1.symm.trans ht'.1)
      rw [if_pos hkeeps]
      exact List.mem_singleton.mpr rfl
  · have hnot : ∀ t, ¬ KeptAsBytes s t field := fun t ht => hbytes ⟨t, ht⟩
    rw [fieldMessages_of_not_keptAsBytes hnot]
    exact ⟨.inl, fun h => h.elim id fun ⟨t, ht, _⟩ => (hnot t ht).elim⟩

theorem holds_iff : Holds explicitDefault keeps n m ↔
    Holds explicitDefault (fun _ => false) n m ∨ HoldsBytes explicitDefault keeps n m := by
  constructor
  · rintro ⟨held, hholds, hstruct, hopen⟩
    rcases hholds with ⟨field, hfield, hmem⟩ | hother
    · rcases mem_fieldMessages_iff.mp hmem with hmem | ⟨t, ht, hkeeps, rfl⟩
      · exact .inl ⟨held, .inl ⟨field, hfield, hmem⟩, hstruct, hopen⟩
      · obtain rfl : t = m.1 := hstruct
        exact .inr ⟨field, hfield, ht, hkeeps, hopen⟩
    · exact .inl ⟨held, .inr hother, hstruct, hopen⟩
  · rintro (⟨held, hholds, hstruct, hopen⟩ | ⟨field, hfield, ht, hkeeps, hopen⟩)
    · rcases hholds with ⟨field, hfield, hmem⟩ | hother
      · exact ⟨held, .inl ⟨field, hfield, mem_fieldMessages_iff.mpr (.inl hmem)⟩, hstruct, hopen⟩
      · exact ⟨held, .inr hother, hstruct, hopen⟩
    · exact ⟨_, .inl ⟨field, hfield, mem_fieldMessages_iff.mpr (.inr ⟨m.1, ht, hkeeps, rfl⟩)⟩, rfl,
        hopen⟩

/-- A typed field holds the struct of its type. -/
theorem messageStruct_of_typedSingular (h : s.typedSingular field = some t) :
    s.messageStruct field.kind = some t := by
  obtain ⟨typeName, hstruct, hkind | hkind⟩ := GeneratedStruct.kind_of_typedSingular h
  · rw [hkind]
    exact hstruct
  · rw [hkind]
    exact hstruct

theorem Holds.checksCall (h : Holds explicitDefault keeps n m) : ChecksCall n.1 m.1 := by
  obtain ⟨held, hholds, hstruct, -⟩ := h
  rw [← hstruct]
  rcases hholds with ⟨field, hfield, hmem⟩ | ⟨oneof, -, hmem⟩ | ⟨field, hfield, messages, hmessages, hmem⟩
  · refine .inl ⟨field, hfield, ?_⟩
    unfold fieldMessages at hmem
    dsimp only at hmem
    split at hmem
    · next key typeName hkind =>
      split at hmem
      · cases hmem
      · next t ht =>
        obtain ⟨entry, -, rfl⟩ := List.mem_map.mp hmem
        exact .inr ⟨key, typeName, hkind, ht⟩
    · split at hmem
      · cases hmem
      · next t ht =>
        refine .inl ?_
        split at hmem
        · cases hmem
        · split at hmem
          · obtain ⟨item, -, rfl⟩ := List.mem_map.mp hmem
            exact ht
          · split at hmem
            · next htyped =>
              obtain ⟨nested, -, rfl⟩ := List.mem_map.mp hmem
              exact messageStruct_of_typedSingular htyped
            · split at hmem
              · obtain rfl := List.mem_singleton.mp hmem
                exact ht
              · cases hmem
  · unfold oneofMessages at hmem
    split at hmem
    · cases hmem
    · split at hmem
      · cases hmem
      · next field hfind =>
        split at hmem
        · cases hmem
        · next t ht =>
          obtain rfl := List.mem_singleton.mp hmem
          exact .inl ⟨field, List.mem_of_find?_eq_some hfind, .inl ht⟩
  · unfold extensionMessages at hmessages
    split at hmessages
    · next happlies =>
      split at hmessages
      · cases hmessages
        cases hmem
      · next t ht =>
        obtain ⟨payloads, -, rfl⟩ := map_eq_ok.mp hmessages
        obtain ⟨payload, -, rfl⟩ := List.mem_map.mp hmem
        exact .inr ⟨field, hfield, happlies, ht⟩
    · cases hmessages
      cases hmem

end

/-! ## What the checks find -/

section

variable {explicitDefault : FieldKind → OptionValue → Option Value} {α : Type} {n : StructValue}
  {visit : Nat → Bytes → GeneratedStruct → EmittedMessage → Except (Halt Error α) Unit}
  {P : StructValue → Prop}

theorem HoldsMessage.mono {keeps other : Member → Bool} {held : HeldMessage}
    (hle : ∀ own, keeps own = true → other own = true) (h : HoldsMessage keeps n held) :
    HoldsMessage other n held := by
  rcases h with ⟨field, hfield, hmem⟩ | hrest
  · refine .inl ⟨field, hfield, mem_fieldMessages_iff.mpr ?_⟩
    rcases mem_fieldMessages_iff.mp hmem with hmem | ⟨t, ht, hkeeps, rfl⟩
    · exact .inl hmem
    · exact .inr ⟨t, ht, hle _ hkeeps, rfl⟩
  · exact .inr hrest

theorem anyPayload_of_nonEmptyPayload (own : Member) (h : nonEmptyPayload own = true) :
    anyPayload own = true := by
  rw [anyPayload, h, Bool.or_true]

/-- The common part of the two checks goes through the messages of the struct. -/
theorem visitMessages_finds (hwell : WellFormed explicitDefault n)
    (hvisit : ∀ held message, HoldsMessage nonEmptyPayload n held →
      openHeld explicitDefault held = .ok message →
      Finds (fun fuel => visit fuel held.name held.struct message) (P (held.struct, message))) :
    Finds (fun fuel => visitMessages explicitDefault (visit fuel) n.1 n.2)
      (∃ m, Holds explicitDefault nonEmptyPayload n m ∧ P m) := by
  obtain ⟨hextensions, hmessages, -⟩ := hwell
  -- a message that is held: what it holds can be opened, and is visited
  have hheld : ∀ held, HoldsMessage nonEmptyPayload n held →
      Finds (fun fuel => visitHeld explicitDefault (visit fuel) held)
        (∃ message, openHeld explicitDefault held = .ok message ∧ P (held.struct, message)) := by
    intro held hholds
    obtain ⟨message, hopen⟩ := hmessages held (hholds.mono anyPayload_of_nonEmptyPayload)
    have hfinds := hvisit held message hholds hopen
    simp only [visitHeld, hopen, Except.ok.injEq, exists_eq_left']
    exact hfinds
  have hfields : Finds (fun fuel => Check.forEach (fun field =>
      Check.forEach (visitHeld explicitDefault (visit fuel))
        (fieldMessages nonEmptyPayload n.1 n.2 field)) n.1.message.fields)
      (∃ field ∈ n.1.message.fields, ∃ held ∈ fieldMessages nonEmptyPayload n.1 n.2 field,
        ∃ message, openHeld explicitDefault held = .ok message ∧ P (held.struct, message)) :=
    Finds.forEach fun field hfield => Finds.forEach fun held hmem =>
      hheld held (.inl ⟨field, hfield, hmem⟩)
  have honeofs : Finds (fun fuel => Check.forEach (fun oneof =>
      Check.forEach (visitHeld explicitDefault (visit fuel)) (oneofMessages n.1 n.2 oneof))
        n.1.message.oneofs)
      (∃ oneof ∈ n.1.message.oneofs, ∃ held ∈ oneofMessages n.1 n.2 oneof,
        ∃ message, openHeld explicitDefault held = .ok message ∧ P (held.struct, message)) :=
    Finds.forEach fun oneof honeof => Finds.forEach fun held hmem =>
      hheld held (.inr (.inl ⟨oneof, honeof, hmem⟩))
  refine (hfields.bind (honeofs.bind (Finds.forEach (R := fun field =>
    ∃ messages, extensionMessages n.1 n.2 field = .ok messages ∧ ∃ held ∈ messages,
      ∃ message, openHeld explicitDefault held = .ok message ∧ P (held.struct, message))
    fun field hfield => ?_))).congr ⟨?_, ?_⟩
  · obtain ⟨messages, hok⟩ := hextensions field hfield
    simp only [hok, Except.ok.injEq, exists_eq_left']
    exact Finds.forEach fun held hmem => hheld held (.inr (.inr ⟨field, hfield, messages, hok, hmem⟩))
  · rintro (⟨field, hfield, held, hmem, message, hopen, hP⟩ |
      ⟨oneof, honeof, held, hmem, message, hopen, hP⟩ |
      ⟨field, hfield, messages, hok, held, hmem, message, hopen, hP⟩)
    · exact ⟨_, ⟨held, .inl ⟨field, hfield, hmem⟩, rfl, hopen⟩, hP⟩
    · exact ⟨_, ⟨held, .inr (.inl ⟨oneof, honeof, hmem⟩), rfl, hopen⟩, hP⟩
    · exact ⟨_, ⟨held, .inr (.inr ⟨field, hfield, messages, hok, hmem⟩), rfl, hopen⟩, hP⟩
  · rintro ⟨⟨t, message⟩, ⟨held, hholds, rfl, hopen⟩, hP⟩
    rcases hholds with ⟨field, hfield, hmem⟩ | ⟨oneof, honeof, hmem⟩ |
      ⟨field, hfield, messages, hok, hmem⟩
    · exact .inl ⟨field, hfield, held, hmem, message, hopen, hP⟩
    · exact .inr (.inl ⟨oneof, honeof, held, hmem, message, hopen, hP⟩)
    · exact .inr (.inr ⟨field, hfield, messages, hok, held, hmem, message, hopen, hP⟩)

/-- A required field whose flag is not set. -/
def LacksFlag (n : StructValue) : Prop :=
  ∃ field ∈ n.1.message.fields, isRequired field = true ∧ (n.2.member field.number).has = false

theorem missingRequiredFieldName_isSome :
    (missingRequiredFieldName n.1 n.2).isSome = true ↔ LacksFlag n := by
  rw [missingRequiredFieldName, Option.isSome_map, List.find?_isSome]
  simp only [Bool.and_eq_true, Bool.not_eq_true', LacksFlag]

theorem holds_anyPayload {held : HeldMessage}
    {message : EmittedMessage} (hholds : HoldsMessage nonEmptyPayload n held)
    (hopen : openHeld explicitDefault held = .ok message) :
    Holds explicitDefault anyPayload n (held.struct, message) :=
  ⟨held, hholds.mono anyPayload_of_nonEmptyPayload, rfl, hopen⟩

theorem validateRequiredRecursive_finds (hwell : WellFormed explicitDefault n) :
    Finds (fun fuel => validateRequiredRecursive explicitDefault fuel n.1 n.2)
      (Reaches (Holds explicitDefault nonEmptyPayload) LacksFlag n) := by
  induction hwell with
  | @intro n extensions messages below ih =>
      have hwell := WellFormed.intro extensions messages below
      have hown : Finds (fun _ => validateRequired n.1 n.2) (LacksFlag n) := by
        unfold validateRequired
        split
        · next hmissing =>
          exact (finds_found ()).congr
            (iff_of_true trivial (missingRequiredFieldName_isSome.mp hmissing))
        · next hpresent =>
          exact finds_ok.congr
            (iff_of_false not_false (fun h => hpresent (missingRequiredFieldName_isSome.mpr h)))
      have hvisits : Finds (fun fuel => visitMessages explicitDefault (fun _ t nested =>
          validateRequiredRecursive explicitDefault fuel t nested) n.1 n.2)
          (∃ m, Holds explicitDefault nonEmptyPayload n m ∧
            Reaches (Holds explicitDefault nonEmptyPayload) LacksFlag m) :=
        visitMessages_finds hwell fun held message hholds hopen =>
          ih (held.struct, message) (holds_anyPayload hholds hopen)
      exact (Finds.succ (hown.bind hvisits)).congr reaches_iff.symm

theorem missingRequiredFieldPath_finds (hwell : WellFormed explicitDefault n) :
    Finds (fun fuel => missingRequiredFieldPath explicitDefault fuel n.1 n.2)
      (Reaches (Holds explicitDefault nonEmptyPayload) LacksFlag n) := by
  induction hwell with
  | @intro n extensions messages below ih =>
      have hwell := WellFormed.intro extensions messages below
      have hown : Finds (fun _ => missingOwnField n.1 n.2) (LacksFlag n) := by
        rw [← missingRequiredFieldName_isSome]
        unfold missingOwnField
        cases missingRequiredFieldName n.1 n.2 with
        | none => exact finds_ok.congr (by simp)
        | some name => exact (finds_found name).congr (by simp)
      have hvisits : Finds (fun fuel => visitMessages explicitDefault (fun name t nested =>
          inField name (missingRequiredFieldPath explicitDefault fuel t nested)) n.1 n.2)
          (∃ m, Holds explicitDefault nonEmptyPayload n m ∧
            Reaches (Holds explicitDefault nonEmptyPayload) LacksFlag m) :=
        visitMessages_finds hwell fun held message hholds hopen =>
          (ih (held.struct, message) (holds_anyPayload hholds hopen)).report
            (fun what => ⟨_, rfl⟩) rfl
      exact (Finds.succ (hown.bind hvisits)).congr reaches_iff.symm

end

/-! ## The two trees -/

section

variable {explicitDefault : FieldKind → OptionValue → Option Value} {keeps : Member → Bool}
  {s t : GeneratedStruct} {self : EmittedMessage} {field : FieldDescriptor} {n m : StructValue}

theorem holdsBytes_or_iff {some other : Member → Bool}
    (hkeeps : ∀ own, keeps own = true ↔ some own = true ∨ other own = true) :
    HoldsBytes explicitDefault keeps n m ↔
      HoldsBytes explicitDefault some n m ∨ HoldsBytes explicitDefault other n m := by
  constructor
  · rintro ⟨field, hfield, ht, hown, hopen⟩
    rcases (hkeeps _).mp hown with hown | hown
    · exact .inl ⟨field, hfield, ht, hown, hopen⟩
    · exact .inr ⟨field, hfield, ht, hown, hopen⟩
  · rintro (⟨field, hfield, ht, hown, hopen⟩ | ⟨field, hfield, ht, hown, hopen⟩)
    · exact ⟨field, hfield, ht, (hkeeps _).mpr (.inl hown), hopen⟩
    · exact ⟨field, hfield, ht, (hkeeps _).mpr (.inr hown), hopen⟩

/-- The edges of both trees, and those of one of them alone. -/
theorem holds_or_iff {other : Member → Bool}
    (hkeeps : ∀ own, keeps own = true ↔ flaggedNonEmpty own = true ∨ other own = true) :
    Holds explicitDefault keeps n m ↔
      Holds explicitDefault flaggedNonEmpty n m ∨ HoldsBytes explicitDefault other n m := by
  rw [holds_iff, holdsBytes_or_iff hkeeps, ← or_assoc, ← holds_iff]

theorem decodeEmitted_nil (t : GeneratedStruct) :
    decodeEmitted explicitDefault t [] = .ok (initMessage explicitDefault t) :=
  decodeFromReader_eq_ok.mpr ⟨[], .nil, rfl⟩

/-- A struct that has just been initialized holds no messages. -/
theorem not_holdsMessage_initMessage {held : HeldMessage} :
    ¬ HoldsMessage anyPayload (t, initMessage explicitDefault t) held := by
  intro hholds
  rcases hholds with ⟨field, -, hmem⟩ | ⟨oneof, -, hmem⟩ | ⟨field, -, messages, hmessages, hmem⟩
  · rcases mem_fieldMessages_iff.mp hmem with hmem | ⟨u, -, hflag, -⟩
    · have hnone : fieldMessages (fun _ => false) t (initMessage explicitDefault t) field = [] := by
        unfold fieldMessages initMessage
        dsimp only
        split
        · split <;> rfl
        · split
          · rfl
          · split
            · rfl
            · split
              · rfl
              · split <;> rfl
      rw [hnone] at hmem
      cases hmem
    · cases hflag
  · cases hmem
  · unfold extensionMessages at hmessages
    split at hmessages
    · split at hmessages
      · cases hmessages
        cases hmem
      · cases hmessages
        cases hmem
    · cases hmessages
      cases hmem

theorem not_holds_initMessage :
    ¬ Holds explicitDefault flagged (t, initMessage explicitDefault t) m := by
  rintro ⟨held, hholds, -, -⟩
  refine not_holdsMessage_initMessage (hholds.mono fun own hflag => ?_)
  rw [anyPayload, show own.has = true from hflag, Bool.true_or]

theorem hasField_initMessage (s : GeneratedStruct) (field : FieldDescriptor) :
    hasField s (initMessage explicitDefault s) field = false := by
  unfold hasField
  split
  · rfl
  · split <;> rfl

/-- It lacks all required fields. -/
theorem reaches_initMessage_iff :
    Reaches (Holds explicitDefault flagged) Lacks (t, initMessage explicitDefault t) ↔
      ∃ required ∈ t.message.fields, isRequired required = true := by
  rw [reaches_iff]
  constructor
  · rintro (⟨required, hmem, hrequired, -⟩ | ⟨m, hholds, -⟩)
    · exact ⟨required, hmem, hrequired⟩
    · exact (not_holds_initMessage hholds).elim
  · rintro ⟨required, hmem, hrequired⟩
    exact .inl ⟨required, hmem, hrequired, hasField_initMessage t required⟩

/-- With a flag for each required field, a field is there if its flag is set. -/
theorem lacks_iff (hcompile : ChecksCompile n.1) : Lacks n ↔ LacksFlag n := by
  have hhas : ∀ field ∈ n.1.message.fields, isRequired field = true →
      hasField n.1 n.2 field = (n.2.member field.number).has := by
    intro field hfield hrequired
    have hflag := hcompile n.1 .refl field hfield hrequired
    simp only [declaresFlag, Bool.and_eq_true, Option.isNone_iff_eq_none] at hflag
    obtain ⟨⟨⟨honeof, htyped⟩, -⟩, -⟩ := hflag
    simp [hasField, honeof, htyped]
  constructor
  · rintro ⟨field, hfield, hrequired, hnot⟩
    exact ⟨field, hfield, hrequired, by rw [← hhas field hfield hrequired, hnot]⟩
  · rintro ⟨field, hfield, hrequired, hnot⟩
    exact ⟨field, hfield, hrequired, by rw [hhas field hfield hrequired, hnot]⟩

theorem reaches_lacks_iff (hcompile : ChecksCompile n.1) :
    Reaches (Holds explicitDefault keeps) Lacks n
      ↔ Reaches (Holds explicitDefault keeps) LacksFlag n :=
  Reaches.congr (I := fun a => ChecksCompile a.1) hcompile
    (fun _ _ ha hholds u hu => ha u (.head hholds.checksCall hu)) fun _ ha => lacks_iff ha

end

/-! ## What the checks say -/

section

variable (explicitDefault : FieldKind → OptionValue → Option Value)

/-- A message that both trees have holds a flagged message with no bytes, whose type has a required
field: the checks do not look at it. -/
def SkipsLack (n : StructValue) : Prop :=
  ∃ m, ReflTransGen (Holds explicitDefault flaggedNonEmpty) n m ∧
    ∃ field ∈ m.1.message.fields, ∃ t, KeptAsBytes m.1 t field ∧
      flaggedEmpty (m.2.member field.number) = true ∧
      ∃ required ∈ t.message.fields, isRequired required = true

/-- A message that both trees have holds bytes without a flag, where a required field is not
there: the checks look at them. -/
def StraysToLack (n : StructValue) : Prop :=
  ∃ m m', ReflTransGen (Holds explicitDefault flaggedNonEmpty) n m ∧
    HoldsBytes explicitDefault unflaggedNonEmpty m m' ∧
    Reaches (Holds explicitDefault nonEmptyPayload) Lacks m'

variable {explicitDefault} {n : StructValue}

theorem reaches_flagged_iff : Reaches (Holds explicitDefault flagged) Lacks n ↔
    Reaches (Holds explicitDefault flaggedNonEmpty) Lacks n ∨ SkipsLack explicitDefault n := by
  have hkeeps : ∀ own, flagged own = true ↔ flaggedNonEmpty own = true ∨ flaggedEmpty own = true := by
    intro own
    unfold flagged flaggedNonEmpty flaggedEmpty
    cases own.has <;> cases nonEmptyPayload own <;> simp
  rw [reaches_or_iff fun a b => holds_or_iff hkeeps]
  -- what is below an edge that only the claimed tree has is the message without any field
  refine or_congr_right ⟨?_, ?_⟩
  · rintro ⟨a, ⟨t, message⟩, hpath, ⟨field, hfield, ht, hempty, hopen⟩, hreaches⟩
    have hnil : (a.2.member field.number).payload = [] := by
      have hnot := (Bool.and_eq_true_iff.mp hempty).2
      simpa [nonEmptyPayload] using hnot
    rw [hnil, decodeEmitted_nil, Except.ok.injEq] at hopen
    obtain rfl : initMessage explicitDefault t = message := hopen
    exact ⟨a, hpath, field, hfield, t, ht, hempty, reaches_initMessage_iff.mp hreaches⟩
  · rintro ⟨a, hpath, field, hfield, t, ht, hempty, hrequired⟩
    have hnil : (a.2.member field.number).payload = [] := by
      have hnot := (Bool.and_eq_true_iff.mp hempty).2
      simpa [nonEmptyPayload] using hnot
    refine ⟨a, (t, initMessage explicitDefault t), hpath, ⟨field, hfield, ht, hempty, ?_⟩,
      reaches_initMessage_iff.mpr hrequired⟩
    rw [hnil, decodeEmitted_nil]

theorem reaches_nonEmptyPayload_iff : Reaches (Holds explicitDefault nonEmptyPayload) Lacks n ↔
    Reaches (Holds explicitDefault flaggedNonEmpty) Lacks n ∨ StraysToLack explicitDefault n := by
  have hkeeps : ∀ own,
      nonEmptyPayload own = true ↔ flaggedNonEmpty own = true ∨ unflaggedNonEmpty own = true := by
    intro own
    unfold flaggedNonEmpty unflaggedNonEmpty
    cases own.has <;> cases nonEmptyPayload own <;> simp
  exact reaches_or_iff fun a b => holds_or_iff hkeeps

/-- Where both trees have the messages that lack a required field, or neither does, and nowhere
else, the checks are complete. -/
theorem checksComplete_iff {s : GeneratedStruct} {self : EmittedMessage}
    (hwell : WellFormed explicitDefault (s, self)) : ChecksComplete explicitDefault s self ↔
      ChecksCompile s ∧ (Reaches (Holds explicitDefault flaggedNonEmpty) Lacks (s, self) ∨
        (SkipsLack explicitDefault (s, self) ↔ StraysToLack explicitDefault (s, self))) := by
  refine and_congr_right fun hcompile => ?_
  rw [(validateRequiredRecursive_finds hwell).returns_iff,
    (missingRequiredFieldPath_finds hwell).returns_iff, and_self,
    ← reaches_lacks_iff hcompile, reaches_flagged_iff, reaches_nonEmptyPayload_iff]
  tauto

end

/-! ## A ring with an empty ring behind it -/

def ringIdField : FieldDescriptor :=
  { name := ascii "id", number := 1, cardinality := .required, kind := .scalar .int32, address := 1 }

def nextField : FieldDescriptor :=
  { name := ascii "next", number := 2, cardinality := .optional, kind := .message (ascii "Ring")
    address := 2 }

def ringMessage : MessageDescriptor :=
  { name := ascii "Ring", fields := [ringIdField, nextField], address := 3 }

def ringStruct : GeneratedStruct :=
  { ctx := { file := { messages := [ringMessage], address := 4 } }, message := ringMessage }

def noDefault (_ : FieldKind) (_ : OptionValue) : Option Value := none

/-- A ring with the id 1; the next ring is there, and has no bytes. -/
def hollowRing : EmittedMessage :=
  { initMessage noDefault ringStruct with
    member := Function.update
      (Function.update (initMessage noDefault ringStruct).member 1
        { value := .int32 1, has := true, payload := [], nested := none, items := [],
          entries := [] })
      2 { value := .bytes [], has := true, payload := [], nested := none, items := [],
          entries := [] } }

theorem decode_hollowRing :
    decodeEmitted noDefault ringStruct [0x08, 1, 0x12, 0] = .ok hollowRing := rfl

theorem nextField_keptAsBytes : KeptAsBytes ringStruct ringStruct nextField := by
  refine ⟨rfl, rfl, by decide, ?_⟩
  have huntyped : (ringStruct.typedSingular nextField).isNone = true := by decide
  simpa using huntyped

/-- The next ring, which has no field. -/
theorem hollowRing_holds : Holds noDefault flagged (ringStruct, hollowRing)
    (ringStruct, initMessage noDefault ringStruct) :=
  holds_iff.mpr (.inr ⟨nextField, List.mem_cons_of_mem _ List.mem_cons_self, nextField_keptAsBytes,
    rfl, decodeEmitted_nil ringStruct⟩)

theorem hollowRing_lacks :
    Reaches (Holds noDefault flagged) Lacks (ringStruct, hollowRing) :=
  reaches_iff.mpr (.inr ⟨_, hollowRing_holds,
    reaches_initMessage_iff.mpr ⟨ringIdField, List.mem_cons_self, rfl⟩⟩)

theorem ring_extensions : ringStruct.extensions = [] := rfl

/-- It holds no other message. -/
theorem hollowRing_only {keeps : Member → Bool} {held : HeldMessage}
    (h : HoldsMessage keeps (ringStruct, hollowRing) held) :
    held = ⟨ascii "next", ringStruct, .payload []⟩ := by
  rcases h with ⟨field, hfield, hmem⟩ | ⟨oneof, honeof, -⟩ | ⟨field, hfield, -⟩
  · rcases List.mem_cons.mp hfield with rfl | hfield
    · cases hmem
    · obtain rfl := List.mem_singleton.mp hfield
      rcases mem_fieldMessages_iff.mp hmem with hmem | ⟨t, ht, -, rfl⟩
      · have hnone : fieldMessages (fun _ => false) ringStruct hollowRing nextField = [] := by
          have hlength : (fieldMessages (fun _ => false) ringStruct hollowRing nextField).length
              = 0 := by decide
          exact List.length_eq_zero_iff.mp hlength
        rw [hnone] at hmem
        cases hmem
      · obtain rfl : ringStruct = t := Option.some.inj (nextField_keptAsBytes.1.symm.trans ht.1)
        rfl
  · cases honeof
  · rw [ring_extensions] at hfield
    cases hfield

theorem initRing_wellFormed :
    WellFormed noDefault (ringStruct, initMessage noDefault ringStruct) := by
  refine .intro (fun field hfield => ?_) (fun held hholds => ?_) (fun m hm => ?_)
  · rw [ring_extensions] at hfield
    cases hfield
  · exact (not_holdsMessage_initMessage hholds).elim
  · obtain ⟨held, hholds, -, -⟩ := hm
    exact (not_holdsMessage_initMessage hholds).elim

theorem hollowRing_wellFormed : WellFormed noDefault (ringStruct, hollowRing) := by
  refine .intro (fun field hfield => ?_) (fun held hholds => ?_) (fun m hm => ?_)
  · rw [ring_extensions] at hfield
    cases hfield
  · rw [hollowRing_only hholds]
    exact ⟨_, decodeEmitted_nil ringStruct⟩
  · obtain ⟨t, message⟩ := m
    obtain ⟨held, hholds, hstruct, hopen⟩ := hm
    rw [hollowRing_only hholds] at hstruct hopen
    obtain rfl : ringStruct = t := hstruct
    have hdecode : decodeEmitted noDefault ringStruct [] = .ok message := hopen
    rw [decodeEmitted_nil, Except.ok.injEq] at hdecode
    rw [← hdecode]
    exact initRing_wellFormed

/-- The checks do not see that the next ring has no id. -/
theorem hollowRing_not_complete : WellFormed noDefault (ringStruct, hollowRing) ∧
    decodeEmitted noDefault ringStruct [0x08, 1, 0x12, 0] = .ok hollowRing ∧
    ¬ ChecksComplete noDefault ringStruct hollowRing := by
  refine ⟨hollowRing_wellFormed, decode_hollowRing, fun hcomplete => ?_⟩
  refine hcomplete.2.1.mp (Filter.eventually_atTop.mpr ⟨1, fun fuel hfuel => ?_⟩) hollowRing_lacks
  obtain ⟨less, rfl⟩ := Nat.exists_eq_add_of_le' hfuel
  rfl

theorem checksComplete_iff_hollowRing : ChecksComplete noDefault ringStruct hollowRing ↔
    ChecksCompile ringStruct ∧
      (Reaches (Holds noDefault flaggedNonEmpty) Lacks (ringStruct, hollowRing) ∨
        (SkipsLack noDefault (ringStruct, hollowRing) ↔
          StraysToLack noDefault (ringStruct, hollowRing))) :=
  checksComplete_iff hollowRing_wellFormed

end Codegen

end Pbz
