import Pbz.Codegen.EmittedMessage

set_option autoImplicit false

/-! # Emitted values, layer by layer

The emitted methods of a value call those of the messages in it. A `Layer` is what a struct holds,
with anything in the place of these messages; `EmittedMessage.fold` computes a method for a value
from the layer of the methods of its messages. Two methods are compared layer by layer
(`EmittedMessage.fold_related`).
-/

namespace Pbz

universe u v

/-- An element, with a `ρ` in the place of a message. -/
inductive Held (ρ : Type u) where
  | value (value : Value)
  | payload (bytes : Bytes)
  | message (message : ρ)

/-- What a struct holds for one field. -/
structure MemberLayer (ρ : Type u) where
  value : Value
  has : Bool
  payload : Bytes
  nested : Option ρ
  items : List (Held ρ)
  entries : List (Value × Held ρ)

/-- What a struct holds. -/
structure Layer (ρ : Type u) where
  member : Nat → MemberLayer ρ
  oneof : Bytes → Option (Nat × Held ρ)
  unknownFields : List Bytes

section

variable {ρ : Type u} (f : Layer ρ → ρ)

mutual

def EmittedMessage.fold : EmittedMessage → ρ
  | { member, oneof, unknownFields } =>
      f { member := fun number => Member.fold (member number)
          oneof := fun name => foldChoice (oneof name)
          unknownFields }
termination_by structural x => x

def Member.fold : Member → MemberLayer ρ
  | { value, has, payload, nested, items, entries } =>
      { value, has, payload, nested := foldNested nested, items := foldItems items,
        entries := foldEntries entries }
termination_by structural x => x

def Element.fold : Element → Held ρ
  | .value value => .value value
  | .payload bytes => .payload bytes
  | .message message => .message message.fold
termination_by structural x => x

def foldNested : Option EmittedMessage → Option ρ
  | none => none
  | some message => some message.fold
termination_by structural x => x

def foldItems : List Element → List (Held ρ)
  | [] => []
  | item :: rest => item.fold :: foldItems rest
termination_by structural x => x

def foldEntries : List (Value × Element) → List (Value × Held ρ)
  | [] => []
  | (key, element) :: rest => (key, element.fold) :: foldEntries rest
termination_by structural x => x

def foldChoice : Option (Nat × Element) → Option (Nat × Held ρ)
  | none => none
  | some (number, element) => some (number, element.fold)
termination_by structural x => x

end

end

/-! ## Two methods -/

section

variable {ρ : Type u} {σ : Type v} (R : ρ → σ → Prop)

inductive Held.Related : Held ρ → Held σ → Prop where
  | value (value : Value) : Held.Related (.value value) (.value value)
  | payload (bytes : Bytes) : Held.Related (.payload bytes) (.payload bytes)
  | message {m : ρ} {m' : σ} (h : R m m') : Held.Related (.message m) (.message m')

/-- Entries with the same key and related values. -/
def EntryRelated (entry : Value × Held ρ) (entry' : Value × Held σ) : Prop :=
  entry.1 = entry'.1 ∧ Held.Related R entry.2 entry'.2

/-- The members of a oneof that are set, if any, are the same one. -/
def ChoiceRelated (choice : Nat × Held ρ) (choice' : Nat × Held σ) : Prop :=
  choice.1 = choice'.1 ∧ Held.Related R choice.2 choice'.2

structure MemberLayer.Related (slot : MemberLayer ρ) (slot' : MemberLayer σ) : Prop where
  value : slot.value = slot'.value
  has : slot.has = slot'.has
  payload : slot.payload = slot'.payload
  nested : Option.Rel R slot.nested slot'.nested
  items : List.Forall₂ (Held.Related R) slot.items slot'.items
  entries : List.Forall₂ (EntryRelated R) slot.entries slot'.entries

structure Layer.Related (layer : Layer ρ) (layer' : Layer σ) : Prop where
  member : ∀ number, MemberLayer.Related R (layer.member number) (layer'.member number)
  oneof : ∀ name, Option.Rel (ChoiceRelated R) (layer.oneof name) (layer'.oneof name)
  unknownFields : layer.unknownFields = layer'.unknownFields

/-- The methods are related for a value if they are for the messages in it. -/
def RelatedByLayer (f : Layer ρ → ρ) (g : Layer σ → σ) : Prop :=
  ∀ layer layer', Layer.Related R layer layer' → R (f layer) (g layer')

variable {R} {f : Layer ρ → ρ} {g : Layer σ → σ}

mutual

/-- Then they are for every value. -/
theorem EmittedMessage.fold_related (h : RelatedByLayer R f g) :
    ∀ m : EmittedMessage, R (m.fold f) (m.fold g)
  | { member, oneof, .. } =>
      h _ _
        { member := fun number => Member.fold_related h (member number)
          oneof := fun name => foldChoice_related h (oneof name)
          unknownFields := rfl }

theorem Member.fold_related (h : RelatedByLayer R f g) :
    ∀ m : Member, MemberLayer.Related R (m.fold f) (m.fold g)
  | { nested, items, entries, .. } =>
      { value := rfl
        has := rfl
        payload := rfl
        nested := foldNested_related h nested
        items := foldItems_related h items
        entries := foldEntries_related h entries }

theorem Element.fold_related (h : RelatedByLayer R f g) :
    ∀ e : Element, Held.Related R (e.fold f) (e.fold g)
  | .value value => .value value
  | .payload bytes => .payload bytes
  | .message message => .message (EmittedMessage.fold_related h message)

theorem foldNested_related (h : RelatedByLayer R f g) :
    ∀ nested : Option EmittedMessage, Option.Rel R (foldNested f nested) (foldNested g nested)
  | none => .none
  | some message => .some (EmittedMessage.fold_related h message)

theorem foldItems_related (h : RelatedByLayer R f g) :
    ∀ items : List Element, List.Forall₂ (Held.Related R) (foldItems f items) (foldItems g items)
  | [] => .nil
  | item :: rest => .cons (Element.fold_related h item) (foldItems_related h rest)

theorem foldEntries_related (h : RelatedByLayer R f g) :
    ∀ entries : List (Value × Element),
      List.Forall₂ (EntryRelated R) (foldEntries f entries) (foldEntries g entries)
  | [] => .nil
  | (_, element) :: rest =>
      .cons ⟨rfl, Element.fold_related h element⟩ (foldEntries_related h rest)

theorem foldChoice_related (h : RelatedByLayer R f g) :
    ∀ choice : Option (Nat × Element),
      Option.Rel (ChoiceRelated R) (foldChoice f choice) (foldChoice g choice)
  | none => .none
  | some (_, element) => .some ⟨rfl, Element.fold_related h element⟩

end

/-- The layers that two methods are computed from are related. -/
theorem EmittedMessage.exists_layers (h : RelatedByLayer R f g) (m : EmittedMessage) :
    ∃ layer layer', Layer.Related R layer layer' ∧ m.fold f = f layer ∧ m.fold g = g layer' := by
  obtain ⟨member, oneof, unknownFields⟩ := m
  exact ⟨_, _,
    { member := fun number => Member.fold_related h (member number)
      oneof := fun name => foldChoice_related h (oneof name)
      unknownFields := rfl }, rfl, rfl⟩

end

end Pbz
