import Pbz.Codegen.EmittedMessage

set_option autoImplicit false

/-! # Laws of the emitted merge

`mergeFrom` acts on each member alone, and it is associative as far as it succeeds
(`mergeFrom_assoc`): the typed messages below make this an induction over the value that is merged
last.
-/

namespace Pbz

/-! ## The structs -/

namespace GeneratedStruct

/-- A field of the first struct has the second one as its type, or as the type of its values. -/
def Refers (s t : GeneratedStruct) : Prop :=
  ∃ field ∈ s.message.fields, ∃ typeName, s.nestedStruct typeName = some t ∧
    (field.kind = .message typeName ∨ field.kind = .group typeName ∨
      ∃ key, field.kind = .map key (.message typeName))

/-- What the emitted code of a struct needs in order to compile: one case for each number in its
switches, a member for each oneof, and a member of its own for each repeated field and each map. -/
structure Compiles (s : GeneratedStruct) : Prop where
  unique : (s.message.fields.map FieldDescriptor.number).Nodup
  oneofs : ∀ field ∈ s.message.fields, ∀ name, field.oneofName = some name →
    name ∈ s.message.oneofs.map OneofDescriptor.name
  single : ∀ field ∈ s.message.fields, field.isRepeatedLike = true → field.oneofName = none

/-- So do all structs that it refers to. -/
def AllCompile (s : GeneratedStruct) : Prop :=
  ∀ t, Relation.ReflTransGen Refers s t → t.Compiles

variable {s t : GeneratedStruct} {field : FieldDescriptor}

theorem AllCompile.self (h : s.AllCompile) : s.Compiles := h s .refl

theorem AllCompile.of_refers (h : s.AllCompile) (ht : s.Refers t) : t.AllCompile :=
  fun u hu => h u (.head ht hu)

theorem Compiles.ownFields_unique (h : s.Compiles) :
    (s.ownFields.map FieldDescriptor.number).Nodup :=
  h.unique.sublist (List.Sublist.map _ List.filter_sublist)

/-- A typed field refers to the struct of its type. -/
theorem refers_of_typedSingular (hfield : field ∈ s.message.fields)
    (h : s.typedSingular field = some t) : s.Refers t := by
  obtain ⟨typeName, hstruct, hkind⟩ := kind_of_typedSingular h
  refine ⟨field, hfield, typeName, hstruct, ?_⟩
  rcases hkind with hkind | hkind
  · exact .inl hkind
  · exact .inr (.inl hkind)

end GeneratedStruct

/-! ## Members -/

namespace Codegen

theorem sameKey_partialKey : Upsert.PartialKey sameKey where
  symm := fun {x y} h => (valueEqual_comm x.1 y.1).symm.trans h
  trans := fun h1 h2 => valueEqual_trans h1 h2

theorem appendRawFieldsClone_eq_ok {fields raws result : List Bytes} :
    appendRawFieldsClone fields raws = .ok result ↔
      (∀ raw ∈ raws, validateRawField raw = .ok ()) ∧ result = fields ++ raws := by
  have hforEach : Check.forEach validateRawField raws = .ok () ↔
      ∀ raw ∈ raws, validateRawField raw = .ok () := Check.forEach_eq_ok
  rw [← hforEach]
  unfold appendRawFieldsClone
  cases Check.forEach validateRawField raws with
  | error e => simp [bind, Except.bind]
  | ok u =>
      simp only [bind, Except.bind, pure, Except.pure, Except.ok.injEq, true_and]
      exact eq_comm

end Codegen

namespace Member

theorem mergeMap_assoc (x y z : Member) : x.mergeMap (y.mergeMap z) = (x.mergeMap y).mergeMap z := by
  have hassoc := Upsert.foldl_assign_assoc Codegen.sameKey_partialKey x.entries y.entries z.entries
  exact congrArg (fun entries => { x with entries := entries }) hassoc

theorem mergeRepeated_assoc (x y z : Member) :
    x.mergeRepeated (y.mergeRepeated z) = (x.mergeRepeated y).mergeRepeated z := by
  simp only [mergeRepeated, List.append_assoc]

/-- With the flag set a payload goes behind what is there, and else it takes its place. -/
theorem joinPayload_payload (self : Member) (payload : Bytes) :
    (self.joinPayload payload).payload = if self.has then self.payload ++ payload else payload := by
  unfold joinPayload
  cases self.has with
  | false => simp
  | true =>
      cases hself : self.payload with
      | nil => simp
      | cons a as =>
          cases payload with
          | nil => simp
          | cons b bs => simp

theorem joinPayload_eq (self : Member) (payload : Bytes) : self.joinPayload payload
    = { self with payload := if self.has then self.payload ++ payload else payload, has := true } := by
  rw [← joinPayload_payload]
  rfl

theorem mergePayload_assoc (x y z : Member) :
    x.mergePayload (y.mergePayload z) = (x.mergePayload y).mergePayload z := by
  unfold mergePayload
  cases hz : z.has with
  | false => simp
  | true =>
      cases hy : y.has with
      | false => simp [joinPayload_eq, hy]
      | true => cases hx : x.has <;> simp [joinPayload_eq, hx, hy]

theorem mergeSingularValue_assoc (file : FileDescriptor) (field : FieldDescriptor)
    (x y z : Member) :
    mergeSingularValue file field x (mergeSingularValue file field y z)
      = mergeSingularValue file field (mergeSingularValue file field x y) z := by
  unfold mergeSingularValue
  cases Codegen.hasPresence file field with
  | true =>
      cases hz : z.has with
      | false => simp
      | true => cases hy : y.has <;> simp
  | false =>
      cases hz : Codegen.defaultSkipCondition z.value with
      | false => simp
      | true => cases hy : Codegen.defaultSkipCondition y.value <;> simp [hz]

end Member

/-! ## Oneofs -/

/-- The member that is set afterwards. -/
theorem mergeOneofs_apply (message : MessageDescriptor)
    (self other : Bytes → Option (Nat × Element)) (name : Bytes) :
    mergeOneofs message self other name
      = if name ∈ message.oneofs.map OneofDescriptor.name then (other name).or (self name)
        else self name := by
  unfold mergeOneofs
  induction message.oneofs generalizing self with
  | nil => rfl
  | cons oneof rest ih =>
      rw [List.foldl_cons, ih, List.map_cons]
      by_cases hname : name = oneof.name
      · subst hname
        rw [if_pos List.mem_cons_self]
        cases hother : other oneof.name with
        | none => simp
        | some active => simp
      · cases other oneof.name with
        | none => simp only [List.mem_cons, hname, false_or]
        | some active => simp only [List.mem_cons, hname, false_or, Function.update_of_ne hname]

theorem mergeOneofs_assoc (message : MessageDescriptor)
    (x y z : Bytes → Option (Nat × Element)) :
    mergeOneofs message x (mergeOneofs message y z)
      = mergeOneofs message (mergeOneofs message x y) z := by
  funext name
  simp only [mergeOneofs_apply]
  split
  · rw [Option.or_assoc]
  · rfl

/-! ## Whole messages -/

/-- The value of a merge, member by member. -/
structure MergesTo (s : GeneratedStruct) (a b merged : EmittedMessage) : Prop where
  member : ∀ field ∈ s.ownFields, Member.mergeField s field (a.member field.number)
    (b.member field.number) = .ok (merged.member field.number)
  others : ∀ number, number ∉ s.ownFields.map FieldDescriptor.number →
    merged.member number = a.member number
  oneof : merged.oneof = mergeOneofs s.message a.oneof b.oneof
  valid : ∀ raw ∈ b.unknownFields, validateRawField raw = .ok ()
  unknown : merged.unknownFields = a.unknownFields ++ b.unknownFields

section

variable {s : GeneratedStruct} {a b merged : EmittedMessage}

theorem mergeFrom_eq_ok (hs : s.Compiles) : a.mergeFrom s b = .ok merged ↔ MergesTo s a b merged := by
  obtain ⟨member, oneof, unknownFields⟩ := b
  obtain ⟨member', oneof', unknownFields'⟩ := merged
  rw [EmittedMessage.mergeFrom]
  constructor
  · intro h
    split at h
    · cases h
    · next members hpass =>
      split at h
      · cases h
      · next raws hraws =>
        cases h
        obtain ⟨hmember, hothers⟩ := (OwnPlace.pass_eq_ok hs.ownFields_unique).mp hpass
        obtain ⟨hvalid, hunknown⟩ := Codegen.appendRawFieldsClone_eq_ok.mp hraws
        exact ⟨hmember, hothers, rfl, hvalid, hunknown⟩
  · rintro ⟨hmember, hothers, honeof, hvalid, hunknown⟩
    have hpass : OwnPlace.pass FieldDescriptor.number
        (fun field own => Member.mergeField s field own (member field.number)) s.ownFields a.member
        = .ok member' :=
      (OwnPlace.pass_eq_ok hs.ownFields_unique).mpr ⟨hmember, hothers⟩
    have hraws := Codegen.appendRawFieldsClone_eq_ok.mpr ⟨hvalid, hunknown⟩
    simp only [hpass, hraws]
    obtain rfl := honeof
    rfl

/-- A merge succeeds if all its members can be merged and the unknown fields are well formed. -/
theorem exists_mergeFrom_eq_ok (hs : s.Compiles) : (∃ merged, a.mergeFrom s b = .ok merged) ↔
    (∀ field ∈ s.ownFields, ∃ own, Member.mergeField s field (a.member field.number)
      (b.member field.number) = .ok own) ∧
    ∀ raw ∈ b.unknownFields, validateRawField raw = .ok () := by
  constructor
  · rintro ⟨merged, h⟩
    have hmerges := (mergeFrom_eq_ok hs).mp h
    exact ⟨fun field hfield => ⟨_, hmerges.member field hfield⟩, hmerges.valid⟩
  · rintro ⟨hmember, hvalid⟩
    have hpasses : ∃ members, OwnPlace.pass FieldDescriptor.number
        (fun field own => Member.mergeField s field own (b.member field.number)) s.ownFields
        a.member = .ok members :=
      (OwnPlace.exists_pass_eq_ok hs.ownFields_unique).mpr hmember
    obtain ⟨members, hpass⟩ := hpasses
    obtain ⟨hmember, hothers⟩ := (OwnPlace.pass_eq_ok hs.ownFields_unique).mp hpass
    exact ⟨{ member := members, oneof := mergeOneofs s.message a.oneof b.oneof,
             unknownFields := a.unknownFields ++ b.unknownFields },
      (mergeFrom_eq_ok hs).mpr ⟨hmember, hothers, rfl, hvalid, rfl⟩⟩

end

/-! ## Associativity -/

/-- Merging twice in two groupings: the one succeeds where the other does, with the same value. -/
def Regroups {α : Type} (merge : α → α → Except Error α) (b c bc : α) : Prop :=
  ∀ a merged, merge a bc = .ok merged ↔ ∃ ab, merge a b = .ok ab ∧ merge ab c = .ok merged

theorem regroups_of_assoc {α : Type} {merge : α → α → Except Error α} {op : α → α → α}
    (hmerge : ∀ x y, merge x y = .ok (op x y)) (hassoc : ∀ x y z, op x (op y z) = op (op x y) z)
    (b c : α) : Regroups merge b c (op b c) := by
  intro a merged
  simp only [hmerge, hassoc, Except.ok.injEq, exists_eq_left']

theorem mergeField_eq (s : GeneratedStruct) (field : FieldDescriptor) (u v : Member) :
    Member.mergeField s field u v =
      match field.kind with
      | .map _ _ => .ok (u.mergeMap v)
      | .message _ | .group _ =>
          if field.cardinality == .repeated then .ok (u.mergeRepeated v)
          else match s.typedSingular field with
            | some t =>
                match mergeNested t u.nested v.nested with
                | .error e => .error e
                | .ok merged => .ok { u with nested := merged }
            | none => .ok (u.mergePayload v)
      | .scalar _ | .enumeration _ =>
          if field.cardinality == .repeated then .ok (u.mergeRepeated v)
          else .ok (Member.mergeSingularValue s.file field u v) := by
  cases v
  rfl

/-- The five ways in which a field is merged. -/
theorem mergeField_plain {s : GeneratedStruct} {field : FieldDescriptor}
    (hkind : (∃ scalar, field.kind = .scalar scalar) ∨ ∃ name, field.kind = .enumeration name)
    (hsingular : field.cardinality ≠ .repeated) (u v : Member) :
    Member.mergeField s field u v = .ok (Member.mergeSingularValue s.file field u v) := by
  have hnot : ¬ (field.cardinality == .repeated) = true := by simpa using hsingular
  cases v
  rcases hkind with ⟨scalar, hkind⟩ | ⟨name, hkind⟩ <;>
    simp only [mergeField_eq, hkind, if_neg hnot]

theorem mergeField_repeated {s : GeneratedStruct} {field : FieldDescriptor}
    (hkind : field.kind.isMap = false) (hrepeated : field.cardinality = .repeated) (u v : Member) :
    Member.mergeField s field u v = .ok (u.mergeRepeated v) := by
  have hyes : (field.cardinality == .repeated) = true := by simpa using hrepeated
  cases v
  cases hfield : field.kind with
  | map key value => rw [hfield] at hkind; cases hkind
  | _ => simp only [mergeField_eq, hfield, if_pos hyes]

theorem mergeField_map {s : GeneratedStruct} {field : FieldDescriptor} {key : ScalarType}
    {value : FieldKind} (hkind : field.kind = .map key value) (u v : Member) :
    Member.mergeField s field u v = .ok (u.mergeMap v) := by
  cases v
  simp only [mergeField_eq, hkind]

theorem mergeField_payload {s : GeneratedStruct} {field : FieldDescriptor}
    (hkind : (∃ name, field.kind = .message name) ∨ ∃ name, field.kind = .group name)
    (hsingular : field.cardinality ≠ .repeated) (htyped : s.typedSingular field = none)
    (u v : Member) : Member.mergeField s field u v = .ok (u.mergePayload v) := by
  have hnot : ¬ (field.cardinality == .repeated) = true := by simpa using hsingular
  cases v
  rcases hkind with ⟨name, hkind⟩ | ⟨name, hkind⟩ <;>
    simp only [mergeField_eq, hkind, if_neg hnot, htyped]

theorem mergeField_typed {s t : GeneratedStruct} {field : FieldDescriptor}
    (hkind : (∃ name, field.kind = .message name) ∨ ∃ name, field.kind = .group name)
    (hsingular : field.cardinality ≠ .repeated) (htyped : s.typedSingular field = some t)
    (u v : Member) : Member.mergeField s field u v
      = (mergeNested t u.nested v.nested).map (fun merged => { u with nested := merged }) := by
  have hnot : ¬ (field.cardinality == .repeated) = true := by simpa using hsingular
  obtain ⟨value, has, payload, nested, items, entries⟩ := v
  rcases hkind with ⟨name, hkind⟩ | ⟨name, hkind⟩ <;>
    simp only [mergeField_eq, hkind, if_neg hnot, htyped] <;>
    cases mergeNested t u.nested nested <;> rfl

/-- A field is merged by an associative operation, or it is a typed message. -/
theorem mergeField_cases (s : GeneratedStruct) (field : FieldDescriptor) :
    (∃ op : Member → Member → Member, (∀ u v, Member.mergeField s field u v = .ok (op u v)) ∧
      ∀ u v w, op u (op v w) = op (op u v) w) ∨
    ∃ t, s.typedSingular field = some t ∧ ∀ u v, Member.mergeField s field u v
      = (mergeNested t u.nested v.nested).map (fun merged => { u with nested := merged }) := by
  have hmessage : (∃ name, field.kind = .message name) ∨ (∃ name, field.kind = .group name) →
      field.cardinality ≠ .repeated →
      (∃ op : Member → Member → Member, (∀ u v, Member.mergeField s field u v = .ok (op u v)) ∧
        ∀ u v w, op u (op v w) = op (op u v) w) ∨
      ∃ t, s.typedSingular field = some t ∧ ∀ u v, Member.mergeField s field u v
        = (mergeNested t u.nested v.nested).map (fun merged => { u with nested := merged }) := by
    intro hkind hsingular
    cases htyped : s.typedSingular field with
    | none => exact .inl ⟨_, mergeField_payload hkind hsingular htyped, Member.mergePayload_assoc⟩
    | some t => exact .inr ⟨t, rfl, mergeField_typed hkind hsingular htyped⟩
  by_cases hmap : ∃ key value, field.kind = .map key value
  · obtain ⟨key, value, hkind⟩ := hmap
    exact .inl ⟨_, mergeField_map hkind, Member.mergeMap_assoc⟩
  by_cases hrepeated : field.cardinality = .repeated
  · have hkind : field.kind.isMap = false := by
      cases hfield : field.kind with
      | map key value => exact (hmap ⟨key, value, hfield⟩).elim
      | _ => rfl
    exact .inl ⟨_, mergeField_repeated hkind hrepeated, Member.mergeRepeated_assoc⟩
  cases hkind : field.kind with
  | map key value => exact (hmap ⟨key, value, hkind⟩).elim
  | scalar scalar =>
      exact .inl ⟨_, mergeField_plain (.inl ⟨scalar, hkind⟩) hrepeated,
        Member.mergeSingularValue_assoc s.file field⟩
  | enumeration name =>
      exact .inl ⟨_, mergeField_plain (.inr ⟨name, hkind⟩) hrepeated,
        Member.mergeSingularValue_assoc s.file field⟩
  | message name => exact hmessage (.inl ⟨name, hkind⟩) hrepeated
  | group name => exact hmessage (.inr ⟨name, hkind⟩) hrepeated

theorem map_eq_ok {α β : Type} {f : α → β} {r : Except Error α} {result : β} :
    r.map f = .ok result ↔ ∃ x, r = .ok x ∧ f x = result := by
  cases r with
  | error e => simp [Except.map]
  | ok x => simp [Except.map]

/-- A part of a value is regrouped in the value. -/
theorem Regroups.lift {t : GeneratedStruct} {merge : Member → Member → Except Error Member}
    (hmerge : ∀ u v, merge u v
      = (mergeNested t u.nested v.nested).map (fun merged => { u with nested := merged }))
    {y z : Member} {yz : Option EmittedMessage} (h : Regroups (mergeNested t) y.nested z.nested yz) :
    Regroups merge y z { y with nested := yz } := by
  intro x merged
  simp only [hmerge, map_eq_ok]
  constructor
  · rintro ⟨last, hlast, rfl⟩
    obtain ⟨xy, hxy, hrest⟩ := (h _ _).mp hlast
    exact ⟨_, ⟨xy, hxy, rfl⟩, last, hrest, rfl⟩
  · rintro ⟨_, ⟨xy, hxy, rfl⟩, last, hrest, rfl⟩
    exact ⟨last, (h _ _).mpr ⟨xy, hxy, hrest⟩, rfl⟩

theorem mergeNested_some_some {t : GeneratedStruct} {a b : EmittedMessage} :
    mergeNested t (some a) (some b) = (a.mergeFrom t b).map some := by
  rw [mergeNested]
  cases a.mergeFrom t b <;> rfl

mutual

theorem mergeFrom_regroups {s : GeneratedStruct} (hs : s.AllCompile) :
    ∀ (c : EmittedMessage) {b bc : EmittedMessage}, b.mergeFrom s c = .ok bc →
      Regroups (EmittedMessage.mergeFrom s) b c bc
  | { member, oneof, unknownFields }, b, bc, hbc => by
      have hbc := (mergeFrom_eq_ok hs.self).mp hbc
      -- each member on its own
      have hfield : ∀ field ∈ s.ownFields, Regroups (Member.mergeField s field)
          (b.member field.number) (member field.number) (bc.member field.number) := by
        intro field hmem
        exact mergeField_regroups hs (List.mem_of_mem_filter hmem) _ (hbc.member field hmem)
      intro a merged
      constructor
      · intro habc
        have habc := (mergeFrom_eq_ok hs.self).mp habc
        have hab : ∃ ab, a.mergeFrom s b = .ok ab := by
          refine (exists_mergeFrom_eq_ok hs.self).mpr ⟨fun field hmem => ?_, fun raw hraw => ?_⟩
          · obtain ⟨own, hown, -⟩ := (hfield field hmem _ _).mp (habc.member field hmem)
            exact ⟨own, hown⟩
          · refine habc.valid raw ?_
            rw [hbc.unknown]
            exact List.mem_append_left _ hraw
        obtain ⟨ab, hab⟩ := hab
        have hmerges := (mergeFrom_eq_ok hs.self).mp hab
        refine ⟨ab, hab, (mergeFrom_eq_ok hs.self).mpr ⟨fun field hmem => ?_, fun number hnumber => ?_, ?_,
          hbc.valid, ?_⟩⟩
        · obtain ⟨own, hown, hlast⟩ := (hfield field hmem _ _).mp (habc.member field hmem)
          rw [hmerges.member field hmem] at hown
          cases hown
          exact hlast
        · rw [habc.others number hnumber, hmerges.others number hnumber]
        · rw [habc.oneof, hbc.oneof, hmerges.oneof, mergeOneofs_assoc]
        · rw [habc.unknown, hbc.unknown, hmerges.unknown, List.append_assoc]
      · rintro ⟨ab, hab, habc⟩
        have hab := (mergeFrom_eq_ok hs.self).mp hab
        have habc := (mergeFrom_eq_ok hs.self).mp habc
        refine (mergeFrom_eq_ok hs.self).mpr ⟨fun field hmem => ?_, fun number hnumber => ?_, ?_,
          fun raw hraw => ?_, ?_⟩
        · exact (hfield field hmem _ _).mpr ⟨_, hab.member field hmem, habc.member field hmem⟩
        · rw [habc.others number hnumber, hab.others number hnumber]
        · rw [habc.oneof, hbc.oneof, hab.oneof, mergeOneofs_assoc]
        · rw [hbc.unknown] at hraw
          rcases List.mem_append.mp hraw with hraw | hraw
          · exact hab.valid raw hraw
          · exact hbc.valid raw hraw
        · rw [habc.unknown, hbc.unknown, hab.unknown, List.append_assoc]
termination_by structural c => c

theorem mergeField_regroups {s : GeneratedStruct} (hs : s.AllCompile) {field : FieldDescriptor}
    (hfield : field ∈ s.message.fields) :
    ∀ (z : Member) {y yz : Member}, Member.mergeField s field y z = .ok yz →
      Regroups (Member.mergeField s field) y z yz
  | { value, has, payload, nested, items, entries }, y, yz, hyz => by
      rcases mergeField_cases s field with ⟨op, hmerge, hassoc⟩ | ⟨t, htyped, hmerge⟩
      · rw [hmerge] at hyz
        cases hyz
        exact regroups_of_assoc hmerge hassoc y _
      · rw [hmerge] at hyz
        obtain ⟨merged, hmerged, rfl⟩ := map_eq_ok.mp hyz
        have ht := hs.of_refers (GeneratedStruct.refers_of_typedSingular hfield htyped)
        have hnested : Regroups (mergeNested t) y.nested nested merged :=
          mergeNested_regroups ht _ hmerged
        exact hnested.lift hmerge
termination_by structural z => z

theorem mergeNested_regroups {t : GeneratedStruct} (ht : t.AllCompile) :
    ∀ (z : Option EmittedMessage) {y yz : Option EmittedMessage}, mergeNested t y z = .ok yz →
      Regroups (mergeNested t) y z yz
  | none, y, yz, hyz => by
      rw [mergeNested] at hyz
      cases hyz
      intro x merged
      simp [mergeNested]
  | some c, none, yz, hyz => by
      rw [mergeNested] at hyz
      cases hyz
      intro x merged
      simp [mergeNested]
  | some c, some b, yz, hyz => by
      rw [mergeNested_some_some] at hyz
      obtain ⟨bc, hbc, rfl⟩ := map_eq_ok.mp hyz
      have hgroup : Regroups (EmittedMessage.mergeFrom t) b c bc := mergeFrom_regroups ht _ hbc
      intro x merged
      cases x with
      | none =>
          have hnone : ∀ other, mergeNested t none (some other) = .ok (some other) := fun _ => rfl
          simp only [hnone, Except.ok.injEq, exists_eq_left', mergeNested_some_some, hbc, Except.map]
      | some a =>
          simp only [mergeNested_some_some, map_eq_ok]
          constructor
          · rintro ⟨abc, habc, rfl⟩
            obtain ⟨ab, hab, hlast⟩ := (hgroup _ _).mp habc
            exact ⟨some ab, ⟨ab, hab, rfl⟩, by rw [mergeNested_some_some, hlast]; rfl⟩
          · rintro ⟨_, ⟨ab, hab, rfl⟩, hlast⟩
            rw [mergeNested_some_some] at hlast
            obtain ⟨abc, habc, rfl⟩ := map_eq_ok.mp hlast
            exact ⟨abc, (hgroup _ _).mpr ⟨ab, hab, habc⟩, rfl⟩
termination_by structural z => z

end

end Pbz
