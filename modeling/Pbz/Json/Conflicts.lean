import Pbz.Json.Integers
import Pbz.Json.Read
import Pbz.Dynamic.Invariant
import Pbz.Dynamic.Reading

set_option autoImplicit false

/-! # Conflicting members of an object

`fillMessageObject` remembers the numbers of the fields it has stored. A member for the same field
is an error then, and so is one for another member of the same oneof, whichever comes first. A
null that stands for no value is passed over before: it names no field.
-/

namespace Pbz

namespace Json

/-! ## At most one member of each oneof -/

/-- No two stored fields are members of one oneof. -/
def OneMemberEach (fields : List FieldValue) : Prop :=
  (fields.map FieldValue.descriptor).Pairwise
    (fun a b => ∀ name, a.oneofName = some name → b.oneofName ≠ some name)

theorem OneMemberEach.perm {fields fields' : List FieldValue} (h : OneMemberEach fields)
    (hp : fields'.Perm fields) : OneMemberEach fields' :=
  List.Pairwise.perm h (hp.symm.map _) (fun hab name hb ha => hab name ha hb)

/-- What leaves the oneof of a field keeps the others apart, and leaves the field alone in it. -/
theorem OneMemberEach.leaveOneof {message : DynamicMessage} (h : OneMemberEach message.fields)
    (field : FieldDescriptor) :
    OneMemberEach (message.leaveOneof field).fields
      ∧ ∀ entry ∈ (message.leaveOneof field).fields, ∀ name, field.oneofName = some name →
          entry.descriptor.oneofName = some name → entry.descriptor.number = field.number := by
  rw [DynamicMessage.leaveOneof]
  cases honeof : field.oneofName with
  | none => exact ⟨h, by simp⟩
  | some oneofName =>
      constructor
      · have hkept : OneMemberEach (message.fields.filter (fun entry =>
            !(entry.inOneof oneofName && entry.descriptor.number != field.number))) :=
          List.Pairwise.sublist (List.filter_sublist.map _) h
        exact hkept.perm (SwapRemove.sweep_perm _ _)
      · intro entry hentry name hname hin
        have hstays := (SwapRemove.mem_sweep.mp hentry).2
        rw [Option.some.injEq] at hname
        subst hname
        rw [inOneof_eq_true.mpr hin] at hstays
        simpa using hstays

theorem OneMemberEach.updateEntry {fields : List FieldValue} (h : OneMemberEach fields)
    (number : Nat) (change : List Value → List Value) :
    OneMemberEach (updateEntry number change fields) := by
  rw [OneMemberEach, updateEntry_descriptors]
  exact h

theorem OneMemberEach.add {message : DynamicMessage} (h : OneMemberEach message.fields)
    (field : FieldDescriptor) (value : Value) : OneMemberEach (message.add field value).fields := by
  rw [DynamicMessage.add]
  cases hmerge : message.mergeSingularMessageValue field value with
  | some merged =>
      obtain ⟨-, v, rfl⟩ := DynamicMessage.mergeSingularMessageValue_eq_some hmerge
      exact h.updateEntry _ _
  | none =>
      obtain ⟨hleft, halone⟩ := h.leaveOneof field
      simp only [DynamicMessage.insert]
      rw [updateOrCreate_eq]
      split
      · exact hleft.updateEntry _ _
      · next hnone =>
        -- no entry has the field's number, so none is left in its oneof
        have hfresh := findEntry_eq_none.mp (Option.not_isSome_iff_eq_none.mp hnone)
        rw [OneMemberEach, List.map_append]
        refine List.pairwise_append.mpr ⟨hleft, List.pairwise_singleton _ _, ?_⟩
        intro a ha b hb name hname hname'
        obtain ⟨entry, hentry, rfl⟩ := List.mem_map.mp ha
        rw [List.map_singleton, List.mem_singleton] at hb
        rw [hb] at hname'
        exact hfresh entry hentry (halone entry hentry name hname' hname)

/-! ## What a member stores -/

/-- The one message comes from the other by adding values to a field. -/
inductive Adds (field : FieldDescriptor) (message : DynamicMessage) : DynamicMessage → Prop where
  | none : Adds field message message
  | add {middle : DynamicMessage} (value : Value) :
      Adds field message middle → Adds field message (middle.add field value)

theorem Adds.trans {field : FieldDescriptor} {message middle message' : DynamicMessage}
    (hfirst : Adds field message middle) (hsecond : Adds field middle message') :
    Adds field message message' := by
  induction hsecond with
  | none => exact hfirst
  | add value _ ih => exact ih.add value

theorem Adds.descriptor_eq {field : FieldDescriptor} {message message' : DynamicMessage}
    (h : Adds field message message') : message'.descriptor = message.descriptor := by
  induction h with
  | none => rfl
  | add value _ ih => rw [add_descriptor, ih]

theorem Adds.oneMemberEach {field : FieldDescriptor} {message message' : DynamicMessage}
    (h : Adds field message message') (hone : OneMemberEach message.fields) :
    OneMemberEach message'.fields := by
  induction h with
  | none => exact hone
  | add value _ ih => exact ih.add field value

section

variable {registry : Option Registry} {options : Options} {file fieldFile : FileDescriptor}
  {message message' : DynamicMessage} {field : FieldDescriptor}

open Check

theorem parseMapEntries_adds {keyType : ScalarType} {valueKind : FieldKind}
    {members : List (Bytes × Part)}
    (h : parseMapEntries registry options fieldFile field keyType valueKind message members
      = .ok message') : Adds field message message' := by
  induction members generalizing message with
  | nil =>
      rw [← Except.ok.inj h]
      exact .none
  | cons member rest ih =>
      obtain ⟨key, -, h⟩ := of_bind_eq_ok h
      obtain ⟨element, -, h⟩ := of_bind_eq_ok h
      cases element with
      | none => exact ih h
      | some value => exact (Adds.none.add _).trans (ih h)

theorem parseItems_adds {items : List Part}
    (h : parseItems registry options fieldFile field message items = .ok message') :
    Adds field message message' := by
  induction items generalizing message with
  | nil =>
      rw [← Except.ok.inj h]
      exact .none
  | cons part rest ih =>
      obtain ⟨element, -, h⟩ := of_bind_eq_ok h
      cases element with
      | none => exact ih h
      | some value => exact (Adds.none.add _).trans (ih h)

theorem storeMember_adds {part : Part}
    (h : storeMember registry options fieldFile message field part = .ok message') :
    Adds field message message' := by
  unfold storeMember at h
  split at h
  · unfold parseMapField at h
    split at h
    · split at h
      · exact parseMapEntries_adds h
      · cases h
    · cases h
  · split at h
    · split at h
      · exact parseItems_adds h
      · cases h
    · obtain ⟨element, -, h⟩ := of_bind_eq_ok h
      cases element with
      | none =>
          rw [← Except.ok.inj h]
          exact .none
      | some value =>
          rw [← Except.ok.inj h]
          exact Adds.none.add value

/-! ## What a member claims -/

/-- The member is for the field, and is no null that is passed over. -/
def Claims (registry : Option Registry) (file : FileDescriptor) (descriptor : MessageDescriptor)
    (skipTypeField : Bool) (key : Bytes) (isNull : Bool) (field : FieldDescriptor) : Prop :=
  ¬ (skipTypeField = true ∧ key = ascii "@type")
    ∧ findJsonField file registry descriptor key = some field
    ∧ ¬ (isNull = true ∧ jsonNullSkipsField (fieldDefiningFile file registry field) registry
          descriptor field = true)

/-- What a round says of a field that its member claims: the field is new, and so is its oneof. -/
structure Accepts (filling filling' : Filling) (field : FieldDescriptor) : Prop where
  fresh : field.number ∉ filling.seenFields
  oneof : ∀ oneofName, field.oneofName = some oneofName → ∀ seen ∈ filling.seenFields,
    seen ≠ field.number → ∀ other, filling.message.descriptor.findFieldByNumber seen = some other →
      other.oneofName ≠ some oneofName
  recorded : field.number ∈ filling'.seenFields

theorem accepts_of_fillMember {skipTypeField : Bool} {filling filling' : Filling} {key : Bytes}
    {part : Part}
    (h : fillMember registry options file skipTypeField filling key part = .ok filling') :
    filling'.message.descriptor = filling.message.descriptor
      ∧ (∀ number ∈ filling.seenFields, number ∈ filling'.seenFields)
      ∧ (OneMemberEach filling.message.fields → OneMemberEach filling'.message.fields)
      ∧ ∀ field, Claims registry file filling.message.descriptor skipTypeField key
          part.node.isNull field → Accepts filling filling' field := by
  have hsame (hclaims : ∀ field, ¬ Claims registry file filling.message.descriptor skipTypeField
      key part.node.isNull field) (heq : filling = filling') :
      filling'.message.descriptor = filling.message.descriptor
        ∧ (∀ number ∈ filling.seenFields, number ∈ filling'.seenFields)
        ∧ (OneMemberEach filling.message.fields → OneMemberEach filling'.message.fields)
        ∧ ∀ field, Claims registry file filling.message.descriptor skipTypeField key
            part.node.isNull field → Accepts filling filling' field := by
    subst heq
    exact ⟨rfl, fun _ hseen => hseen, id, fun field hclaim => absurd hclaim (hclaims field)⟩
  unfold fillMember at h
  dsimp only at h
  split at h
  · next htype =>
    refine hsame (fun field hclaim => hclaim.1 ?_) (Except.ok.inj h)
    simpa using htype
  · split at h
    · next hfind =>
      split at h
      · refine hsame (fun field hclaim => ?_) (Except.ok.inj h)
        have hsome := hclaim.2.1
        rw [hfind] at hsome
        cases hsome
      · cases h
    · next found hfind =>
      -- the member can claim no other field than the one that its key finds
      have hfound (field : FieldDescriptor) (hclaim : Claims registry file
          filling.message.descriptor skipTypeField key part.node.isNull field) : field = found :=
        Option.some.inj (hclaim.2.1.symm.trans hfind)
      split at h
      · next hnull =>
        refine hsame (fun field hclaim => hclaim.2.2 ?_) (Except.ok.inj h)
        rw [hfound field hclaim]
        simpa using hnull
      · split at h
        · cases h
        · next hfresh =>
          split at h
          · cases h
          · next honeof =>
            obtain ⟨message, hstore, h⟩ := of_bind_eq_ok h
            have hadds := storeMember_adds hstore
            rw [← Except.ok.inj h]
            refine ⟨hadds.descriptor_eq, fun number hseen => List.mem_append_left _ hseen,
              hadds.oneMemberEach, fun field hclaim => ?_⟩
            rw [hfound field hclaim]
            refine ⟨by simpa [seenJsonField] using hfresh, ?_,
              List.mem_append_right _ List.mem_cons_self⟩
            intro oneofName hname seen hseen hne other hother hin
            refine honeof ((Option.any_eq_true _ _).mpr ⟨oneofName, hname, ?_⟩)
            refine List.any_eq_true.mpr ⟨seen, hseen, ?_⟩
            simp [hne, hother, hin]

theorem fillMembers_append {skipTypeField : Bool} {filling : Filling}
    {before after : List (Bytes × Part)} :
    fillMembers registry options file skipTypeField filling (before ++ after)
      = (fillMembers registry options file skipTypeField filling before).bind
          (fun middle => fillMembers registry options file skipTypeField middle after) := by
  induction before generalizing filling with
  | nil => rfl
  | cons member rest ih =>
      rw [List.cons_append, fillMembers, fillMembers]
      cases fillMember registry options file skipTypeField filling member.1 member.2 with
      | error e => rfl
      | ok middle => exact ih

/-- What every run of the loop keeps. -/
theorem fillMembers_keeps {skipTypeField : Bool} {filling filling' : Filling}
    {members : List (Bytes × Part)}
    (h : fillMembers registry options file skipTypeField filling members = .ok filling') :
    filling'.message.descriptor = filling.message.descriptor
      ∧ (∀ number ∈ filling.seenFields, number ∈ filling'.seenFields)
      ∧ (OneMemberEach filling.message.fields → OneMemberEach filling'.message.fields) := by
  induction members generalizing filling with
  | nil =>
      rw [← Except.ok.inj h]
      exact ⟨rfl, fun _ hseen => hseen, id⟩
  | cons member rest ih =>
      obtain ⟨middle, hmember, h⟩ := of_bind_eq_ok h
      obtain ⟨hdescriptor, hseen, hone, -⟩ := accepts_of_fillMember hmember
      obtain ⟨hdescriptor', hseen', hone'⟩ := ih h
      exact ⟨hdescriptor'.trans hdescriptor, fun number hn => hseen' number (hseen number hn),
        hone' ∘ hone⟩

end

/-! ## Conflicts -/

/-- The same field, or two members of one oneof of the message. -/
def Conflicting (descriptor : MessageDescriptor) (first second : FieldDescriptor) : Prop :=
  first = second ∨ (first ∈ descriptor.fields ∧ second ∈ descriptor.fields ∧ first ≠ second
    ∧ ∃ oneofName, first.oneofName = some oneofName ∧ second.oneofName = some oneofName)

theorem Conflicting.symm {descriptor : MessageDescriptor} {first second : FieldDescriptor}
    (h : Conflicting descriptor first second) : Conflicting descriptor second first := by
  rcases h with heq | ⟨hfirst, hsecond, hne, oneofName, hin, hin'⟩
  · exact .inl heq.symm
  · exact .inr ⟨hsecond, hfirst, hne.symm, oneofName, hin', hin⟩

/-- The fields of a checked message are found by their numbers. -/
theorem mem_schemaFields {descriptor : MessageDescriptor} {field : FieldDescriptor}
    (hnumbers : descriptor.fields.Pairwise (fun field other => field.number ≠ other.number))
    (hmem : field ∈ descriptor.fields) : field ∈ schemaFields descriptor := by
  obtain ⟨before, after, hfields⟩ := List.append_of_mem hmem
  rw [hfields] at hnumbers
  have hbefore : before.find? (fun other => other.number == field.number) = none :=
    List.find?_eq_none.mpr fun other hother => by
      simpa using (List.pairwise_append.mp hnumbers).2.2 other hother field List.mem_cons_self
  show descriptor.fields.find? (fun other => other.number == field.number) = some field
  rw [hfields, List.find?_append, hbefore, Option.none_or]
  exact List.find?_cons_of_pos (beq_self_eq_true _)

theorem not_conflicting_of_accepts {descriptor : MessageDescriptor}
    {filling middle middle' filling' : Filling} {first second : FieldDescriptor}
    (hnumbers : descriptor.fields.Pairwise (fun field other => field.number ≠ other.number))
    (hdescriptor : middle'.message.descriptor = descriptor)
    (hfirst : Accepts filling middle first)
    (hseen : ∀ number ∈ middle.seenFields, number ∈ middle'.seenFields)
    (hsecond : Accepts middle' filling' second) : ¬ Conflicting descriptor first second := by
  have hrecorded := hseen _ hfirst.recorded
  rintro (rfl | ⟨hmem, hmem', hne, oneofName, hin, hin'⟩)
  · exact hsecond.fresh hrecorded
  · have hknown := mem_schemaFields hnumbers hmem
    have hknown' := mem_schemaFields hnumbers hmem'
    have hnumber : first.number ≠ second.number := fun heq =>
      hne (schemaFields_injOn descriptor hknown hknown' heq)
    refine hsecond.oneof oneofName hin' _ hrecorded hnumber first ?_ hin
    rw [hdescriptor]
    exact hknown

/-- The member of a JSON object claims the field. -/
def ClaimsField (registry : Option Registry) (file : FileDescriptor)
    (descriptor : MessageDescriptor) (skipTypeField : Bool) (member : Bytes × JsonValue)
    (field : FieldDescriptor) : Prop :=
  Claims registry file descriptor skipTypeField member.1 member.2.isNull field

/-- No two members claim fields that are in conflict. -/
def Unconflicted (registry : Option Registry) (file : FileDescriptor)
    (descriptor : MessageDescriptor) (skipTypeField : Bool)
    (members : List (Bytes × JsonValue)) : Prop :=
  members.Pairwise (fun member other => ∀ field second,
    ClaimsField registry file descriptor skipTypeField member field →
      ClaimsField registry file descriptor skipTypeField other second →
        ¬ Conflicting descriptor field second)

theorem Unconflicted.perm {registry : Option Registry} {file : FileDescriptor}
    {descriptor : MessageDescriptor} {skipTypeField : Bool} {members members' : List (Bytes × JsonValue)}
    (h : Unconflicted registry file descriptor skipTypeField members)
    (hperm : members'.Perm members) :
    Unconflicted registry file descriptor skipTypeField members' :=
  List.Pairwise.perm h hperm.symm (fun hab field second hfield hsecond hconflict =>
    hab second field hsecond hfield hconflict.symm)

section

open Check

variable [Conversions] [KnownTexts] {registry : Option Registry} {options : Options}
  {file : FileDescriptor} {descriptor : MessageDescriptor} {skipTypeField : Bool}

theorem readMember_key (member : Bytes × JsonValue) :
    (readMember registry options member).1 = member.1 := by
  cases member
  rfl

theorem readMember_isNull (member : Bytes × JsonValue) :
    (readMember registry options member).2.node.isNull = member.2.isNull := by
  obtain ⟨key, value⟩ := member
  cases value <;> rfl

theorem readMembers_append (before after : List (Bytes × JsonValue)) :
    readMembers registry options (before ++ after)
      = readMembers registry options before ++ readMembers registry options after := by
  induction before with
  | nil => rfl
  | cons member rest ih => rw [List.cons_append, readMembers, ih, readMembers, List.cons_append]

theorem accepts_of_readMember {filling filling' : Filling} {member : Bytes × JsonValue}
    {field : FieldDescriptor}
    (h : fillMember registry options file skipTypeField filling
      (readMember registry options member).1 (readMember registry options member).2
        = .ok filling')
    (hclaims : ClaimsField registry file filling.message.descriptor skipTypeField member field) :
    Accepts filling filling' field := by
  refine (accepts_of_fillMember h).2.2.2 field ?_
  rw [readMember_key, readMember_isNull]
  exact hclaims

/-- If the object is filled in, no member behind the first claims what conflicts with its
field. -/
theorem not_conflicting_of_fillMembers {filling middle filling' : Filling}
    {member other : Bytes × JsonValue} {rest : List (Bytes × JsonValue)}
    {field second : FieldDescriptor}
    (hnumbers : descriptor.fields.Pairwise (fun field other => field.number ≠ other.number))
    (hdescriptor : filling.message.descriptor = descriptor)
    (hmember : fillMember registry options file skipTypeField filling
      (readMember registry options member).1 (readMember registry options member).2 = .ok middle)
    (hrest : fillMembers registry options file skipTypeField middle
      (readMembers registry options rest) = .ok filling') (hother : other ∈ rest)
    (hclaims : ClaimsField registry file descriptor skipTypeField member field)
    (hclaims' : ClaimsField registry file descriptor skipTypeField other second) :
    ¬ Conflicting descriptor field second := by
  obtain ⟨between, after, rfl⟩ := List.append_of_mem hother
  rw [readMembers_append, readMembers, fillMembers_append] at hrest
  obtain ⟨middle', hbetween, hrest⟩ := of_bind_eq_ok hrest
  obtain ⟨last, hlast, -⟩ := of_bind_eq_ok hrest
  obtain ⟨hkept, hseen, -⟩ := fillMembers_keeps hbetween
  have hmiddle := (accepts_of_fillMember hmember).1
  have hdescriptor' : middle'.message.descriptor = descriptor :=
    hkept.trans (hmiddle.trans hdescriptor)
  exact not_conflicting_of_accepts hnumbers hdescriptor'
    (accepts_of_readMember hmember (hdescriptor.symm ▸ hclaims)) hseen
    (accepts_of_readMember hlast (hdescriptor'.symm ▸ hclaims'))

theorem unconflicted_of_fillMembers {filling filling' : Filling}
    {members : List (Bytes × JsonValue)}
    (hnumbers : descriptor.fields.Pairwise (fun field other => field.number ≠ other.number))
    (hdescriptor : filling.message.descriptor = descriptor)
    (h : fillMembers registry options file skipTypeField filling
      (readMembers registry options members) = .ok filling') :
    Unconflicted registry file descriptor skipTypeField members := by
  induction members generalizing filling with
  | nil => exact List.Pairwise.nil
  | cons member rest ih =>
      rw [readMembers] at h
      obtain ⟨middle, hmember, hrest⟩ := of_bind_eq_ok h
      have hmiddle := (accepts_of_fillMember hmember).1
      refine List.pairwise_cons.mpr ⟨fun other hother field second hclaims hclaims' => ?_,
        ih (hmiddle.trans hdescriptor) hrest⟩
      exact not_conflicting_of_fillMembers hnumbers hdescriptor hmember hrest hother hclaims
        hclaims'

end

/-! ## A null beside a value -/

/-- `message M { int32 user_id = 1; oneof choice { int32 a = 2; int32 b = 3; } }` -/
abbrev choiceFields : List FieldDescriptor :=
  [{ name := ascii "user_id", number := 1, kind := .scalar .int32 },
    { name := ascii "a", number := 2, kind := .scalar .int32, oneofName := some (ascii "choice") },
    { name := ascii "b", number := 3, kind := .scalar .int32, oneofName := some (ascii "choice") }]

abbrev choiceMessage : MessageDescriptor :=
  { name := ascii "M", fields := choiceFields, oneofs := [{ name := ascii "choice" }] }

/-- Texts for runs that meet no well-known type. -/
abbrev noKnownTexts : KnownTexts where
  parseTimestamp _ := .error .form
  parseDuration _ := .error .form
  parseFieldMask _ := .error .form
  writeTimestamp _ _ := .error .form
  writeDuration _ _ := .error .form
  validateFieldMaskPath _ := .error .form
  writeStandaloneAny _ _ := .error .form

theorem not_unconflicted_choices :
    ¬ Unconflicted none {} choiceMessage false [(ascii "a", .integer 1), (ascii "b", .integer 2)] := by
  intro h
  have hclaims : ClaimsField none {} choiceMessage false (ascii "a", .integer 1) choiceFields[1] :=
    ⟨by simp, by decide, by simp [JsonValue.isNull]⟩
  have hclaims' : ClaimsField none {} choiceMessage false (ascii "b", .integer 2)
      choiceFields[2] :=
    ⟨by simp, by decide, by simp [JsonValue.isNull]⟩
  refine List.rel_of_pairwise_cons h List.mem_cons_self _ _ hclaims hclaims' (.inr ?_)
  exact ⟨by decide, by decide, by decide, ascii "choice", rfl, rfl⟩

end Json

end Pbz
