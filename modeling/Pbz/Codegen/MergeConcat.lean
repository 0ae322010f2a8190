import Pbz.Codegen.EmittedReads
import Pbz.Codegen.MergeLaws

set_option autoImplicit false

/-! # Merging against concatenation

The `decode` of the bytes of two values in a row, against the `mergeFrom` of the one with the other.
Each action of the second decoding is pushed through the merge: what it does to the second value
before a merge it does to the merged value (`changeMember_merge`), with one exception. A field
without a presence flag is merged by its value, and decoded by whether it occurs. `carry` is that
exception.
-/

namespace Pbz

/-! ## The actions of a struct -/

/-- The kind of a scalar or an enum. -/
def FieldKind.HoldsValue (kind : FieldKind) : Prop :=
  (∃ scalar, kind = .scalar scalar) ∨ ∃ name, kind = .enumeration name

theorem FieldKind.HoldsValue.isMap {kind : FieldKind} (h : kind.HoldsValue) :
    kind.isMap = false := by
  rcases h with ⟨scalar, rfl⟩ | ⟨name, rfl⟩ <;> rfl

def FieldDescriptor.HoldsOneValue (field : FieldDescriptor) : Prop :=
  field.kind.HoldsValue ∧ field.cardinality ≠ .repeated

namespace MemberAction

/-- The action sets the singular value with the number. -/
def sets (number : Nat) : MemberAction → Bool
  | .set field _ => field.number == number
  | _ => false

/-- The action suits the way in which its field is merged. -/
def Fits (s : GeneratedStruct) : MemberAction → Prop
  | .set field _ => field ∈ s.ownFields ∧ field.HoldsOneValue
  | .append field _ _ => field ∈ s.ownFields ∧
      ∀ u v, Member.mergeField s field u v = .ok (u.mergeRepeated v)
  | .keep _ => True
  | .join field _ => field ∈ s.ownFields ∧
      ∀ u v, Member.mergeField s field u v = .ok (u.mergePayload v)
  | .merge field t _ => field ∈ s.ownFields ∧ s.Refers t ∧
      ∀ u v, Member.mergeField s field u v
        = (mergeNested t u.nested v.nested).map (fun merged => { u with nested := merged })
  | .put field _ => field ∈ s.ownFields ∧
      ∀ u v, Member.mergeField s field u v = .ok (u.mergeMap v)
  | .choose _ oneof _ => oneof ∈ s.message.oneofs.map OneofDescriptor.name

end MemberAction

namespace Codegen

variable {explicitDefault : FieldKind → OptionValue → Option Value} {s : GeneratedStruct}
  {below : List EmittedDecoder} {field : FieldDescriptor} {action : MemberAction}
  {input rest rest' : Bytes}

theorem mem_ownFields (hfield : field ∈ s.message.fields) (h : field.oneofName = none) :
    field ∈ s.ownFields :=
  List.mem_filter.mpr ⟨hfield, by rw [h]; rfl⟩

theorem mem_ownFields_of_repeated (hs : s.Compiles) (hfield : field ∈ s.message.fields)
    (hrepeated : field.cardinality = .repeated) : field ∈ s.ownFields := by
  refine mem_ownFields hfield (hs.single field hfield ?_)
  rw [FieldDescriptor.isRepeatedLike, hrepeated]
  rfl

theorem append_fits (hs : s.Compiles) (hfield : field ∈ s.message.fields)
    (hkind : field.kind.isMap = false) (hrepeated : field.cardinality = .repeated)
    (items : List Element) (raws : List Bytes) : (MemberAction.append field items raws).Fits s :=
  ⟨mem_ownFields_of_repeated hs hfield hrepeated, mergeField_repeated hkind hrepeated⟩

theorem storeValue_fits (hs : s.Compiles) (hfield : field ∈ s.message.fields)
    (hkind : field.kind.HoldsValue) (value : Value) : (storeValue field value).Fits s := by
  unfold storeValue
  split
  · next hrepeated =>
    exact append_fits hs hfield hkind.isMap (beq_iff_eq.mp hrepeated) _ _
  · next hsingular =>
    cases honeof : field.oneofName with
    | some oneof => exact hs.oneofs field hfield oneof honeof
    | none =>
        exact ⟨mem_ownFields hfield honeof, hkind, by simpa using hsingular⟩

theorem readPlain_fits (hs : s.Compiles) (hfield : field ∈ s.message.fields)
    (hkind : field.kind.HoldsValue) {isPacked : Bool}
    (hpacked : isPacked = true → field.cardinality = .repeated)
    (h : readPlain s.file field isPacked input rest = .ok (action, rest')) : action.Fits s := by
  unfold readPlain at h
  split at h
  · next hyes =>
    obtain ⟨payload, -, hmake⟩ := reading_eq_ok.mp h
    obtain ⟨values, -, rfl⟩ := map_eq_ok.mp hmake
    exact append_fits hs hfield hkind.isMap (hpacked hyes) _ _
  · obtain ⟨value, -, hmake⟩ := reading_eq_ok.mp h
    cases hmake
    exact storeValue_fits hs hfield hkind value

theorem readClosedEnum_fits (hs : s.Compiles) (hfield : field ∈ s.message.fields)
    (hkind : field.kind.HoldsValue) {name : Bytes} {isPacked : Bool}
    (hpacked : isPacked = true → field.cardinality = .repeated)
    (h : readClosedEnum s.file field name isPacked input rest = .ok (action, rest')) :
    action.Fits s := by
  unfold readClosedEnum at h
  split at h
  · next hyes =>
    obtain ⟨payload, -, hmake⟩ := reading_eq_ok.mp h
    unfold readClosedEnumPayload at hmake
    split at hmake
    · cases hmake
    · cases hmake
      exact append_fits hs hfield hkind.isMap (hpacked hyes) _ _
  · obtain ⟨value, -, hmake⟩ := reading_eq_ok.mp h
    cases hmake
    split
    · exact storeValue_fits hs hfield hkind _
    · trivial

theorem storeMessage_fits (hs : s.Compiles) (hfield : field ∈ s.message.fields)
    (hkind : (∃ name, field.kind = .message name) ∨ ∃ name, field.kind = .group name)
    {payload : Bytes} (h : storeMessage s below field payload = .ok action) : action.Fits s := by
  unfold storeMessage at h
  split at h
  · next hrepeated =>
    obtain ⟨item, -, rfl⟩ := map_eq_ok.mp h
    have hmap : field.kind.isMap = false := by
      rcases hkind with ⟨name, hkind⟩ | ⟨name, hkind⟩ <;> rw [hkind] <;> rfl
    exact append_fits hs hfield hmap (beq_iff_eq.mp hrepeated) _ _
  · next hsingular =>
    have hsingular : field.cardinality ≠ .repeated := by simpa using hsingular
    split at h
    · next oneof honeof =>
      obtain ⟨element, -, rfl⟩ := map_eq_ok.mp h
      exact hs.oneofs field hfield oneof honeof
    · next honeof =>
      have hown := mem_ownFields hfield honeof
      split at h
      · next t htyped =>
        obtain ⟨message, -, rfl⟩ := map_eq_ok.mp h
        exact ⟨hown, GeneratedStruct.refers_of_typedSingular hfield htyped,
          mergeField_typed hkind hsingular htyped⟩
      · next htyped =>
        cases h
        exact ⟨hown, mergeField_payload hkind hsingular htyped⟩

theorem readField_fits (hs : s.Compiles) (hfield : field ∈ s.message.fields) {tag : Tag}
    (h : readField explicitDefault s below field tag input rest = .ok (action, rest')) :
    action.Fits s := by
  have hpacked : (field.isPackable && tag.wireType == .lengthDelimited) = true →
      field.cardinality = .repeated := by
    intro hyes
    have hpackable := (Bool.and_eq_true_iff.mp hyes).1
    exact beq_iff_eq.mp (Bool.and_eq_true_iff.mp hpackable).1
  unfold readField at h
  cases hkind : field.kind with
  | scalar scalar =>
      rw [hkind] at h
      exact readPlain_fits hs hfield (.inl ⟨scalar, hkind⟩) hpacked h
  | enumeration name =>
      simp only [hkind] at h
      split at h
      · exact readClosedEnum_fits hs hfield (.inr ⟨name, hkind⟩) hpacked h
      · exact readPlain_fits hs hfield (.inr ⟨name, hkind⟩) hpacked h
  | message name =>
      rw [hkind] at h
      obtain ⟨payload, -, hmake⟩ := reading_eq_ok.mp h
      exact storeMessage_fits hs hfield (.inl ⟨name, hkind⟩) hmake
  | group name =>
      rw [hkind] at h
      obtain ⟨payload, -, hmake⟩ := reading_eq_ok.mp h
      exact storeMessage_fits hs hfield (.inr ⟨name, hkind⟩) hmake
  | map key value =>
      rw [hkind] at h
      obtain ⟨payload, -, hmake⟩ := reading_eq_ok.mp h
      have hown : field ∈ s.ownFields := by
        refine mem_ownFields hfield (hs.single field hfield ?_)
        rw [FieldDescriptor.isRepeatedLike, hkind, FieldKind.isMap, Bool.or_true]
      unfold storeMapEntry at hmake
      split at hmake
      · cases hmake
      · split at hmake
        · cases hmake
        · cases hmake
          split
          · trivial
          · exact ⟨hown, mergeField_map hkind⟩

theorem readUnknownField_fits {tag : Tag}
    (h : readUnknownField below tag input rest = .ok (action, rest')) : action.Fits s := by
  obtain ⟨u, -, hmake⟩ := reading_eq_ok.mp h
  cases hmake
  trivial

/-- The cases of a switch on raw tags are for scalars and enums, the packed ones for repeated
fields. -/
theorem rawTagCase_cases {file : FileDescriptor} {rawTag : Nat} {isPacked : Bool}
    (h : rawTagCase file field rawTag = some isPacked) :
    field.kind.HoldsValue ∧ (isPacked = true → field.cardinality = .repeated) := by
  have hrepeated : field.isPackable = true → field.cardinality = .repeated :=
    fun hpackable => beq_iff_eq.mp (Bool.and_eq_true_iff.mp hpackable).1
  unfold rawTagCase at h
  cases hkind : field.kind with
  | scalar scalar =>
      refine ⟨.inl ⟨scalar, rfl⟩, ?_⟩
      simp only [hkind] at h
      split at h
      · next hp => exact fun _ => hrepeated (Bool.and_eq_true_iff.mp hp).1
      · split at h
        · cases h
          exact fun hf => by cases hf
        · cases h
  | enumeration name =>
      refine ⟨.inr ⟨name, rfl⟩, ?_⟩
      simp only [hkind] at h
      split at h
      · next hp =>
        intro _
        have hresolved := (Bool.and_eq_true_iff.mp hp).1
        unfold FieldDescriptor.resolvedPacked at hresolved
        split at hresolved
        · cases hresolved
        · next hpackable => exact hrepeated (by simpa using hpackable)
      · split at h
        · cases h
          exact fun hf => by cases hf
        · cases h
  | _ => simp only [hkind] at h; cases h

theorem readMember_fits (hs : s.Compiles)
    (h : readMember explicitDefault s below input = .ok (some (action, rest))) :
    action.Fits s := by
  unfold readMember at h
  split at h
  · unfold readMemberByRawTag at h
    split at h
    · cases h
    · split at h
      · cases h
      · split at h
        · next hswitch =>
          obtain ⟨hfield, hcase⟩ := switchCase_some hswitch
          obtain ⟨hkind, hpacked⟩ := rawTagCase_cases hcase
          exact readPlain_fits hs hfield hkind hpacked (map_some_eq_ok.mp h)
        · split at h
          · cases h
          · exact readUnknownField_fits (map_some_eq_ok.mp h)
  · unfold readMemberByNumber at h
    split at h
    · cases h
    · cases h
    · split at h
      · next hfind =>
        exact readField_fits hs (List.mem_of_find?_eq_some hfind) (map_some_eq_ok.mp h)
      · exact readUnknownField_fits (map_some_eq_ok.mp h)

theorem Reads.fits {actions : List MemberAction} (hs : s.Compiles)
    (h : Reads explicitDefault s below input actions) : ∀ action ∈ actions, action.Fits s := by
  induction h with
  | nil => exact fun action hmem => (List.not_mem_nil hmem).elim
  | cons hread _ ih => exact List.forall_mem_cons.mpr ⟨readMember_fits hs hread, ih⟩

end Codegen

/-! ## Pushing an action through a merge -/

namespace Member

/-- The member that decoding leaves where a merge leaves `merged`: without a presence flag the value
is the one that was read last, be it zero or not. -/
def carry (implicit carried : Bool) (v w merged : Member) : Member :=
  if implicit then { merged with value := if carried then w.value else v.value } else merged

/-- What a change does to the second of two members before they are merged it does to the merged
member. -/
def PushesThrough (merge : Member → Member → Except Error Member)
    (change : Member → Except Error Member) (implicit sets : Bool) : Prop :=
  ∀ carried v w w' merged', change w = .ok w' → merge v w' = .ok merged' →
    ∃ merged, merge v w = .ok merged ∧
      change (carry implicit carried v w merged)
        = .ok (carry implicit (carried || sets) v w' merged')

variable {merge : Member → Member → Except Error Member}

theorem isImplicit_eq {file : FileDescriptor} {field : FieldDescriptor}
    (hfield : field.HoldsOneValue) :
    Codegen.isImplicit file field = !Codegen.hasPresence file field := by
  have hsingular : (field.cardinality != .repeated) = true := by simpa using hfield.2
  rw [Codegen.isImplicit, hsingular, hfield.1.isMap, Bool.not_false, Bool.true_and, Bool.true_and]

theorem holdsOneValue_of_isImplicit {file : FileDescriptor} {field : FieldDescriptor}
    (h : Codegen.isImplicit file field = true) :
    field.HoldsOneValue ∧ field.oneofName = none := by
  simp only [Codegen.isImplicit, Bool.and_eq_true, bne_iff_ne, Bool.not_eq_true'] at h
  obtain ⟨⟨hsingular, hmap⟩, hpresence⟩ := h
  unfold Codegen.hasPresence at hpresence
  split at hpresence
  · cases hpresence
  · next hflags =>
    simp only [Bool.or_eq_true, not_or, Bool.not_eq_true, Option.isSome_eq_false_iff,
      Option.isNone_iff_eq_none] at hflags
    obtain ⟨⟨⟨⟨-, -⟩, honeof⟩, hmessage⟩, hgroup⟩ := hflags
    refine ⟨⟨?_, hsingular⟩, honeof⟩
    cases hkind : field.kind with
    | scalar scalar => exact .inl ⟨scalar, rfl⟩
    | enumeration name => exact .inr ⟨name, rfl⟩
    | message name => rw [hkind] at hmessage; cases hmessage
    | group name => rw [hkind] at hgroup; cases hgroup
    | map key value => rw [hkind] at hmap; cases hmap

theorem set_pushesThrough {file : FileDescriptor} {field : FieldDescriptor}
    (hfield : field.HoldsOneValue)
    (hmerge : ∀ u v, merge u v = .ok (mergeSingularValue file field u v)) (value : Value) :
    PushesThrough merge
      (fun own => .ok { own with
        value := value
        has := if Codegen.hasPresence file field then true else own.has })
      (Codegen.isImplicit file field) true := by
  intro carried v w w' merged' hchange hmerged
  cases hchange
  rw [hmerge] at hmerged
  cases hmerged
  refine ⟨_, hmerge v w, ?_⟩
  rw [isImplicit_eq hfield]
  unfold carry mergeSingularValue
  cases hpresence : Codegen.hasPresence file field with
  | true => cases w.has <;> simp
  | false => cases Codegen.defaultSkipCondition w.value <;>
      cases Codegen.defaultSkipCondition value <;> simp

theorem append_pushesThrough (hmerge : ∀ u v, merge u v = .ok (u.mergeRepeated v))
    (items : List Element) (implicit : Bool) :
    PushesThrough merge (fun own => .ok { own with items := own.items ++ items }) implicit false := by
  intro carried v w w' merged' hchange hmerged
  cases hchange
  rw [hmerge] at hmerged
  cases hmerged
  refine ⟨_, hmerge v w, ?_⟩
  unfold carry mergeRepeated
  cases implicit <;> simp

theorem join_pushesThrough (hmerge : ∀ u v, merge u v = .ok (u.mergePayload v)) (payload : Bytes)
    (implicit : Bool) :
    PushesThrough merge (fun own => .ok (own.joinPayload payload)) implicit false := by
  intro carried v w w' merged' hchange hmerged
  cases hchange
  rw [hmerge] at hmerged
  cases hmerged
  refine ⟨_, hmerge v w, ?_⟩
  unfold carry mergePayload
  cases hw : w.has with
  | true => cases hv : v.has <;> cases implicit <;> simp [joinPayload_eq, hw, hv]
  | false => cases implicit <;> simp [joinPayload_eq, hw]

theorem put_pushesThrough (hmerge : ∀ u v, merge u v = .ok (u.mergeMap v)) (entry : Value × Element)
    (implicit : Bool) :
    PushesThrough merge
      (fun own => .ok { own with entries := Codegen.putMapEntry own.entries entry }) implicit
      false := by
  intro carried v w w' merged' hchange hmerged
  cases hchange
  rw [hmerge] at hmerged
  cases hmerged
  refine ⟨_, hmerge v w, ?_⟩
  have hput : (Codegen.putMapEntry w.entries entry).foldl Codegen.putMapEntry v.entries
      = Codegen.putMapEntry (w.entries.foldl Codegen.putMapEntry v.entries) entry :=
    Upsert.foldl_assign_assign Codegen.sameKey_partialKey w.entries entry v.entries
  unfold carry mergeMap
  cases implicit <;> simp [hput]

/-- The typed messages are regrouped. -/
theorem merge_pushesThrough {t : GeneratedStruct} (ht : t.AllCompile)
    (hmerge : ∀ u v, merge u v
      = (mergeNested t u.nested v.nested).map (fun merged => { u with nested := merged }))
    (message : EmittedMessage) (implicit : Bool) :
    PushesThrough merge
      (fun own => (mergeNested t own.nested (some message)).map
        (fun merged => { own with nested := merged })) implicit false := by
  intro carried v w w' merged' hchange hmerged
  obtain ⟨wz, hwz, rfl⟩ := map_eq_ok.mp hchange
  rw [hmerge] at hmerged
  obtain ⟨last, hlast, rfl⟩ := map_eq_ok.mp hmerged
  obtain ⟨vw, hvw, hrest⟩ := (mergeNested_regroups ht _ hwz _ _).mp hlast
  refine ⟨{ v with nested := vw }, by rw [hmerge, hvw]; rfl, ?_⟩
  unfold carry
  cases implicit <;> simp [hrest, Except.map]

end Member

/-- The field with the number has no presence flag. -/
def GeneratedStruct.implicitAt (s : GeneratedStruct) (number : Nat) : Bool :=
  match s.message.findFieldByNumber number with
  | some field => Codegen.isImplicit s.file field
  | none => false

theorem GeneratedStruct.Compiles.implicitAt_eq {s : GeneratedStruct} (hs : s.Compiles)
    {field : FieldDescriptor} (hfield : field ∈ s.message.fields) :
    s.implicitAt field.number = Codegen.isImplicit s.file field := by
  unfold GeneratedStruct.implicitAt
  have hfind : s.message.findFieldByNumber field.number = some field := by
    unfold MessageDescriptor.findFieldByNumber
    cases hfind : s.message.fields.find? (fun other => other.number == field.number) with
    | none =>
        have hne := List.find?_eq_none.mp hfind field hfield
        simp at hne
    | some other =>
        have hnumber := List.find?_some hfind
        have heq := List.inj_on_of_nodup_map hs.unique (List.mem_of_find?_eq_some hfind) hfield
          (by simpa using hnumber)
        rw [heq]
  rw [hfind]

namespace EmittedMessage

/-- The struct that decoding leaves where a merge leaves `merged`; `carried` are the numbers of the
singular values that were read. -/
def carry (s : GeneratedStruct) (carried : Nat → Bool) (v w merged : EmittedMessage) :
    EmittedMessage :=
  { merged with
    member := fun number => Member.carry (s.implicitAt number) (carried number) (v.member number)
      (w.member number) (merged.member number) }

variable {s : GeneratedStruct} {v w w' merged' : EmittedMessage}

theorem changeMember_eq_ok {self next : EmittedMessage} {number : Nat}
    {change : Member → Except Error Member} : self.changeMember number change = .ok next ↔
      ∃ own, change (self.member number) = .ok own ∧
        { self with member := Function.update self.member number own } = next := by
  unfold changeMember
  cases change (self.member number) with
  | error e => simp
  | ok own => simp

/-- A change of one member, with raw fields that are kept. -/
theorem changeMember_merge (hs : s.Compiles) {field : FieldDescriptor} (hfield : field ∈ s.ownFields)
    {change : Member → Except Error Member} {sets : Nat → Bool} (raws : List Bytes)
    (hpush : Member.PushesThrough (Member.mergeField s field) change
      (s.implicitAt field.number) (sets field.number))
    (hsets : ∀ number, number ≠ field.number → sets number = false)
    (hact : { w with unknownFields := w.unknownFields ++ raws }.changeMember field.number change
      = .ok w')
    (hmerge : v.mergeFrom s w' = .ok merged') (carried : Nat → Bool) :
    ∃ merged, v.mergeFrom s w = .ok merged ∧
      { carry s carried v w merged with
        unknownFields := merged.unknownFields ++ raws }.changeMember field.number change
        = .ok (carry s (fun number => carried number || sets number) v w' merged') := by
  obtain ⟨own, hown, rfl⟩ := changeMember_eq_ok.mp hact
  have hmerges := (mergeFrom_eq_ok hs).mp hmerge
  have hlast := hmerges.member field hfield
  simp only [Function.update_self] at hlast
  obtain ⟨inner, hinner, hchange⟩ := hpush (carried field.number) _ _ _ _ hown hlast
  refine ⟨{ member := Function.update merged'.member field.number inner, oneof := merged'.oneof,
            unknownFields := v.unknownFields ++ w.unknownFields },
    (mergeFrom_eq_ok hs).mpr ⟨fun other hother => ?_, fun number hnumber => ?_, hmerges.oneof,
      fun raw hraw => hmerges.valid raw (List.mem_append_left _ hraw), rfl⟩, ?_⟩
  · by_cases hnumber : other.number = field.number
    · obtain rfl := List.inj_on_of_nodup_map hs.ownFields_unique hother hfield hnumber
      dsimp only
      rw [Function.update_self]
      exact hinner
    · have hsame := hmerges.member other hother
      dsimp only
      rw [Function.update_of_ne hnumber]
      simpa only [Function.update_of_ne hnumber] using hsame
  · have hne : number ≠ field.number := fun heq => hnumber (heq ▸ List.mem_map_of_mem hfield)
    dsimp only
    rw [Function.update_of_ne hne]
    exact hmerges.others number hnumber
  · refine changeMember_eq_ok.mpr ⟨Member.carry (s.implicitAt field.number)
      (carried field.number || sets field.number) (v.member field.number) own
      (merged'.member field.number), ?_, ?_⟩
    · simpa only [carry, Function.update_self] using hchange
    · simp only [carry]
      congr 1
      · funext number
        by_cases hnumber : number = field.number
        · subst hnumber
          simp only [Function.update_self]
        · simp only [Function.update_of_ne hnumber, hsets number hnumber, Bool.or_false]
      · rw [hmerges.unknown, List.append_assoc]

end EmittedMessage

/-! ## A whole input behind another -/

namespace Member

theorem carry_self (implicit : Bool) (v w : Member) : carry implicit false v w v = v := by
  obtain ⟨value, has, payload, nested, items, entries⟩ := v
  unfold carry
  cases implicit <;> simp

/-- Nothing is carried over from a member that has just been initialized. -/
theorem carry_init {s : GeneratedStruct} {field : FieldDescriptor} {v merged : Member}
    {value : Value} (hmerge : mergeField s field v
      { value := value, has := false, payload := [], nested := none, items := [], entries := [] }
      = .ok merged) (w : Member) :
    carry (Codegen.isImplicit s.file field) false v w merged = v := by
  obtain ⟨value', has, payload, nested, items, entries⟩ := v
  by_cases hone : field.HoldsOneValue
  · rw [mergeField_plain hone.1 hone.2] at hmerge
    cases hmerge
    rw [isImplicit_eq hone]
    unfold carry mergeSingularValue
    cases Codegen.hasPresence s.file field with
    | true => simp
    | false => cases Codegen.defaultSkipCondition value <;> simp
  -- in every other way of merging, nothing is taken from an empty member
  · suffices hsame : merged
        = { value := value', has := has, payload := payload, nested := nested, items := items,
            entries := entries } by
      rw [hsame, carry_self]
    by_cases hrepeated : field.cardinality = .repeated
    · cases hkind : field.kind with
      | map key value =>
          rw [mergeField_map hkind] at hmerge
          cases hmerge
          rfl
      | _ =>
          rw [mergeField_repeated (by rw [hkind]; rfl) hrepeated] at hmerge
          cases hmerge
          simp [mergeRepeated]
    · cases hkind : field.kind with
      | scalar scalar => exact (hone ⟨.inl ⟨scalar, hkind⟩, hrepeated⟩).elim
      | enumeration name => exact (hone ⟨.inr ⟨name, hkind⟩, hrepeated⟩).elim
      | map key value =>
          rw [mergeField_map hkind] at hmerge
          cases hmerge
          rfl
      | message name | group name =>
          have hmessage : (∃ name, field.kind = .message name) ∨ ∃ name, field.kind = .group name := by
            simp [hkind]
          cases htyped : s.typedSingular field with
          | none =>
              rw [mergeField_payload hmessage hrepeated htyped] at hmerge
              cases hmerge
              rfl
          | some t =>
              rw [mergeField_typed hmessage hrepeated htyped] at hmerge
              cases hmerge
              rfl

end Member

namespace EmittedMessage

variable {s : GeneratedStruct} {v w w' merged' : EmittedMessage} {action : MemberAction}

/-- A change of one member alone. -/
theorem changeMember_merge_alone (hs : s.Compiles) {field : FieldDescriptor}
    (hfield : field ∈ s.ownFields) {change : Member → Except Error Member} {sets : Nat → Bool}
    (hpush : Member.PushesThrough (Member.mergeField s field) change
      (s.implicitAt field.number) (sets field.number))
    (hsets : ∀ number, number ≠ field.number → sets number = false)
    (hact : w.changeMember field.number change = .ok w')
    (hmerge : v.mergeFrom s w' = .ok merged') (carried : Nat → Bool) :
    ∃ merged, v.mergeFrom s w = .ok merged ∧
      (carry s carried v w merged).changeMember field.number change
        = .ok (carry s (fun number => carried number || sets number) v w' merged') := by
  have hact' : { w with unknownFields := w.unknownFields ++ [] }.changeMember field.number change
      = .ok w' := by
    rw [List.append_nil]
    exact hact
  obtain ⟨merged, hmerged, hchange⟩ :=
    changeMember_merge hs hfield [] hpush hsets hact' hmerge carried
  rw [List.append_nil] at hchange
  exact ⟨merged, hmerged, hchange⟩

/-- What an action does to the second of two structs before they are merged it does to the merged
struct. -/
theorem act_merge (hs : s.AllCompile) (hfits : action.Fits s) (hact : w.act s action = .ok w')
    (hmerge : v.mergeFrom s w' = .ok merged') (carried : Nat → Bool) :
    ∃ merged, v.mergeFrom s w = .ok merged ∧
      (carry s carried v w merged).act s action
        = .ok (carry s (fun number => carried number || action.sets number) v w' merged') := by
  cases action with
  | set field value =>
      obtain ⟨hfield, hone⟩ := hfits
      have himplicit := hs.self.implicitAt_eq (List.mem_of_mem_filter hfield)
      simp only [act] at hact ⊢
      refine changeMember_merge_alone hs.self hfield ?_ (fun number hne => ?_) hact hmerge carried
      · rw [himplicit, MemberAction.sets, beq_self_eq_true]
        exact Member.set_pushesThrough hone (mergeField_plain hone.1 hone.2) value
      · exact beq_eq_false_iff_ne.mpr (Ne.symm hne)
  | append field items raws =>
      obtain ⟨hfield, hfield_merge⟩ := hfits
      simp only [act] at hact ⊢
      exact changeMember_merge hs.self hfield raws
        (Member.append_pushesThrough hfield_merge items _) (fun _ _ => rfl) hact hmerge carried
  | keep raw =>
      cases hact
      have hmerges := (mergeFrom_eq_ok hs.self).mp hmerge
      refine ⟨{ merged' with unknownFields := v.unknownFields ++ w.unknownFields },
        (mergeFrom_eq_ok hs.self).mpr ⟨hmerges.member, hmerges.others, hmerges.oneof,
          fun other hother => hmerges.valid other (List.mem_append_left _ hother), rfl⟩, ?_⟩
      have hunknown : v.unknownFields ++ w.unknownFields ++ [raw] = merged'.unknownFields := by
        rw [hmerges.unknown, List.append_assoc]
      simp only [act, carry, MemberAction.sets, Bool.or_false, hunknown]
  | join field payload =>
      obtain ⟨hfield, hfield_merge⟩ := hfits
      simp only [act] at hact ⊢
      exact changeMember_merge_alone hs.self hfield
        (Member.join_pushesThrough hfield_merge payload _) (fun _ _ => rfl) hact hmerge carried
  | merge field t message =>
      obtain ⟨hfield, hrefers, hfield_merge⟩ := hfits
      simp only [act] at hact ⊢
      exact changeMember_merge_alone hs.self hfield
        (Member.merge_pushesThrough (hs.of_refers hrefers) hfield_merge message _)
        (fun _ _ => rfl) hact hmerge carried
  | put field entry =>
      obtain ⟨hfield, hfield_merge⟩ := hfits
      simp only [act] at hact ⊢
      exact changeMember_merge_alone hs.self hfield
        (Member.put_pushesThrough hfield_merge entry _) (fun _ _ => rfl) hact hmerge carried
  | choose field oneof element =>
      cases hact
      have hmerges := (mergeFrom_eq_ok hs.self).mp hmerge
      refine ⟨{ merged' with oneof := mergeOneofs s.message v.oneof w.oneof },
        (mergeFrom_eq_ok hs.self).mpr
          ⟨hmerges.member, hmerges.others, rfl, hmerges.valid, hmerges.unknown⟩, ?_⟩
      -- the oneof is one of the struct, so that the merge takes it from the second struct
      have honeof : Function.update (mergeOneofs s.message v.oneof w.oneof) oneof
          (some (field.number, element)) = merged'.oneof := by
        have hmem : oneof ∈ s.message.oneofs.map OneofDescriptor.name := hfits
        rw [hmerges.oneof]
        funext name
        by_cases hname : name = oneof
        · subst hname
          simp only [Function.update_self, mergeOneofs_apply, if_pos hmem, Option.some_or]
        · simp only [Function.update_of_ne hname, mergeOneofs_apply]
      simp only [act, carry, MemberAction.sets, Bool.or_false, honeof]

/-- The same for actions in a row. -/
theorem actAll_merge (hs : s.AllCompile) {actions : List MemberAction}
    (hfits : ∀ action ∈ actions, action.Fits s) (hact : w.actAll s actions = .ok w')
    (hmerge : v.mergeFrom s w' = .ok merged') (carried : Nat → Bool) :
    ∃ merged, v.mergeFrom s w = .ok merged ∧
      (carry s carried v w merged).actAll s actions
        = .ok (carry s (fun number => carried number || actions.any (·.sets number)) v w'
            merged') := by
  induction actions generalizing w carried with
  | nil =>
      cases hact
      exact ⟨merged', hmerge, by simp only [actAll, List.any_nil, Bool.or_false]⟩
  | cons action rest ih =>
      obtain ⟨hfirst, hrest⟩ := List.forall_mem_cons.mp hfits
      obtain ⟨next, hnext, hlast⟩ := actAll_cons_eq_ok.mp hact
      obtain ⟨between, hbetween, hall⟩ :=
        ih hrest hlast (fun number => carried number || action.sets number)
      obtain ⟨merged, hmerged, hstep⟩ := act_merge hs hfirst hnext hbetween carried
      refine ⟨merged, hmerged, actAll_cons_eq_ok.mpr ⟨_, hstep, ?_⟩⟩
      simpa only [List.any_cons, Bool.or_assoc] using hall

/-- Merging a struct that has just been initialized changes nothing but the values that have no
presence flag. -/
theorem carry_initMessage (hs : s.Compiles)
    {explicitDefault : FieldKind → OptionValue → Option Value} {merged : EmittedMessage}
    (hmerge : v.mergeFrom s (Codegen.initMessage explicitDefault s) = .ok merged) :
    carry s (fun _ => false) v (Codegen.initMessage explicitDefault s) merged = v := by
  have hmerges := (mergeFrom_eq_ok hs).mp hmerge
  have hmember : ∀ number, Member.carry (s.implicitAt number) false (v.member number)
      ((Codegen.initMessage explicitDefault s).member number) (merged.member number)
      = v.member number := by
    intro number
    by_cases hown : number ∈ s.ownFields.map FieldDescriptor.number
    · obtain ⟨field, hfield, rfl⟩ := List.mem_map.mp hown
      rw [hs.implicitAt_eq (List.mem_of_mem_filter hfield)]
      exact Member.carry_init (hmerges.member field hfield) _
    · rw [hmerges.others number hown, Member.carry_self]
  have honeof : merged.oneof = v.oneof := by
    rw [hmerges.oneof]
    funext name
    rw [mergeOneofs_apply]
    exact ite_self _
  have hunknown : merged.unknownFields = v.unknownFields := by
    rw [hmerges.unknown]
    exact List.append_nil _
  obtain ⟨member, oneof, unknownFields⟩ := v
  unfold carry
  rw [honeof, hunknown, funext hmember]

end EmittedMessage

/-! ## Merging succeeds -/

/-- The unknown fields that a value keeps are well formed, also those of the messages in which
`mergeFrom` merges them. -/
inductive WellKept : GeneratedStruct → EmittedMessage → Prop where
  | intro {s : GeneratedStruct} {self : EmittedMessage}
      (valid : ∀ raw ∈ self.unknownFields, validateRawField raw = .ok ())
      (nested : ∀ field ∈ s.ownFields, ∀ t, s.typedSingular field = some t →
        ∀ message, (self.member field.number).nested = some message → WellKept t message) :
      WellKept s self

theorem WellKept.exists_mergeFrom {s : GeneratedStruct} {w : EmittedMessage} (h : WellKept s w)
    (hs : s.AllCompile) (v : EmittedMessage) : ∃ merged, v.mergeFrom s w = .ok merged := by
  induction h generalizing v with
  | @intro s w valid nested ih =>
      refine (exists_mergeFrom_eq_ok hs.self).mpr ⟨fun field hfield => ?_, valid⟩
      rcases mergeField_cases s field with ⟨op, hmerge, -⟩ | ⟨t, htyped, hmerge⟩
      · exact ⟨_, hmerge _ _⟩
      · have hsucceeds : ∃ inner, mergeNested t (v.member field.number).nested
            (w.member field.number).nested = .ok inner := by
          cases hw : (w.member field.number).nested with
          | none => exact ⟨_, rfl⟩
          | some other =>
              cases (v.member field.number).nested with
              | none => exact ⟨_, rfl⟩
              | some own =>
                  have ht := hs.of_refers
                    (GeneratedStruct.refers_of_typedSingular (List.mem_of_mem_filter hfield) htyped)
                  obtain ⟨merged, hmerged⟩ := ih field hfield t htyped other hw ht own
                  exact ⟨some merged, by rw [mergeNested_some_some, hmerged]; rfl⟩
        obtain ⟨inner, hinner⟩ := hsucceeds
        exact ⟨_, by rw [hmerge, hinner]; rfl⟩

/-! ## Merging against concatenation -/

/-- The merged value is what decoding leaves, if of the values without a presence flag those were
read that are not zero. -/
theorem EmittedMessage.carry_eq_self {s : GeneratedStruct} (hs : s.Compiles) {carried : Nat → Bool}
    {v w merged : EmittedMessage} (hmerge : v.mergeFrom s w = .ok merged)
    (hcarried : ∀ number, s.implicitAt number = true →
      carried number = Codegen.defaultSkipCondition (w.member number).value) :
    carry s carried v w merged = merged := by
  have hmerges := (mergeFrom_eq_ok hs).mp hmerge
  have hmember : ∀ number, Member.carry (s.implicitAt number) (carried number) (v.member number)
      (w.member number) (merged.member number) = merged.member number := by
    intro number
    cases himplicit : s.implicitAt number with
    | false => simp [Member.carry]
    | true =>
        have hfound := himplicit
        unfold GeneratedStruct.implicitAt at hfound
        split at hfound
        · next field hfind =>
          have hnumber : field.number = number := by simpa using List.find?_some hfind
          obtain ⟨hone, honeof⟩ := Member.holdsOneValue_of_isImplicit hfound
          have hown := Codegen.mem_ownFields (List.mem_of_find?_eq_some hfind) honeof
          have hvalue := hmerges.member field hown
          rw [mergeField_plain hone.1 hone.2, hnumber, Except.ok.injEq] at hvalue
          have hpresence : Codegen.hasPresence s.file field = false := by
            rwa [Member.isImplicit_eq hone, Bool.not_eq_true'] at hfound
          rw [hcarried number himplicit, ← hvalue]
          obtain ⟨value, has, payload, nested, items, entries⟩ := v.member number
          unfold Member.carry Member.mergeSingularValue
          cases Codegen.defaultSkipCondition (w.member number).value <;> simp [hpresence]
        · cases hfound
  obtain ⟨member, oneof, unknownFields⟩ := merged
  unfold carry
  rw [funext hmember]

/-- Decoding two inputs in a row, against merging what the one decodes to with what the other
decodes to: the values without a presence flag are the last ones that were read. -/
theorem Codegen.decodeEmitted_append {explicitDefault : FieldKind → OptionValue → Option Value}
    {s : GeneratedStruct} {a b : Bytes} {v w : EmittedMessage} (hs : s.AllCompile)
    (ha : decodeEmitted explicitDefault s a = .ok v)
    (hb : decodeEmitted explicitDefault s b = .ok w) (hkept : WellKept s w) :
    ∃ merged actions, v.mergeFrom s w = .ok merged ∧
      Reads explicitDefault s (decodersBelow explicitDefault recursionLimit) b actions ∧
      decodeEmitted explicitDefault s (a ++ b)
        = .ok (EmittedMessage.carry s (fun number => actions.any (·.sets number)) v w merged) ∧
      ((∀ number, s.implicitAt number = true → actions.any (·.sets number)
          = defaultSkipCondition (w.member number).value) →
        decodeEmitted explicitDefault s (a ++ b) = .ok merged) := by
  obtain ⟨first, hfirst, hv⟩ := decodeFromReader_eq_ok.mp ha
  obtain ⟨second, hsecond, hw⟩ := decodeFromReader_eq_ok.mp hb
  obtain ⟨merged, hmerged⟩ := hkept.exists_mergeFrom hs v
  obtain ⟨start, hstart, hall⟩ :=
    EmittedMessage.actAll_merge hs (hsecond.fits hs.self) hw hmerged (fun _ => false)
  rw [EmittedMessage.carry_initMessage hs.self hstart] at hall
  simp only [Bool.false_or] at hall
  have hdecode : decodeEmitted explicitDefault s (a ++ b)
      = .ok (EmittedMessage.carry s (fun number => second.any (·.sets number)) v w merged) :=
    decodeFromReader_eq_ok.mpr ⟨first ++ second, hfirst.append hsecond,
      EmittedMessage.actAll_append_eq_ok.mpr ⟨v, hv, hall⟩⟩
  refine ⟨merged, second, hmerged, hsecond, hdecode, fun hcarried => ?_⟩
  rw [hdecode, EmittedMessage.carry_eq_self hs.self hmerged hcarried]

/-! ## A field without a presence flag -/

namespace Codegen

def positionField : FieldDescriptor := { name := ascii "position", number := 1, kind := .scalar .int32 }

def dialMessage : MessageDescriptor := { name := ascii "Dial", fields := [positionField] }

def dialStruct : GeneratedStruct :=
  { ctx := { file := { (FileDescriptor.setSyntax {} .proto3) with messages := [dialMessage] } }
    message := dialMessage }

theorem dial_allCompile : dialStruct.AllCompile := by
  have hrefers : ∀ t, ¬ dialStruct.Refers t := by
    rintro t ⟨field, hfield, name, -, hkind⟩
    obtain rfl := List.mem_singleton.mp hfield
    rcases hkind with hkind | hkind | ⟨key, hkind⟩ <;> cases hkind
  intro t ht
  rcases Relation.ReflTransGen.cases_head ht with rfl | ⟨next, hnext, -⟩
  · refine ⟨by decide, fun field hfield name hname => ?_, fun field hfield hrepeated => ?_⟩
    · obtain rfl := List.mem_singleton.mp hfield
      cases hname
    · obtain rfl := List.mem_singleton.mp hfield
      cases hrepeated
  · exact (hrefers next hnext).elim

def noExplicitDefault (_ : FieldKind) (_ : OptionValue) : Option Value := none

/-- The position of a dial. -/
def positionOf (result : Except Error EmittedMessage) : Option (BitVec 32) :=
  match result with
  | .error _ => none
  | .ok dial =>
      match (dial.member 1).value with
      | .int32 position => some position
      | _ => none

theorem exists_of_positionOf {result : Except Error EmittedMessage} {position : BitVec 32}
    (h : positionOf result = some position) : ∃ dial, result = .ok dial := by
  cases result with
  | error e => cases h
  | ok dial => exact ⟨dial, rfl⟩

def keepsNothing (result : Except Error EmittedMessage) : Bool :=
  match result with
  | .error _ => false
  | .ok dial => dial.unknownFields.isEmpty

/-- The dial after the merge of what two inputs decode to. -/
def mergedDial (a b : Bytes) : Except Error EmittedMessage :=
  match decodeEmitted noExplicitDefault dialStruct a with
  | .error e => .error e
  | .ok first =>
      match decodeEmitted noExplicitDefault dialStruct b with
      | .error e => .error e
      | .ok second => first.mergeFrom dialStruct second

/-- A zero that is written is read, and is not merged. -/
theorem dial_merge_ne_concat : dialStruct.AllCompile ∧
    ¬ ∀ (a b : Bytes) (v w : EmittedMessage),
      decodeEmitted noExplicitDefault dialStruct a = .ok v →
      decodeEmitted noExplicitDefault dialStruct b = .ok w →
      v.mergeFrom dialStruct w = decodeEmitted noExplicitDefault dialStruct (a ++ b) := by
  refine ⟨dial_allCompile, fun hall => ?_⟩
  have hfirst : positionOf (decodeEmitted noExplicitDefault dialStruct [8, 5]) = some 5 := by
    decide
  have hsecond : positionOf (decodeEmitted noExplicitDefault dialStruct [8, 0]) = some 0 := by
    decide
  have hboth : positionOf (decodeEmitted noExplicitDefault dialStruct ([8, 5] ++ [8, 0]))
      = some 0 := by
    decide
  have hmerged : positionOf (mergedDial [8, 5] [8, 0]) = some 5 := by decide
  obtain ⟨v, hv⟩ := exists_of_positionOf hfirst
  obtain ⟨w, hw⟩ := exists_of_positionOf hsecond
  rw [mergedDial, hv] at hmerged
  simp only [hw] at hmerged
  rw [hall [8, 5] [8, 0] v w hv hw, hboth] at hmerged
  cases hmerged

theorem decodeEmitted_append_dial : ∃ v w merged actions,
    decodeEmitted noExplicitDefault dialStruct [8, 5] = .ok v ∧
    decodeEmitted noExplicitDefault dialStruct [8, 0] = .ok w ∧
    v.mergeFrom dialStruct w = .ok merged ∧
    Reads noExplicitDefault dialStruct (decodersBelow noExplicitDefault recursionLimit) [8, 0]
      actions ∧
    decodeEmitted noExplicitDefault dialStruct [8, 5, 8, 0]
      = .ok (EmittedMessage.carry dialStruct (fun number => actions.any (·.sets number)) v w
          merged) := by
  have hfirst : positionOf (decodeEmitted noExplicitDefault dialStruct [8, 5]) = some 5 := by
    decide
  have hsecond : positionOf (decodeEmitted noExplicitDefault dialStruct [8, 0]) = some 0 := by
    decide
  obtain ⟨v, hv⟩ := exists_of_positionOf hfirst
  obtain ⟨w, hw⟩ := exists_of_positionOf hsecond
  have hempty : keepsNothing (decodeEmitted noExplicitDefault dialStruct [8, 0]) = true := by
    decide
  rw [hw, keepsNothing, List.isEmpty_iff] at hempty
  have hkept : WellKept dialStruct w := by
    refine .intro (fun raw hraw => ?_) (fun field hfield t htyped => ?_)
    · rw [hempty] at hraw
      cases hraw
    · obtain rfl := List.mem_singleton.mp (List.mem_of_mem_filter hfield)
      cases htyped
  obtain ⟨merged, actions, hmerged, hreads, hdecode, -⟩ :=
    decodeEmitted_append dial_allCompile hv hw hkept
  exact ⟨v, w, merged, actions, hv, hw, hmerged, hreads, hdecode⟩

end Codegen

end Pbz
