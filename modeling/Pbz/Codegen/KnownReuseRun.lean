import Pbz.Codegen.KnownReuse

set_option autoImplicit false

/-! # Where the hot path stays in its buffers

`decode` and `decodeKnownReuse` are run side by side. The hot path reads the same fields up to the
first tag it does not know, and what it counts beyond `decode` on the way is the `surplus` of the
input. The run of the hot path stays in the buffers if and only if the surplus of each field is no
greater than the number of its elements behind that tag.
-/

namespace Pbz

namespace Codegen

/-! ## The cases of the hot path -/

section

variable {otherField : OtherField} {file : FileDescriptor} {message : MessageDescriptor}
  {field : FieldDescriptor}

theorem hotCase_true {rawTag : Nat} (h : hotCase field rawTag = some true) :
    field.cardinality = .repeated ∧ rawTag = rawTagValue field.number .lengthDelimited := by
  unfold hotCase at h
  split at h
  · split at h
    · next hp => simpa using hp
    · split at h <;> cases h
  · split at h
    · next hp => simpa using hp
    · split at h <;> cases h
  · cases h

theorem hotCase_false {rawTag : Nat} (h : hotCase field rawTag = some false) :
    rawTag = rawFieldTag field.number field.kind
      ∧ (field.cardinality = .repeated → rawTag ≠ rawTagValue field.number .lengthDelimited) := by
  unfold hotCase at h
  split at h
  · split at h
    · cases h
    · next hp =>
      split at h
      · next ht => exact ⟨beq_iff_eq.mp ht, fun hr hl => hp (by simp [hr, hl])⟩
      · cases h
  · split at h
    · cases h
    · next hp =>
      split at h
      · next ht => exact ⟨beq_iff_eq.mp ht, fun hr hl => hp (by simp [hr, hl])⟩
      · cases h
  · cases h

theorem hotCase_keyed : Keyed hotCase := by
  intro field rawTag isPacked h
  cases isPacked with
  | true => rw [(hotCase_true h).2, rawTagValue_div]
  | false => rw [(hotCase_false h).1, rawFieldTag, rawTagValue_div]

/-- The wire type behind a tag that the hot path knows. -/
def caseWireType (field : FieldDescriptor) (isPacked : Bool) : WireType :=
  if isPacked then .lengthDelimited else field.kind.wireType

theorem hotCase_rawTag {rawTag : Nat} {isPacked : Bool} (h : hotCase field rawTag = some isPacked) :
    rawTag = rawTagValue field.number (caseWireType field isPacked) := by
  cases isPacked with
  | true => exact (hotCase_true h).2
  | false => exact (hotCase_false h).1

/-- A message that has a hot path, with distinct numbers, whose oneof members name a oneof. -/
structure ReuseMessage (file : FileDescriptor) (message : MessageDescriptor) : Prop where
  canDecode : messageCanDecodeKnownReuse file message = true
  unique : (message.fields.map FieldDescriptor.number).Nodup
  oneofs : ∀ field ∈ message.fields, ∀ name, field.oneofName = some name →
    (message.findOneof name).isSome = true

namespace ReuseMessage

theorem fieldCanDecode (h : ReuseMessage file message) (hf : field ∈ message.fields) :
    fieldCanDecodeKnownReuse file field = true := by
  have hcan := h.canDecode
  unfold messageCanDecodeKnownReuse at hcan
  rw [Bool.and_eq_true, Bool.and_eq_true] at hcan
  exact List.all_eq_true.mp hcan.1.2 field hf

theorem noOneof (h : ReuseMessage file message) (hf : field ∈ message.fields) :
    field.oneofName = none := by
  have hcan := h.canDecode
  unfold messageCanDecodeKnownReuse at hcan
  rw [Bool.and_eq_true, Bool.and_eq_true] at hcan
  have hempty : message.oneofs = [] := List.isEmpty_iff.mp hcan.1.1
  cases hname : field.oneofName with
  | none => rfl
  | some name =>
      have hsome := h.oneofs field hf name hname
      rw [MessageDescriptor.findOneof, hempty] at hsome
      cases hsome

theorem flatMessage (h : ReuseMessage file message) : FlatMessage file message where
  unique := h.unique
  flat := by
    intro field hf
    have hcan := h.fieldCanDecode hf
    unfold isFlat
    rw [h.noOneof hf, Option.isNone_none, Bool.true_and]
    unfold fieldCanDecodeKnownReuse at hcan
    cases hkind : field.kind with
    | scalar scalar => rfl
    | enumeration name =>
        simp only [hkind] at hcan
        split at hcan <;> exact hcan
    | _ =>
        simp only [hkind] at hcan
        split at hcan <;> cases hcan

/-- The repeated fields of the hot path can be packed. -/
theorem isPackable (h : ReuseMessage file message) (hf : field ∈ message.fields)
    (hr : field.cardinality = .repeated) : field.isPackable = true := by
  have hcan := h.fieldCanDecode hf
  unfold fieldCanDecodeKnownReuse at hcan
  rw [if_pos (by simp [hr])] at hcan
  rw [FieldDescriptor.isPackable, hr]
  cases hkind : field.kind with
  | scalar scalar =>
      simp only [hkind] at hcan
      cases scalar with
      | string | bytes => cases hcan
      | _ => rfl
  | enumeration name => rfl
  | _ => simp only [hkind] at hcan; cases hcan

end ReuseMessage

/-! ## What `decode` reads of a known field -/

/-- The raw tag loop of `decode` keeps packed payloads of the field as unknown fields. -/
def keepsPacked (file : FileDescriptor) (message : MessageDescriptor) (field : FieldDescriptor) :
    Bool :=
  match field.kind with
  | .enumeration _ => messageCanFastRawTagDecode file message && !field.resolvedPacked file
  | _ => false

/-- A field behind a tag that the hot path knows is read by `decode` in the same way, or kept. -/
inductive ReadAlike (file : FileDescriptor) (message : MessageDescriptor)
    (field : FieldDescriptor) (rest : Bytes) : Bool → FieldAction → Bytes → Prop
  | one {value : Value} {rest' : Bytes} (h : readOne file field rest = .ok (value, rest')) :
      ReadAlike file message field rest false
        (if field.cardinality == .repeated then .append field [value] else .set field value) rest'
  | taken {payload : Bytes} {values : List Value} {rest' : Bytes}
      (hkeeps : keepsPacked file message field = false)
      (hread : readBytes rest = .ok (payload, rest'))
      (happend : packedAppend field payload = .ok values) :
      ReadAlike file message field rest true (.append field values) rest'
  | kept {payload raw rest' : Bytes} (hkeeps : keepsPacked file message field = true)
      (hread : readBytes rest = .ok (payload, rest')) :
      ReadAlike file message field rest true (.keep raw) rest'

theorem readAlike_of_readFlat {isPacked : Bool} {rest rest' : Bytes} {action : FieldAction}
    (hkeeps : isPacked = true → keepsPacked file message field = false)
    (h : readFlat file field isPacked rest = .ok (action, rest')) :
    ReadAlike file message field rest isPacked action rest' := by
  cases isPacked with
  | true =>
      obtain ⟨payload, values, hread, happend, rfl⟩ := readFlat_packed.mp h
      exact .taken (hkeeps rfl) hread happend
  | false =>
      obtain ⟨value, hread, rfl⟩ := readFlat_one.mp h
      exact .one hread

theorem keepsPacked_of_slow (h : messageCanFastRawTagDecode file message = false)
    (field : FieldDescriptor) : keepsPacked file message field = false := by
  unfold keepsPacked
  cases field.kind with
  | enumeration name => simp [h]
  | _ => rfl

/-- The raw tag loop has the cases of the hot path, but for packed payloads that it keeps. -/
theorem rawTagCase_of_hotCase (hreuse : ReuseMessage file message) (hf : field ∈ message.fields)
    {rawTag : Nat} {isPacked : Bool} (h : hotCase field rawTag = some isPacked) :
    (isPacked = true ∧ rawTagCase file field rawTag = none
        ∧ (keepsPacked file message field = messageCanFastRawTagDecode file message))
      ∨ (rawTagCase file field rawTag = some isPacked
        ∧ (isPacked = true → keepsPacked file message field = false)) := by
  have hflat := hreuse.flatMessage.flat field hf
  unfold rawTagCase keepsPacked
  cases hkind : field.kind with
  | scalar scalar =>
      refine .inr ⟨?_, fun _ => rfl⟩
      cases isPacked with
      | true =>
          obtain ⟨hr, htag⟩ := hotCase_true h
          simp only
          rw [if_pos (by simp [hreuse.isPackable hf hr, htag])]
      | false =>
          obtain ⟨htag, hnot⟩ := hotCase_false h
          simp only
          rw [if_neg, if_pos (by rw [htag, hkind]; exact beq_self_eq_true _)]
          intro hp
          obtain ⟨hpackable, hl⟩ := Bool.and_eq_true_iff.mp hp
          have hr : field.cardinality = .repeated := by
            simpa using (Bool.and_eq_true_iff.mp hpackable).1
          exact hnot hr (beq_iff_eq.mp hl)
  | enumeration name =>
      cases isPacked with
      | true =>
          obtain ⟨hr, htag⟩ := hotCase_true h
          cases hpacked : field.resolvedPacked file with
          | true => exact .inr ⟨by simp [htag], fun _ => by simp⟩
          | false =>
              refine .inl ⟨rfl, ?_, by simp⟩
              simp only [Bool.false_and, Bool.false_eq_true, if_false]
              rw [if_neg]
              intro hv
              have heq := beq_iff_eq.mp hv
              rw [htag] at heq
              exact absurd (rawTagValue_injective heq).2 (by decide)
      | false =>
          obtain ⟨htag, hnot⟩ := hotCase_false h
          refine .inr ⟨?_, fun hp => by cases hp⟩
          simp only
          rw [if_neg, if_pos (by rw [htag, hkind]; exact beq_self_eq_true _)]
          intro hp
          obtain ⟨-, hl⟩ := Bool.and_eq_true_iff.mp hp
          rw [htag, hkind] at hl
          exact absurd (rawTagValue_injective (beq_iff_eq.mp hl)).2 WireType.noConfusion
  | _ =>
      unfold isFlat at hflat
      rw [hkind] at hflat
      simp at hflat

theorem readNext_alike (hreuse : ReuseMessage file message) {input rest rest' : Bytes}
    {rawTag : Nat} {isPacked : Bool} {action : FieldAction}
    (htag : readRawTag input = .ok (rawTag, rest))
    (hswitch : switchCase message hotCase rawTag = some (field, isPacked))
    (hread : readNext otherField file message input = .ok (some (action, rest'))) :
    ReadAlike file message field rest isPacked action rest' := by
  obtain ⟨hf, hcase⟩ := switchCase_some hswitch
  have hnumber := hotCase_keyed _ _ _ hcase
  rw [readRawTag_eq] at htag
  unfold readNext at hread
  split at hread
  · next hfast =>
    obtain ⟨rawTag', rest₁, htag', hfield⟩ := readByRawTag_some hread
    rw [htag] at htag'
    cases htag'
    have hsame := switchCase_of_field hreuse.flatMessage (@rawTagCase_keyed file) hf hnumber
    rcases rawTagCase_of_hotCase hreuse hf hcase with ⟨rfl, hnone, hkeeps⟩ | ⟨hsome, hkeeps⟩
    · -- the payload is skipped like that of an unknown field
      rw [hnone, Option.map_none] at hsame
      rcases hfield with ⟨field', isPacked', hswitch', -⟩ | ⟨-, tag, hdecode, hskip⟩
      · rw [hsame] at hswitch'
        cases hswitch'
      · obtain ⟨hrest, rfl⟩ := readUnknown_ok.mp hskip
        rw [hotCase_rawTag hcase] at hdecode
        rw [decode_rawTagValue hdecode] at hrest
        obtain ⟨payload, hpayload⟩ := restOf_ok hrest
        exact .kept (by rw [hkeeps, hfast]) hpayload
    · rw [hsome, Option.map_some] at hsame
      rcases hfield with ⟨field', isPacked', hswitch', hflat⟩ | ⟨hswitch', -⟩
      · rw [hsame] at hswitch'
        cases hswitch'
        exact readAlike_of_readFlat hkeeps hflat
      · rw [hsame] at hswitch'
        cases hswitch'
  · next hslow =>
    obtain ⟨tag, rest₁, hnext, hfield⟩ := readByNumber_some hreuse.flatMessage hread
    obtain ⟨rawTag', htag', -, hdecode⟩ := nextTag_some hnext
    rw [htag] at htag'
    cases htag'
    rw [hotCase_rawTag hcase] at hdecode
    obtain rfl := decode_rawTagValue hdecode
    have hfind := hreuse.flatMessage.findFieldByNumber hf
    have hkeeps := keepsPacked_of_slow (by simpa using hslow) field
    rcases hfield with ⟨field', hfind', hflat⟩ | ⟨hfind', -⟩
    · rw [hfind] at hfind'
      cases hfind'
      refine readAlike_of_readFlat (fun _ => hkeeps) ?_
      convert hflat using 2
      cases isPacked with
      | true =>
          rw [hreuse.isPackable hf (hotCase_true hcase).1]
          rfl
      | false =>
          -- a repeated field with the tag of a packed payload would be packed
          cases hpackable : field.isPackable with
          | false => rfl
          | true =>
              obtain ⟨htag', hnot⟩ := hotCase_false hcase
              have hr : field.cardinality = .repeated := by
                simpa using (Bool.and_eq_true_iff.mp hpackable).1
              have hne : field.kind.wireType ≠ .lengthDelimited := by
                intro hwire
                exact hnot hr (by rw [htag', rawFieldTag, hwire])
              simp [caseWireType, hne]
    · rw [hfind] at hfind'
      cases hfind'

end

/-! ## The surplus of an input -/

/-- By how many elements the hot path has counted more than `decode`, by the number of the field,
and whether `decode` has kept a packed payload that the hot path takes. -/
structure Surplus where
  count : Nat → Nat := fun _ => 0
  kept : Bool := false

def Surplus.add (self : Surplus) (field : FieldDescriptor) (count : Nat) (kept : Bool) :
    Surplus :=
  { count := Function.update self.count field.number (self.count field.number + count)
    kept := self.kept || kept }

section

variable (file : FileDescriptor) (message : MessageDescriptor)

/-- How many elements more than `decode` the hot path counts in a packed payload: one for each byte
of a `bool` that is not the last one of its varint, and every value of a payload that `decode`
keeps. -/
def packedSurplus (field : FieldDescriptor) (payload : Bytes) : Nat :=
  match field.kind with
  | .scalar .bool => payload.countP (fun byte => !endsVarint byte)
  | .enumeration _ =>
      if keepsPacked file message field then startedValues readEnumElement payload else 0
  | _ => 0

/-- `decode` keeps the payload, and the hot path does not get to its end. -/
def stopsInside (field : FieldDescriptor) (payload : Bytes) : Bool :=
  keepsPacked file message field &&
    match packedValues readEnumElement payload with
    | .error _ => true
    | .ok _ => false

def surplusField (self : Surplus) (field : FieldDescriptor) (isPacked : Bool) (rest : Bytes) :
    Loop.Step UInt8 Surplus Error :=
  if isPacked then
    match readBytes rest with
    | .error e => .fail self e
    | .ok (payload, rest) =>
        let added := self.add field (packedSurplus file message field payload)
          (keepsPacked file message field)
        if stopsInside file message field payload then .done added rest else .next added rest
  else match readOne file field rest with
    | .error e => .fail self e
    | .ok (_, rest) => .next self rest

/-- One field in front of the first tag that the hot path does not know. -/
def surplusPass (self : Surplus) (input : Bytes) : Loop.Step UInt8 Surplus Error :=
  if input.isEmpty then .done self input
  else match readRawTag input with
    | .error e => .fail self e
    | .ok (rawTag, rest) =>
        match switchCase message hotCase rawTag with
        | none => .done self input
        | some (field, isPacked) => surplusField file message self field isPacked rest

end

section

variable {otherField : OtherField} {file : FileDescriptor} {message : MessageDescriptor}
  {field : FieldDescriptor}

section Passes

variable {input rest : Bytes} {rawTag : Nat} (hne : input ≠ [])
  (htag : readRawTag input = .ok (rawTag, rest))

include hne htag

theorem surplusPass_none (hswitch : switchCase message hotCase rawTag = none) (s : Surplus) :
    surplusPass file message s input = .done s input := by
  rw [surplusPass, if_neg (by simpa using hne), htag]
  simp only [hswitch]

theorem surplusPass_some {isPacked : Bool}
    (hswitch : switchCase message hotCase rawTag = some (field, isPacked)) (s : Surplus) :
    surplusPass file message s input = surplusField file message s field isPacked rest := by
  rw [surplusPass, if_neg (by simpa using hne), htag]
  simp only [hswitch]

theorem hotPass_none (hswitch : switchCase message hotCase rawTag = none) (hot : HotState) :
    hotPass file message hot input = .fail hot (.error .invalidWireType) := by
  rw [hotPass, if_neg (by simpa using hne), htag]
  simp only [hswitch]

theorem hotPass_some {isPacked : Bool}
    (hswitch : switchCase message hotCase rawTag = some (field, isPacked)) (hot : HotState) :
    hotPass file message hot input = hotField file hot field isPacked rest := by
  rw [hotPass, if_neg (by simpa using hne), htag]
  simp only [hswitch]

end Passes

theorem Surplus.le_add (self : Surplus) (field : FieldDescriptor) (count : Nat) (kept : Bool)
    (number : Nat) : self.count number ≤ (self.add field count kept).count number := by
  simp only [Surplus.add]
  by_cases h : number = field.number
  · rw [h, Function.update_self]
    exact Nat.le_add_right _ _
  · rw [Function.update_of_ne h]

/-- The surplus behind a field that `decode` has read. -/
theorem surplusField_alike {isPacked : Bool} {rest rest' : Bytes} {action : FieldAction}
    (h : ReadAlike file message field rest isPacked action rest') (s : Surplus) :
    ∃ s', (∀ number, s.count number ≤ s'.count number) ∧
      (surplusField file message s field isPacked rest = .next s' rest'
        ∨ surplusField file message s field isPacked rest = .done s' rest') := by
  have hpayload : ∀ {payload : Bytes}, readBytes rest = .ok (payload, rest') →
      ∃ s', (∀ number, s.count number ≤ s'.count number) ∧
        (surplusField file message s field true rest = .next s' rest'
          ∨ surplusField file message s field true rest = .done s' rest') := by
    intro payload hread
    refine ⟨_, s.le_add field (packedSurplus file message field payload)
      (keepsPacked file message field), ?_⟩
    rw [surplusField, if_pos rfl, hread]
    simp only
    split
    · exact .inr rfl
    · exact .inl rfl
  cases h with
  | one hread =>
      refine ⟨s, fun _ => le_rfl, .inl ?_⟩
      rw [surplusField, if_neg (by decide), hread]
  | taken hkeeps hread happend => exact hpayload hread
  | kept hkeeps hread => exact hpayload hread

theorem surplusField_length {s s' : Surplus} {isPacked : Bool} {rest rest' : Bytes}
    (h : surplusField file message s field isPacked rest = .next s' rest') :
    rest'.length < rest.length := by
  unfold surplusField at h
  split at h
  · cases hread : readBytes rest with
    | error e => rw [hread] at h; cases h
    | ok pair =>
        rw [hread] at h
        simp only at h
        split at h
        · cases h
        · cases h
          exact readBytes_consumes _ _ _ hread
  · cases hread : readOne file field rest with
    | error e => rw [hread] at h; cases h
    | ok pair =>
        rw [hread] at h
        cases h
        exact readOne_consumes file field _ _ _ hread

theorem surplusPass_consuming : Loop.Consuming (surplusPass file message) := by
  intro s input s' rest hpass
  unfold surplusPass at hpass
  split at hpass
  · cases hpass
  · cases htag : readRawTag input with
    | error e => rw [htag] at hpass; cases hpass
    | ok pair =>
        rw [htag] at hpass
        simp only at hpass
        have hlt : pair.2.length < input.length :=
          readVarint_consumes _ pair.1 _ (by rw [← readRawTag_eq, htag])
        split at hpass
        · cases hpass
        · have := surplusField_length hpass
          omega

/-- The tag in front of an input that `decode` reads a field of. -/
theorem readRawTag_of_readNext (hflat : FlatMessage file message) {input rest : Bytes}
    {action : FieldAction}
    (h : readNext otherField file message input = .ok (some (action, rest))) :
    input ≠ [] ∧ ∃ rawTag rest', readRawTag input = .ok (rawTag, rest') := by
  have hne : input ≠ [] := by
    rintro rfl
    have hlt := readNext_length hflat h
    simp at hlt
  refine ⟨hne, ?_⟩
  unfold readNext at h
  split at h
  · obtain ⟨rawTag, rest', htag, -⟩ := readByRawTag_some h
    exact ⟨rawTag, rest', by rw [readRawTag_eq, htag]⟩
  · obtain ⟨tag, rest', htag, -⟩ := readByNumber_some hflat h
    obtain ⟨rawTag, hraw, -, -⟩ := nextTag_some htag
    exact ⟨rawTag, rest', by rw [readRawTag_eq, hraw]⟩

theorem elements_of_readNext (hflat : FlatMessage file message) {self decoded : EmittedStruct}
    {input rest end' : Bytes} {action : FieldAction}
    (h : readNext otherField file message input = .ok (some (action, rest)))
    (hrun : Loop.run (decodePass otherField file message) (self.apply file action) rest
      = (decoded, .ok end')) (number : Nat) :
    elements otherField file message input number
      = added number action + elements otherField file message rest number := by
  have hinput : Loop.run (decodePass otherField file message) self input = (decoded, .ok end') := by
    rw [Loop.run_of_next (decodePass_consuming hflat) (decodePass_next h), hrun]
  have hwhole := length_items_decoded hflat hinput number
  have hrest := length_items_decoded hflat hrun number
  rw [length_items_apply (readNext_isPlain hflat h)] at hrest
  omega

/-- On an input that `decode` accepts the surplus is counted up to a place in it. -/
theorem surplus_run (hreuse : ReuseMessage file message) {self decoded : EmittedStruct}
    {input end' : Bytes}
    (h : Loop.run (decodePass otherField file message) self input = (decoded, .ok end'))
    (s : Surplus) :
    ∃ s' rest, Loop.run (surplusPass file message) s input = (s', .ok rest)
      ∧ (∀ number, s.count number ≤ s'.count number)
      ∧ ∀ number, elements otherField file message rest number
        ≤ elements otherField file message input number := by
  have hflat := hreuse.flatMessage
  induction hn : input.length using Nat.strong_induction_on generalizing self s input with
  | _ n ih =>
      rcases decode_cases hflat h with ⟨rfl, rfl⟩ | ⟨action, rest, hread, hrest⟩
      · exact ⟨s, [], Loop.run_of_done rfl, fun _ => le_rfl, fun _ => le_rfl⟩
      · obtain ⟨hne, rawTag, rest', htag⟩ := readRawTag_of_readNext hflat hread
        cases hswitch : switchCase message hotCase rawTag with
        | none =>
            exact ⟨s, input, Loop.run_of_done (surplusPass_none hne htag hswitch s),
              fun _ => le_rfl, fun _ => le_rfl⟩
        | some pair =>
            obtain ⟨field, isPacked⟩ := pair
            have helements := elements_of_readNext hflat hread hrest
            have hpass := @surplusPass_some file _ _ _ _ _ hne htag _ hswitch s
            obtain ⟨s', hle, hnext | hdone⟩ :=
              surplusField_alike (readNext_alike hreuse htag hswitch hread) s
            · have hlt := readNext_length hflat hread
              obtain ⟨s'', rest'', hrun, hle', hmono⟩ := ih rest.length (by omega) hrest s' rfl
              refine ⟨s'', rest'', ?_, fun number => (hle number).trans (hle' number),
                fun number => ?_⟩
              · rw [Loop.run_of_next surplusPass_consuming (hpass.trans hnext), hrun]
              · have := hmono number
                have := helements number
                omega
            · refine ⟨s', rest, Loop.run_of_done (hpass.trans hdone), hle, fun number => ?_⟩
              have := helements number
              omega

end

/-! ## The two runs side by side -/

/-- What the hot path holds beside what `decode` holds, after the same fields of the input. -/
structure Alike (file : FileDescriptor) (message : MessageDescriptor) (current : EmittedStruct)
    (hot : HotState) (s : Surplus) : Prop where
  value : ∀ field ∈ message.fields, field.cardinality ≠ .repeated →
    hot.value field.number = current.value field.number
  has : ∀ field ∈ message.fields, hasPresence file field = true →
    hot.has field.number = current.has field.number
  used : ∀ field ∈ message.fields, field.cardinality = .repeated →
    (hot.buffer field.number).used = (current.items field.number).length + s.count field.number
  contents : ∀ field ∈ message.fields, field.cardinality = .repeated →
    s.count field.number = 0 → (hot.buffer field.number).contents = current.items field.number
  fixed : ∀ field ∈ message.fields, IsFixedWidth field → s.count field.number = 0
  kept : current.unknownFields = [] ↔ s.kept = false

section

variable {otherField : OtherField} {file : FileDescriptor} {message : MessageDescriptor}
  {field : FieldDescriptor} {self : EmittedStruct} {hot : HotState} {s : Surplus}

/-- A singular field is set in both. -/
theorem Alike.set (h : Alike file message self hot s) (field : FieldDescriptor) (value : Value) :
    Alike file message (self.set file field value) (hot.set file field value) s where
  value := by
    intro other ho hr
    simp only [EmittedStruct.set, HotState.set]
    by_cases hn : other.number = field.number
    · rw [hn, Function.update_self, Function.update_self]
    · rw [Function.update_of_ne hn, Function.update_of_ne hn]
      exact h.value other ho hr
  has := by
    intro other ho hp
    simp only [EmittedStruct.set, HotState.set]
    split
    · by_cases hn : other.number = field.number
      · rw [hn, Function.update_self, Function.update_self]
      · rw [Function.update_of_ne hn, Function.update_of_ne hn]
        exact h.has other ho hp
    · exact h.has other ho hp
  used := h.used
  contents := h.contents
  fixed := h.fixed
  kept := h.kept

/-- Elements are appended to the slice of a field, and written into its buffer. -/
theorem Alike.write (h : Alike file message self hot s) (hflat : FlatMessage file message)
    (hf : field ∈ message.fields) {values : List Value} {b : FilledBuffer Value} {count : Nat}
    (hused : b.used = (self.items field.number).length + s.count field.number
      + (values.length + count))
    (hcontents : s.count field.number = 0 → count = 0 →
      b.contents = self.items field.number ++ values)
    (hfixed : IsFixedWidth field → count = 0) :
    Alike file message (self.append field values) (hot.withBuffer field b)
      (s.add field count false) where
  value := h.value
  has := h.has
  used := by
    intro other ho hr
    simp only [EmittedStruct.append, HotState.withBuffer, Surplus.add]
    by_cases hn : other.number = field.number
    · rw [hn, Function.update_self, Function.update_self, Function.update_self,
        List.length_append, hused]
      omega
    · rw [Function.update_of_ne hn, Function.update_of_ne hn, Function.update_of_ne hn]
      exact h.used other ho hr
  contents := by
    intro other ho hr hzero
    simp only [EmittedStruct.append, HotState.withBuffer, Surplus.add] at hzero ⊢
    by_cases hn : other.number = field.number
    · rw [hn, Function.update_self] at hzero
      rw [hn, Function.update_self, Function.update_self]
      exact hcontents (by omega) (by omega)
    · rw [Function.update_of_ne hn] at hzero
      rw [Function.update_of_ne hn, Function.update_of_ne hn]
      exact h.contents other ho hr hzero
  fixed := by
    intro other ho hw
    simp only [Surplus.add]
    by_cases hn : other.number = field.number
    · obtain rfl := hflat.eq_of_number ho hf hn
      rw [Function.update_self, h.fixed other ho hw, hfixed hw]
    · rw [Function.update_of_ne hn]
      exact h.fixed other ho hw
  kept := by
    simp only [EmittedStruct.append, Surplus.add, Bool.or_false]
    exact h.kept

/-- `decode` keeps a payload whose values the hot path writes. -/
theorem Alike.keep (h : Alike file message self hot s) (hflat : FlatMessage file message)
    (hf : field ∈ message.fields) (hw : ¬ IsFixedWidth field) {raw : Bytes}
    {b : FilledBuffer Value} {count : Nat}
    (hused : b.used = (self.items field.number).length + s.count field.number + count)
    (hcontents : count = 0 → b.contents = (hot.buffer field.number).contents) :
    Alike file message { self with unknownFields := self.unknownFields ++ [raw] }
      (hot.withBuffer field b) (s.add field count true) where
  value := h.value
  has := h.has
  used := by
    intro other ho hr
    simp only [HotState.withBuffer, Surplus.add]
    by_cases hn : other.number = field.number
    · rw [hn, Function.update_self, Function.update_self, hused]
      omega
    · rw [Function.update_of_ne hn, Function.update_of_ne hn]
      exact h.used other ho hr
  contents := by
    intro other ho hr hzero
    simp only [HotState.withBuffer, Surplus.add] at hzero ⊢
    by_cases hn : other.number = field.number
    · obtain rfl := hflat.eq_of_number ho hf hn
      rw [Function.update_self] at hzero
      rw [Function.update_self, hcontents (by omega)]
      exact h.contents other ho hr (by omega)
    · rw [Function.update_of_ne hn] at hzero
      rw [Function.update_of_ne hn]
      exact h.contents other ho hr hzero
  fixed := by
    intro other ho hw'
    simp only [Surplus.add]
    by_cases hn : other.number = field.number
    · obtain rfl := hflat.eq_of_number ho hf hn
      exact absurd hw' hw
    · rw [Function.update_of_ne hn]
      exact h.fixed other ho hw'
  kept := by simp [Surplus.add]

/-- How a pass of the hot path ended, over a field that `decode` has read. -/
inductive HotOutcome (file : FileDescriptor) (message : MessageDescriptor)
    (self' : EmittedStruct) (hot : HotState) (s' : Surplus) (rest' : Bytes) :
    Loop.Step UInt8 HotState Fault → Loop.Step UInt8 Surplus Error → Prop
  | next {hot' : HotState} (alike : Alike file message self' hot' s')
      (sizes : ∀ number, (hot'.buffer number).size = (hot.buffer number).size) :
      HotOutcome file message self' hot s' rest' (.next hot' rest') (.next s' rest')
  | overrun {field : FieldDescriptor} {hot' : HotState} {step : Loop.Step UInt8 Surplus Error}
      (mem : field ∈ message.fields) (repeated : field.cardinality = .repeated)
      (outside : (hot.buffer field.number).size
        < (self'.items field.number).length + s'.count field.number)
      (counted : step = .next s' rest' ∨ step = .done s' rest') :
      HotOutcome file message self' hot s' rest' (.fail hot' .outOfBounds) step
  | stop {hot' : HotState} {e : Error}
      (inside : ∀ field ∈ message.fields, field.cardinality = .repeated →
        (self'.items field.number).length + s'.count field.number
          ≤ (hot.buffer field.number).size)
      (begun : ∃ field ∈ message.fields, field.cardinality = .repeated
        ∧ 0 < s'.count field.number) :
      HotOutcome file message self' hot s' rest' (.fail hot' (.error e)) (.done s' rest')

theorem Alike.inside (h : Alike file message self hot s) (hf : field ∈ message.fields)
    (hr : field.cardinality = .repeated) :
    (self.items field.number).length + s.count field.number
      ≤ (hot.buffer field.number).size := by
  rw [← h.used field hf hr]
  exact (hot.buffer field.number).fits

theorem size_withBuffer {b : FilledBuffer Value} (h : b.size = (hot.buffer field.number).size)
    (number : Nat) :
    ((hot.withBuffer field b).buffer number).size = (hot.buffer number).size := by
  simp only [HotState.withBuffer]
  by_cases hn : number = field.number
  · rw [hn, Function.update_self, h]
  · rw [Function.update_of_ne hn]

/-- The bytes of a payload that `decode` takes are its values and the surplus. -/
theorem hotCount_eq {payload : Bytes} {values : List Value}
    (hkeeps : keepsPacked file message field = false)
    (happend : packedAppend field payload = .ok values) :
    hotCount field payload values
      = values.length + packedSurplus file message field payload := by
  unfold hotCount packedSurplus
  unfold packedAppend at happend
  cases hkind : field.kind with
  | scalar scalar =>
      rw [hkind] at happend
      cases scalar with
      | bool =>
          rw [if_pos rfl, packedBool_length happend]
          simp [List.length_eq_countP_add_countP endsVarint]
      | _ => rw [if_neg (by simp)]; rfl
  | enumeration name => simp [hkeeps]
  | _ => rw [hkind] at happend; cases happend

theorem packedSurplus_of_fixedWidth (h : IsFixedWidth field) (payload : Bytes) :
    packedSurplus file message field payload = 0 := by
  obtain ⟨scalar, width, hkind, hwidth⟩ := h
  unfold packedSurplus
  rw [hkind]
  cases scalar with
  | bool => cases hwidth
  | _ => rfl

theorem not_fixedWidth_of_keeps (h : keepsPacked file message field = true) :
    ¬ IsFixedWidth field := by
  rintro ⟨scalar, width, hkind, -⟩
  unfold keepsPacked at h
  rw [hkind] at h
  cases h

theorem kind_of_keeps (h : keepsPacked file message field = true) :
    ∃ name, field.kind = .enumeration name := by
  unfold keepsPacked at h
  cases hkind : field.kind with
  | enumeration name => exact ⟨name, rfl⟩
  | _ => rw [hkind] at h; cases h

/-- One value of a field. -/
theorem hotField_one (halike : Alike file message self hot s) (hflat : FlatMessage file message)
    (hf : field ∈ message.fields) {rest rest' : Bytes} {value : Value}
    (hread : readOne file field rest = .ok (value, rest')) :
    ∃ s', HotOutcome file message (self.apply file
        (if field.cardinality == .repeated then .append field [value] else .set field value))
      hot s' rest' (hotField file hot field false rest)
      (surplusField file message s field false rest) := by
  have hsurplus : surplusField file message s field false rest = .next s rest' := by
    rw [surplusField, if_neg (by decide), hread]
  rw [hsurplus, hotField, if_neg Bool.false_ne_true]
  by_cases hr : field.cardinality = .repeated
  · rw [if_pos (by simp [hr]), if_pos (by simp [hr])]
    have hused := halike.used field hf hr
    have hzero : s.add field 0 false = s := by
      simp [Surplus.add, Function.update_eq_self]
    by_cases hroom : (hot.buffer field.number).used < (hot.buffer field.number).size
    · obtain ⟨b, hpush, hcontents, hpushed, hsize⟩ := FilledBuffer.push_of_lt hroom value
      have hwrite : writeRead (readOne file field) (hot.buffer field.number) rest
          = .next b rest' := by
        rw [writeRead, if_pos hroom, hread]
        simp only [hpush]
      rw [hwrite]
      refine ⟨s, .next ?_ (size_withBuffer hsize)⟩
      rw [← hzero]
      refine halike.write hflat hf ?_ ?_ (fun _ => rfl)
      · rw [hpushed, hused, List.length_singleton]
      · intro hcount _
        rw [hcontents, halike.contents field hf hr hcount]
    · have hwrite : writeRead (readOne file field) (hot.buffer field.number) rest
          = .fail (hot.buffer field.number) .outOfBounds := by
        rw [writeRead, if_neg hroom]
      rw [hwrite]
      refine ⟨s, .overrun hf hr ?_ (.inl rfl)⟩
      simp only [EmittedStruct.apply, EmittedStruct.append, Function.update_self,
        List.length_append, List.length_singleton]
      omega
  · rw [if_neg (by simpa using hr), if_neg (by simpa using hr), readHotOne_eq, hread]
    exact ⟨s, .next (halike.set field value) (fun _ => rfl)⟩

/-- A packed payload that `decode` takes. -/
theorem hotField_taken (halike : Alike file message self hot s) (hflat : FlatMessage file message)
    (hf : field ∈ message.fields) (hr : field.cardinality = .repeated) {rest rest' payload : Bytes}
    {values : List Value} (hkeeps : keepsPacked file message field = false)
    (hread : readBytes rest = .ok (payload, rest'))
    (happend : packedAppend field payload = .ok values)
    (hroom : ((self.append field values).items field.number).length
      ≤ (hot.buffer field.number).size) :
    ∃ s', HotOutcome file message (self.append field values) hot s' rest'
      (hotField file hot field true rest) (surplusField file message s field true rest) := by
  have hsurplus : surplusField file message s field true rest
      = .next (s.add field (packedSurplus file message field payload) false) rest' := by
    rw [surplusField, if_pos rfl, hread]
    simp [stopsInside, hkeeps]
  have hcount := hotCount_eq hkeeps happend
  have hused := halike.used field hf hr
  obtain ⟨hfits, hoverrun⟩ := hotPayload_spec (b := hot.buffer field.number) happend
  rw [hsurplus, hotField, if_pos rfl, hread]
  simp only
  by_cases hinside : (hot.buffer field.number).used + hotCount field payload values
      ≤ (hot.buffer field.number).size
  · obtain ⟨b, hpayload, hpushed, hsize, hcontents⟩ := hfits hinside
    rw [hpayload]
    refine ⟨_, .next (halike.write hflat hf ?_ ?_ ?_) (size_withBuffer hsize)⟩
    · rw [hpushed, hused, hcount]
    · intro hzero hnone
      rw [hcontents (by rw [hcount, hnone, Nat.add_zero]), halike.contents field hf hr hzero]
    · exact fun hw => packedSurplus_of_fixedWidth hw payload
  · have hitems : ((self.append field values).items field.number).length
        = (self.items field.number).length + values.length := by
      simp only [EmittedStruct.append, Function.update_self, List.length_append]
    -- a fixed-width field has no surplus, and room for what `decode` finds
    have hnot : ¬ IsFixedWidth field := by
      intro hw
      have h0 := halike.fixed field hf hw
      have h1 : packedSurplus file message field payload = 0 :=
        packedSurplus_of_fixedWidth hw payload
      omega
    rw [hoverrun (by omega) hnot]
    refine ⟨s.add field (packedSurplus file message field payload) false,
      .overrun hf hr ?_ (.inl rfl)⟩
    rw [hitems]
    simp only [Surplus.add, Function.update_self]
    omega

/-- A packed payload that `decode` keeps. -/
theorem hotField_kept (halike : Alike file message self hot s) (hflat : FlatMessage file message)
    (hf : field ∈ message.fields) (hr : field.cardinality = .repeated)
    {rest rest' payload raw : Bytes} (hkeeps : keepsPacked file message field = true)
    (hread : readBytes rest = .ok (payload, rest')) :
    ∃ s', HotOutcome file message { self with unknownFields := self.unknownFields ++ [raw] } hot s'
      rest' (hotField file hot field true rest) (surplusField file message s field true rest) := by
  obtain ⟨name, hkind⟩ := kind_of_keeps hkeeps
  have hused := halike.used field hf hr
  have hcount : packedSurplus file message field payload
      = startedValues readEnumElement payload := by
    unfold packedSurplus
    simp only [hkind, hkeeps, if_true]
  have hpayload : hotPayload field (hot.buffer field.number) payload
      = hotVarints readEnumElement (hot.buffer field.number) payload := by
    unfold hotPayload
    simp only [hkind, hotEnumPayload_eq]
  have hoverrun : (hot.buffer field.number).size < (hot.buffer field.number).used
      + startedValues readEnumElement payload →
      (hot.buffer field.number).size < (self.items field.number).length
        + (s.add field (packedSurplus file message field payload) true).count field.number := by
    intro hout
    simp only [Surplus.add, Function.update_self, hcount]
    omega
  rw [hotField, if_pos rfl, surplusField, if_pos rfl, hread]
  simp only [hpayload, hkeeps]
  refine ⟨s.add field (packedSurplus file message field payload) true, ?_⟩
  cases hvalues : packedValues readEnumElement payload with
  | ok values =>
      have hstops : stopsInside file message field payload = false := by
        unfold stopsInside
        rw [hvalues, Bool.and_false]
      have hstarted := startedValues_eq hvalues
      rw [hotVarints_eq_writeAll readEnumElement_consumes hvalues, hstops, if_neg (by decide)]
      by_cases hinside : (hot.buffer field.number).used + values.length
          ≤ (hot.buffer field.number).size
      · obtain ⟨b, hall, hcontents, hpushed, hsize⟩ := writeAll_of_fits hinside
        rw [hall]
        refine .next (halike.keep hflat hf (not_fixedWidth_of_keeps hkeeps) ?_ ?_)
          (size_withBuffer hsize)
        · rw [hpushed, hused, hcount, hstarted]
        · intro hzero
          rw [hcount, hstarted, List.length_eq_zero_iff] at hzero
          rw [hcontents, hzero, List.append_nil]
      · rw [writeAll_of_overrun (by omega)]
        exact .overrun hf hr (hoverrun (by omega)) (.inl rfl)
  | error e =>
      have hstops : stopsInside file message field payload = true := by
        unfold stopsInside
        rw [hvalues, hkeeps, Bool.and_self]
      obtain ⟨hfits, hfull⟩ := hotVarints_of_malformed readEnumElement_consumes
        (b := hot.buffer field.number) hvalues
      rw [hstops, if_pos rfl]
      by_cases hinside : (hot.buffer field.number).used + startedValues readEnumElement payload
          ≤ (hot.buffer field.number).size
      · rw [hfits hinside]
        refine .stop (fun other ho hro => ?_) ⟨field, hf, hr, ?_⟩
        · simp only [Surplus.add]
          by_cases hn : other.number = field.number
          · rw [hn, Function.update_self, hcount]
            omega
          · rw [Function.update_of_ne hn]
            exact halike.inside ho hro
        · have hbegun := startedValues_pos hvalues
          simp only [Surplus.add, Function.update_self, hcount]
          omega
      · rw [hfull (by omega)]
        exact .overrun hf hr (hoverrun (by omega)) (.inr rfl)

/-- A field that `decode` has read, in the hot path. -/
theorem hotField_outcome (halike : Alike file message self hot s)
    (hflat : FlatMessage file message) {rawTag : Nat} {isPacked : Bool}
    (hf : field ∈ message.fields) (hcase : hotCase field rawTag = some isPacked)
    {rest rest' : Bytes} {action : FieldAction}
    (hread : ReadAlike file message field rest isPacked action rest')
    (hroom : ((self.apply file action).items field.number).length
      ≤ (hot.buffer field.number).size ∨ field.cardinality ≠ .repeated) :
    ∃ s', HotOutcome file message (self.apply file action) hot s' rest'
      (hotField file hot field isPacked rest) (surplusField file message s field isPacked rest) := by
  cases hread with
  | one hread => exact hotField_one halike hflat hf hread
  | taken hkeeps hread happend =>
      have hr := (hotCase_true hcase).1
      exact hotField_taken halike hflat hf hr hkeeps hread happend
        (hroom.resolve_right (not_not_intro hr))
  | kept hkeeps hread => exact hotField_kept halike hflat hf (hotCase_true hcase).1 hkeeps hread

/-! ## The run of the hot path -/

theorem hotField_length {hot hot' : HotState} {isPacked : Bool} {rest rest' : Bytes}
    (h : hotField file hot field isPacked rest = .next hot' rest') :
    rest'.length < rest.length := by
  unfold hotField at h
  split at h
  · cases hread : readBytes rest with
    | error e => rw [hread] at h; cases h
    | ok pair =>
        rw [hread] at h
        simp only at h
        split at h
        · cases h
        · cases h
          exact readBytes_consumes _ _ _ hread
  · split at h
    · unfold writeRead at h
      split at h
      · cases hread : readOne file field rest with
        | error e => rw [hread] at h; cases h
        | ok pair =>
            rw [hread] at h
            simp only at h
            split at h
            · cases h
            · cases h
              exact readOne_consumes file field _ _ _ hread
      · cases h
    · rw [readHotOne_eq] at h
      cases hread : readOne file field rest with
      | error e => rw [hread] at h; cases h
      | ok pair =>
          rw [hread] at h
          cases h
          exact readOne_consumes file field _ _ _ hread

theorem hotPass_consuming : Loop.Consuming (hotPass file message) := by
  intro hot input hot' rest hpass
  unfold hotPass at hpass
  split at hpass
  · cases hpass
  · cases htag : readRawTag input with
    | error e => rw [htag] at hpass; cases hpass
    | ok pair =>
        rw [htag] at hpass
        simp only at hpass
        have hlt : pair.2.length < input.length :=
          readVarint_consumes _ pair.1 _ (by rw [← readRawTag_eq, htag])
        split at hpass
        · cases hpass
        · have := hotField_length hpass
          omega

/-- Some field has a greater surplus than elements behind. -/
def Overruns (otherField : OtherField) (file : FileDescriptor) (message : MessageDescriptor)
    (s : Surplus) (rest : Bytes) : Prop :=
  ∃ field ∈ message.fields, field.cardinality = .repeated
    ∧ elements otherField file message rest field.number < s.count field.number

/-- How the run of the hot path ends, with the surplus and the input behind the last field it
knows. -/
inductive HotEnd (otherField : OtherField) (file : FileDescriptor) (message : MessageDescriptor)
    (decoded : EmittedStruct) (s : Surplus) (rest : Bytes) :
    HotState × Except Fault Bytes → Prop
  | outside {hot : HotState} (overruns : Overruns otherField file message s rest) :
      HotEnd otherField file message decoded s rest (hot, .error .outOfBounds)
  | stopped {hot : HotState} {e : Error} (inside : ¬ Overruns otherField file message s rest)
      (behind : rest ≠ []) : HotEnd otherField file message decoded s rest (hot, .error (.error e))
  | finished {hot : HotState} (inside : ¬ Overruns otherField file message s rest)
      (alike : Alike file message decoded hot s) (behind : rest = [])
      (sizes : ∀ field ∈ message.fields, field.cardinality = .repeated →
        (hot.buffer field.number).size = (decoded.items field.number).length) :
      HotEnd otherField file message decoded s rest (hot, .ok [])

theorem hot_run (hreuse : ReuseMessage file message) {decoded : EmittedStruct}
    {input end' rest : Bytes} {s' : Surplus}
    (h : Loop.run (decodePass otherField file message) self input = (decoded, .ok end'))
    (halike : Alike file message self hot s)
    (hsize : ∀ field ∈ message.fields, field.cardinality = .repeated →
      (hot.buffer field.number).size = (decoded.items field.number).length)
    (hsurplus : Loop.run (surplusPass file message) s input = (s', .ok rest)) :
    HotEnd otherField file message decoded s' rest
      (Loop.run (hotPass file message) hot input) := by
  have hflat := hreuse.flatMessage
  induction hn : input.length using Nat.strong_induction_on generalizing self hot s input with
  | _ n ih =>
      rcases decode_cases hflat h with ⟨rfl, rfl⟩ | ⟨action, rest₁, hread, hrest⟩
      · have hpass : surplusPass file message s [] = .done s [] := rfl
        have hhot : hotPass file message hot [] = .done hot [] := rfl
        rw [Loop.run_of_done hpass] at hsurplus
        cases hsurplus
        rw [Loop.run_of_done hhot]
        refine .finished ?_ halike rfl hsize
        rintro ⟨field, hf, hr, hlt⟩
        have hin := halike.inside hf hr
        rw [hsize field hf hr] at hin
        rw [elements_nil] at hlt
        omega
      · obtain ⟨hne, rawTag, rest', htag⟩ := readRawTag_of_readNext hflat hread
        cases hswitch : switchCase message hotCase rawTag with
        | none =>
            rw [Loop.run_of_done (surplusPass_none hne htag hswitch s)] at hsurplus
            cases hsurplus
            rw [Loop.run_of_fail (hotPass_none hne htag hswitch hot)]
            refine .stopped ?_ hne
            rintro ⟨field, hf, hr, hlt⟩
            have hin := halike.inside hf hr
            rw [hsize field hf hr, length_items_decoded hflat h] at hin
            omega
        | some pair =>
            obtain ⟨field, isPacked⟩ := pair
            obtain ⟨hf, hcase⟩ := switchCase_some hswitch
            have hpass := @surplusPass_some file _ _ _ _ _ hne htag _ hswitch s
            have hhot := @hotPass_some file _ _ _ _ _ hne htag _ hswitch hot
            have hitems : ∀ other ∈ message.fields, other.cardinality = .repeated →
                (hot.buffer other.number).size
                  = ((self.apply file action).items other.number).length
                    + elements otherField file message rest₁ other.number := by
              intro other ho hr
              rw [hsize other ho hr, length_items_decoded hflat hrest]
            have hread' := readNext_alike hreuse htag hswitch hread
            have hroom : ((self.apply file action).items field.number).length
                ≤ (hot.buffer field.number).size ∨ field.cardinality ≠ .repeated := by
              by_cases hr : field.cardinality = .repeated
              · left
                rw [hitems field hf hr]
                exact Nat.le_add_right _ _
              · exact .inr hr
            obtain ⟨s₁, houtcome⟩ := hotField_outcome halike hflat hf hcase hread' hroom
            obtain ⟨s₂, hle, hsurplusStep⟩ := surplusField_alike hread' s
            generalize hstep : hotField file hot field isPacked rest' = step at houtcome
            generalize hstep' : surplusField file message s field isPacked rest' = step'
              at houtcome hsurplusStep
            cases houtcome with
            | @next hot' halike' hsizes =>
                have hlt := readNext_length hflat hread
                rw [Loop.run_of_next surplusPass_consuming (hpass.trans hstep')] at hsurplus
                rw [Loop.run_of_next hotPass_consuming (hhot.trans hstep)]
                refine ih rest₁.length (by omega) hrest halike' ?_ hsurplus rfl
                intro other ho hr
                rw [hsizes, hsize other ho hr]
            | @overrun other hot' _ ho hr hout hcounted =>
                rw [Loop.run_of_fail (hhot.trans hstep)]
                have hbound := hitems other ho hr
                refine .outside ⟨other, ho, hr, ?_⟩
                rcases hcounted with rfl | rfl
                · obtain ⟨s'', rest'', hrun, hle', hmono⟩ := surplus_run hreuse hrest s₁
                  rw [Loop.run_of_next surplusPass_consuming (hpass.trans hstep'), hrun] at hsurplus
                  cases hsurplus
                  have h1 := hle' other.number
                  have h2 := hmono other.number
                  omega
                · rw [Loop.run_of_done (hpass.trans hstep')] at hsurplus
                  cases hsurplus
                  omega
            | @stop hot' e hin hbegun =>
                rw [Loop.run_of_done (hpass.trans hstep')] at hsurplus
                cases hsurplus
                rw [Loop.run_of_fail (hhot.trans hstep)]
                refine .stopped ?_ ?_
                · rintro ⟨other, ho, hr, hlt⟩
                  have h1 := hin other ho hr
                  rw [hitems other ho hr] at h1
                  omega
                · rintro rfl
                  obtain ⟨other, ho, hr, hpos⟩ := hbegun
                  have h1 := hin other ho hr
                  rw [hitems other ho hr, elements_nil] at h1
                  omega

end

end Codegen

end Pbz
