import Pbz.Dynamic.Concat
import Pbz.Lib.FirstRun
import Pbz.Lib.InPlace
import Pbz.Wire.NumberRuns
import Pbz.Wire.RawFields

set_option autoImplicit false

/-! # Views of the unknown fields

A message keeps its unknown fields in one list, whatever their numbers. Counting, testing, listing
and the number runs each go over the whole list; `unknownByNumber`, which returns a part of the list
itself, stops at the end of the first run of fields with the number. So it lists all of them exactly
when they stand next to each other (`Adjacent`).
-/

namespace Pbz

namespace DynamicMessage

def unknownFieldCountByNumber (self : DynamicMessage) (number : Nat) : Nat :=
  self.unknownFields.foldl
    (fun count field => if field.number = number then count + 1 else count) 0

def hasUnknownFieldNumber (self : DynamicMessage) (number : Nat) : Bool :=
  self.unknownFields.any (fun field => field.number == number)

def unknownFieldNumbers (self : DynamicMessage) : List Nat :=
  self.unknownFields.map UnknownField.number

def unknownFieldNumberRuns (self : DynamicMessage) : List RawFieldNumberRun :=
  if self.unknownFields.isEmpty then []
  else rawFieldNumberRunsFromNumbersInPlace self.unknownFieldNumbers

/-- The loop of `unknownByNumber`: where the fields with the number start, and the index behind the
last one. -/
def unknownBounds (number : Nat) : List UnknownField → Nat → Option Nat → Nat → Option Nat × Nat
  | [], _, first, last => (first, last)
  | field :: rest, index, first, last =>
      if field.number = number then
        unknownBounds number rest (index + 1) (first.or (some index)) (index + 1)
      else if first.isSome then (first, last)
      else unknownBounds number rest (index + 1) first last

def unknownByNumber (self : DynamicMessage) (number : Nat) : List UnknownField :=
  match unknownBounds number self.unknownFields 0 none 0 with
  | (some start, last) => (self.unknownFields.take last).drop start
  | (none, _) => []

def unknownByNumberAlloc (self : DynamicMessage) (number : Nat) : List UnknownField :=
  self.unknownFields.foldl
    (fun fields field => if field.number = number then fields ++ [field] else fields) []

/-- A raw field that is exactly one tag with its value is appended. -/
def appendUnknownRaw (self : DynamicMessage) (raw : Bytes) : DynamicMessage × Except Error Unit :=
  match nextTag raw with
  | .error e => (self, .error e)
  | .ok none => (self, .error .invalidWireType)
  | .ok (some (tag, rest)) =>
      match skipValue recursionLimit tag rest with
      | .error e => (self, .error e)
      | .ok rest =>
          if rest.isEmpty then (self.addUnknownRaw tag.number tag.wireType raw, .ok ())
          else (self, .error .invalidWireType)

/-- The slots and the write index of `clearUnknownFieldsByNumber`. -/
structure ClearState where
  slots : List (Option UnknownField)
  writeIndex : Nat

/-- One pass of the loop: a field with the number is released, another one moved to the front. -/
def clearPass (number : Nat) (state : ClearState) (readIndex : Nat) : ClearState :=
  match state.slots[readIndex]? with
  | some (some field) =>
      if field.number = number then
        { state with slots := InPlace.discard state.slots readIndex }
      else
        { slots := InPlace.copy state.slots state.writeIndex readIndex field,
          writeIndex := state.writeIndex + 1 }
  | _ => state

def clearUnknownFieldsByNumber (self : DynamicMessage) (number : Nat) : DynamicMessage :=
  let state := (List.range' 0 self.unknownFields.length).foldl (clearPass number)
    { slots := self.unknownFields.map some, writeIndex := 0 }
  { self with unknownFields := (state.slots.take state.writeIndex).reduceOption }

end DynamicMessage

/-! ## Each view on its own -/

namespace DynamicMessage

theorem unknownByNumberAlloc_eq (self : DynamicMessage) (number : Nat) :
    self.unknownByNumberAlloc number
      = self.unknownFields.filter (fun field => field.number == number) := by
  have key : ∀ unknown acc : List UnknownField,
      unknown.foldl (fun fields field => if field.number = number then fields ++ [field] else fields)
          acc
        = acc ++ unknown.filter (fun field => field.number == number) := by
    intro unknown
    induction unknown with
    | nil => simp
    | cons field rest ih =>
        intro acc
        rw [List.foldl_cons, ih]
        by_cases h : field.number = number
        · rw [if_pos h, List.filter_cons_of_pos (by simpa using h)]
          simp
        · rw [if_neg h, List.filter_cons_of_neg (by simpa using h)]
  rw [unknownByNumberAlloc, key, List.nil_append]

theorem unknownFieldCountByNumber_eq (self : DynamicMessage) (number : Nat) :
    self.unknownFieldCountByNumber number
      = (self.unknownFields.map UnknownField.number).count number := by
  have key : ∀ (unknown : List UnknownField) (count : Nat),
      unknown.foldl (fun count field => if field.number = number then count + 1 else count) count
        = count + (unknown.map UnknownField.number).count number := by
    intro unknown
    induction unknown with
    | nil => simp
    | cons field rest ih =>
        intro count
        rw [List.foldl_cons, ih, List.map_cons, List.count_cons]
        by_cases h : field.number = number
        · simp only [h, if_true, beq_self_eq_true]
          omega
        · simp [h]
  rw [unknownFieldCountByNumber, key, Nat.zero_add]

theorem count_eq_length_alloc (self : DynamicMessage) (number : Nat) :
    self.unknownFieldCountByNumber number = (self.unknownByNumberAlloc number).length := by
  rw [unknownFieldCountByNumber_eq, unknownByNumberAlloc_eq, List.count, List.countP_map,
    List.countP_eq_length_filter]
  rfl

theorem hasUnknownFieldNumber_iff (self : DynamicMessage) (number : Nat) :
    self.hasUnknownFieldNumber number = true ↔ self.unknownByNumberAlloc number ≠ [] := by
  rw [hasUnknownFieldNumber, unknownByNumberAlloc_eq, List.any_eq_true, ne_eq,
    List.filter_eq_nil_iff]
  simp

theorem unknownFieldNumberRuns_isRuns (self : DynamicMessage) :
    IsRuns self.unknownFieldNumbers self.unknownFieldNumberRuns := by
  have hruns := isRuns_inPlace self.unknownFieldNumbers
  rw [unknownFieldNumberRuns]
  by_cases he : self.unknownFields.isEmpty = true
  · have hnil : self.unknownFieldNumbers = [] := by
      rw [unknownFieldNumbers, List.isEmpty_iff.mp he, List.map_nil]
    rw [if_pos he]
    rw [hnil] at hruns ⊢
    exact hruns
  · rw [if_neg he]
    exact hruns

/-- The runs count the unknown fields with a number other than 0. -/
theorem unknownFieldNumberRuns_count (self : DynamicMessage) {number : Nat} (h : number ≠ 0) :
    rawFieldNumberRunCount self.unknownFieldNumberRuns number
      = self.unknownFieldCountByNumber number := by
  rw [unknownFieldCountByNumber_eq]
  exact self.unknownFieldNumberRuns_isRuns.runCount_eq h

/-! ## The first run -/

/-- Inside a run, the loop goes on to its end. -/
theorem unknownBounds_run (number : Nat) (unknown : List UnknownField) (start : Nat) :
    ∀ index, unknownBounds number unknown index (some start) index
      = (some start,
          index + (unknown.takeWhile (fun field => field.number == number)).length) := by
  induction unknown with
  | nil => exact fun index => rfl
  | cons field rest ih =>
      intro index
      rw [unknownBounds]
      by_cases h : field.number = number
      · rw [if_pos h, List.takeWhile_cons_of_pos (by simpa using h), Option.some_or, ih,
          List.length_cons]
        congr 1
        omega
      · rw [if_neg h, List.takeWhile_cons_of_neg (by simpa using h)]
        rfl

theorem unknownBounds_none {number : Nat} {unknown : List UnknownField}
    (h : unknown.dropWhile (fun field => field.number != number) = []) (index : Nat) :
    unknownBounds number unknown index none 0 = (none, 0) := by
  induction unknown generalizing index with
  | nil => rfl
  | cons field rest ih =>
      have hne : field.number ≠ number := by
        intro he
        rw [List.dropWhile_cons_of_neg (by simpa using he)] at h
        simp at h
      rw [List.dropWhile_cons_of_pos (by simpa using hne)] at h
      rw [unknownBounds, if_neg hne, ← ih h (index + 1)]
      rfl

/-- In front of a run, the loop looks for its start. -/
theorem unknownBounds_some {number : Nat} {unknown rest : List UnknownField} {first : UnknownField}
    (h : unknown.dropWhile (fun field => field.number != number) = first :: rest) (index : Nat) :
    unknownBounds number unknown index none 0
      = (some (index + (unknown.takeWhile (fun field => field.number != number)).length),
          index + (unknown.takeWhile (fun field => field.number != number)).length + 1
            + (rest.takeWhile (fun field => field.number == number)).length) := by
  induction unknown generalizing index with
  | nil => simp at h
  | cons field others ih =>
      by_cases he : field.number = number
      · rw [List.dropWhile_cons_of_neg (by simpa using he), List.cons.injEq] at h
        rw [unknownBounds, if_pos he, List.takeWhile_cons_of_neg (by simpa using he),
          Option.none_or, unknownBounds_run, h.2]
        rfl
      · rw [List.dropWhile_cons_of_pos (by simpa using he)] at h
        have hstep := ih h (index + 1)
        rw [List.takeWhile_cons_of_pos (by simpa using he), List.length_cons, unknownBounds,
          if_neg he]
        have hsum : index + 1 + (others.takeWhile (fun field => field.number != number)).length
            = index + ((others.takeWhile (fun field => field.number != number)).length + 1) := by
          omega
        rw [hsum] at hstep
        exact hstep

/-- `unknownByNumber` lists the first run of unknown fields with the number. -/
theorem unknownByNumber_eq (self : DynamicMessage) (number : Nat) :
    self.unknownByNumber number
      = FirstRun.firstRun (fun field => field.number == number) self.unknownFields := by
  have hsplit := List.takeWhile_append_dropWhile
    (p := fun field : UnknownField => field.number != number) (l := self.unknownFields)
  rw [unknownByNumber]
  change _ = (self.unknownFields.dropWhile (fun field => field.number != number)).takeWhile
    (fun field => field.number == number)
  cases hd : self.unknownFields.dropWhile (fun field => field.number != number) with
  | nil => rw [unknownBounds_none hd]; rfl
  | cons first rest =>
      rw [hd] at hsplit
      have hfirst : (first.number == number) = true := by
        have hno := List.head_dropWhile_not (fun field : UnknownField => field.number != number)
          (l := self.unknownFields) (by rw [hd]; simp)
        simp only [hd, List.head_cons] at hno
        simpa using hno
      have hrest := List.takeWhile_append_dropWhile
        (p := fun field : UnknownField => field.number == number) (l := first :: rest)
      rw [unknownBounds_some hd]
      simp only [Nat.zero_add]
      generalize self.unknownFields.takeWhile (fun field => field.number != number) = front
        at hsplit ⊢
      have hlen : front.length + 1 + (rest.takeWhile (fun field => field.number == number)).length
          = front.length
            + ((first :: rest).takeWhile (fun field => field.number == number)).length := by
        have hcons : (first :: rest).takeWhile (fun field => field.number == number)
            = first :: rest.takeWhile (fun field => field.number == number) :=
          List.takeWhile_cons_of_pos hfirst
        rw [hcons, List.length_cons]
        omega
      generalize (first :: rest).takeWhile (fun field => field.number == number) = run
        at hrest hlen ⊢
      rw [← hsplit, hlen, List.take_length_add_append, List.drop_left, ← hrest, List.take_left]

/-- The views of the unknown fields with a number. -/
structure UnknownViews (message : DynamicMessage) (number : Nat) : Prop where
  first : message.unknownByNumber number
    = FirstRun.firstRun (fun field => field.number == number) message.unknownFields
  all_iff : message.unknownByNumber number = message.unknownByNumberAlloc number
    ↔ FirstRun.Adjacent (fun field => field.number == number) message.unknownFields
  alloc : message.unknownByNumberAlloc number
    = message.unknownFields.filter (fun field => field.number == number)
  count : message.unknownFieldCountByNumber number = (message.unknownByNumberAlloc number).length
  has_alloc : message.hasUnknownFieldNumber number = true ↔ message.unknownByNumberAlloc number ≠ []
  has_first : message.hasUnknownFieldNumber number = true ↔ message.unknownByNumber number ≠ []
  runs : rawFieldNumberRunCount message.unknownFieldNumberRuns number
    = message.unknownFieldCountByNumber number

/-- Unknown fields have numbers other than 0, for which there is no run. -/
def Numbered (unknown : List UnknownField) : Prop := ∀ field ∈ unknown, field.number ≠ 0

theorem unknownViews_of_numbered {self : DynamicMessage} (h : Numbered self.unknownFields)
    (number : Nat) : self.UnknownViews number where
  first := self.unknownByNumber_eq number
  all_iff := by
    rw [unknownByNumber_eq, unknownByNumberAlloc_eq]
    exact FirstRun.firstRun_eq_filter_iff
  alloc := self.unknownByNumberAlloc_eq number
  count := self.count_eq_length_alloc number
  has_alloc := self.hasUnknownFieldNumber_iff number
  has_first := by
    rw [hasUnknownFieldNumber_iff, unknownByNumber_eq, unknownByNumberAlloc_eq, ne_eq, ne_eq,
      FirstRun.firstRun_eq_nil_iff]
  runs := by
    by_cases hn : number = 0
    · have hnone : (self.unknownFields.map UnknownField.number).count 0 = 0 := by
        refine List.count_eq_zero.mpr (fun hmem => ?_)
        obtain ⟨field, hf, hz⟩ := List.mem_map.mp hmem
        exact h field hf hz
      rw [hn, unknownFieldCountByNumber_eq, hnone]
      exact self.unknownFieldNumberRuns_isRuns.runCount_zero
    · exact self.unknownFieldNumberRuns_count hn

/-! ## Operations on the unknown fields -/

/-- The passes of the loop keep the fields with other numbers. -/
theorem clearUnknownFieldsByNumber_eq (self : DynamicMessage) (number : Nat) :
    (self.clearUnknownFieldsByNumber number).unknownFields
      = self.unknownFields.filter (fun field => field.number != number) := by
  have hpass : ∀ (state : ClearState) (read : Nat) (kept : List UnknownField) (field : UnknownField)
      (rest : List UnknownField),
      InPlace.Holds state.slots state.writeIndex read kept (field :: rest) →
      InPlace.Holds (clearPass number state read).slots (clearPass number state read).writeIndex
        (read + 1) (if field.number = number then kept else kept ++ [field]) rest := by
    intro state read kept field rest h
    rw [clearPass, h.get]
    simp only
    by_cases hn : field.number = number
    · rw [if_pos hn, if_pos hn]
      exact h.discard
    · rw [if_neg hn, if_neg hn]
      exact h.copy
  have hrun := InPlace.foldl_range' (I := fun (state : ClearState) read kept rest =>
    InPlace.Holds state.slots state.writeIndex read kept rest) hpass self.unknownFields
    { slots := self.unknownFields.map some, writeIndex := 0 } 0 []
    (InPlace.holds_start self.unknownFields)
  have hfilter : ∀ unknown kept : List UnknownField,
      unknown.foldl (fun kept field => if field.number = number then kept else kept ++ [field]) kept
        = kept ++ unknown.filter (fun field => field.number != number) := by
    intro unknown
    induction unknown with
    | nil => simp
    | cons field rest ih =>
        intro kept
        rw [List.foldl_cons, ih]
        by_cases hn : field.number = number
        · rw [if_pos hn, List.filter_cons_of_neg (by simpa using hn)]
        · rw [if_neg hn, List.filter_cons_of_pos (by simpa using hn)]
          simp
  rw [clearUnknownFieldsByNumber]
  simp only
  rw [hrun.kept_eq, hfilter, List.nil_append]
  have hsome : ∀ kept : List UnknownField, (kept.map some).reduceOption = kept := by
    intro kept
    show (kept.map some).filterMap id = kept
    rw [List.filterMap_map]
    exact List.filterMap_some
  rw [hsome]

end DynamicMessage

/-! ## Unknown fields that the decoder stores -/

open DynamicMessage (Numbered)

theorem Numbered.append {a b : List UnknownField} (ha : Numbered a) (hb : Numbered b) :
    Numbered (a ++ b) := by
  intro field hf
  rcases List.mem_append.mp hf with hf | hf
  · exact ha field hf
  · exact hb field hf

theorem numbered_singleton {number : Nat} (h : number ≠ 0) (wireType : WireType) (data : Bytes) :
    Numbered [⟨number, wireType, data⟩] := by
  intro field hf
  rw [List.mem_singleton.mp hf]
  exact h

theorem nextTag_number {input rest : Bytes} {tag : Tag}
    (h : nextTag input = .ok (some (tag, rest))) : tag.number ≠ 0 := by
  obtain ⟨value, -, -, hdecode⟩ := nextTag_some h
  have hpos := number_pos_of_decode hdecode
  omega

/-- The unknown fields of an action have numbers. -/
def Action.Numbered : Action → Prop
  | .unknown fields => DynamicMessage.Numbered fields
  | _ => True

def Reading.Numbered (reading : Reading) : Prop := ∀ action ∈ reading.actions, action.Numbered

theorem Reading.failed_numbered (e : Error) : (Reading.failed e).Numbered := by
  simp [Reading.failed, Reading.Numbered]

theorem Reading.single_numbered (action : Action) (h : action.Numbered) (ending : Ending) :
    Reading.Numbered { actions := [action], ending } := by
  intro other ho
  rw [List.mem_singleton.mp ho]
  exact h

theorem Reading.unknown_numbered {number : Nat} (h : number ≠ 0) (wireType : WireType)
    (data : Bytes) (ending : Ending) :
    Reading.Numbered { actions := [.unknown [⟨number, wireType, data⟩]], ending } :=
  Reading.single_numbered (.unknown _) (numbered_singleton h wireType data) ending

theorem Reading.add_numbered (field : FieldDescriptor) (value : Value) (ending : Ending) :
    Reading.Numbered { actions := [.add field value], ending } :=
  Reading.single_numbered (.add field value) True.intro ending

theorem Reading.append_numbered (field : FieldDescriptor) (values : List Value)
    (ending : Ending) : Reading.Numbered { actions := [.append field values], ending } :=
  Reading.single_numbered (.append field values) True.intro ending

theorem Reading.ofValue_numbered (field : FieldDescriptor) (read : ReadResult Value) :
    (Reading.ofValue field read).Numbered := by
  cases read with
  | error e => exact Reading.failed_numbered e
  | ok p => exact Reading.add_numbered _ _ _

theorem Reading.ofPacked_numbered {packed : Bytes → List Action × Except Error Bytes}
    (h : ∀ payload, ∀ action ∈ (packed payload).1, action.Numbered) (input : Bytes) :
    (Reading.ofPacked input packed).Numbered := by
  rw [Reading.ofPacked]
  cases readBytes input with
  | error e => exact Reading.failed_numbered e
  | ok p =>
      obtain ⟨payload, rest⟩ := p
      have hp := h payload
      simp only
      generalize packed payload = read at hp ⊢
      rcases read with ⟨actions, _ | _⟩ <;> exact hp

/-- A varint of a packed payload becomes an unknown field only under a number that can be written. -/
theorem unknownVarintPayload_number {number : Nat} {varint : Bytes} {unknown : UnknownField}
    (h : unknownVarintPayload number varint = .ok unknown) :
    unknown.number = number ∧ number ≠ 0 := by
  by_cases hz : number = 0
  · rw [hz] at h
    simp [unknownVarintPayload, writeTag, Tag.encode, bind, Except.bind] at h
  · refine ⟨?_, hz⟩
    rw [unknownVarintPayload] at h
    cases ht : writeTag number .varint with
    | error e => rw [ht] at h; simp [bind, Except.bind] at h
    | ok tag =>
        rw [ht] at h
        simp only [bind, Except.bind, pure, Except.pure, Except.ok.injEq] at h
        rw [← h]

theorem readPackedEnum_numbered (field : FieldDescriptor) (enumeration : EnumDescriptor)
    (closed : Bool) (payload : Bytes) :
    ∀ action ∈ (readPackedEnum field enumeration closed payload).1, action.Numbered := by
  have hrun : DynamicMessage.Numbered
      (Loop.run (packedEnumPass field.number enumeration closed) {} payload).1.unknown := by
    refine Loop.run_invariant (fun state : PackedEnum => DynamicMessage.Numbered state.unknown)
      (fun state xs h => ?_) {} payload (by simp [DynamicMessage.Numbered])
    rw [packedEnumPass]
    split
    · exact h
    · split
      · exact h
      · split
        · split
          · exact h
          · next unknown hu =>
            obtain ⟨hn, hne⟩ := unknownVarintPayload_number hu
            refine Numbered.append h (fun other ho => ?_)
            rw [List.mem_singleton.mp ho, hn]
            exact hne
        · exact h
  intro action ha
  simp only [readPackedEnum, List.mem_cons, List.not_mem_nil, or_false] at ha
  rcases ha with rfl | rfl
  · exact True.intro
  · exact hrun

section

variable {tag : Tag} (htag : tag.number ≠ 0)

include htag

theorem readMapField_numbered (nestedEntry : Option MapEntryDecoder) (file : FileDescriptor)
    (current : MessageDescriptor) (field : FieldDescriptor) (keyType : ScalarType)
    (valueKind : FieldKind) (input rest : Bytes) :
    (readMapField nestedEntry file current field keyType valueKind tag input rest).Numbered := by
  rw [readMapField]
  split
  · exact Reading.failed_numbered _
  · split
    · exact Reading.failed_numbered _
    · split
      · exact Reading.failed_numbered _
      · split
        · exact Reading.failed_numbered _
        · exact Reading.unknown_numbered htag _ _ _
        · exact Reading.append_numbered _ _ _

theorem readEnumField_numbered (registry : Option Registry) (fieldFile : FileDescriptor)
    (field : FieldDescriptor) (enumeration : EnumDescriptor) (input rest : Bytes) :
    (readEnumField registry fieldFile field enumeration tag input rest).Numbered := by
  rw [readEnumField]
  split
  · exact Reading.ofPacked_numbered (readPackedEnum_numbered field enumeration _) rest
  · split
    · exact Reading.failed_numbered _
    · split
      · exact Reading.failed_numbered _
      · split
        · exact Reading.unknown_numbered htag _ _ _
        · exact Reading.add_numbered _ _ _

omit htag in
theorem readOtherField_numbered (registry : Option Registry) (nested : Option StreamDecoder)
    (fieldFile : FileDescriptor) (current : MessageDescriptor) (field : FieldDescriptor)
    (rest : Bytes) :
    (readOtherField registry nested fieldFile current field tag rest).Numbered := by
  rw [readOtherField]
  split
  · split
    · split <;> refine Reading.ofPacked_numbered (fun payload action ha => ?_) rest
      · rw [readPackedFixedWidth] at ha
        split at ha
        · simp at ha
        · split at ha
          · simp at ha
          · rw [List.mem_singleton.mp ha]
            exact True.intro
      · rw [readPackedVarintScalar] at ha
        split at ha
        · rw [List.mem_singleton.mp ha]
          exact True.intro
        · simp at ha
    · refine Reading.ofPacked_numbered (fun payload action ha => ?_) rest
      rw [readPackedAdds, List.mem_map] at ha
      obtain ⟨value, -, rfl⟩ := ha
      exact True.intro
  · split
    · exact Reading.failed_numbered _
    · exact Reading.ofValue_numbered _ _

theorem readKnownField_numbered (registry : Option Registry) (nested : Option StreamDecoder)
    (nestedEntry : Option MapEntryDecoder) (file : FileDescriptor) (current : MessageDescriptor)
    (field : FieldDescriptor) (input rest : Bytes) :
    (readKnownField registry nested nestedEntry file current field tag input rest).Numbered := by
  rw [readKnownField]
  split
  · split
    · exact Reading.failed_numbered _
    · exact Reading.ofValue_numbered _ _
  · split
    · split
      · exact Reading.failed_numbered _
      · exact Reading.ofValue_numbered _ _
    · exact readMapField_numbered htag _ _ _ _ _ _ _ _
    · split
      · exact readEnumField_numbered htag _ _ _ _ _ _
      · exact readOtherField_numbered _ _ _ _ _ _

end

/-- The type id of a message set item is a field number. -/
theorem messageSetItem_typeId (levels : Nat) (input : Bytes) :
    ∀ number, (Loop.run (messageSetItemPass levels) {} input).1.typeId = some number →
      number ≠ 0 := by
  refine Loop.run_invariant
    (fun item : MessageSetItem => ∀ number, item.typeId = some number → number ≠ 0)
    (fun item xs h => ?_) {} input (by simp)
  rw [messageSetItemPass]
  split
  · exact h
  · exact h
  · split
    · split <;> exact h
    · split
      · split
        · exact h
        · split
          · exact h
          · next raw rest _ =>
            simp only
            split
            · exact h
            · next hraw =>
              intro number hn
              simp only [Loop.Step.state, Option.some.injEq] at hn
              rw [← hn]
              exact fun hz => hraw (Or.inl hz)
      · split
        · split
          · exact h
          · split <;> exact h
        · split <;> exact h

theorem readMessageSetItem_numbered (registry : Option Registry) (nested : Option StreamDecoder)
    (levels : Nat) (file : FileDescriptor) (current : MessageDescriptor) (input : Bytes) :
    (readMessageSetItem registry nested levels file current input).Numbered := by
  have hid := messageSetItem_typeId levels input
  rw [readMessageSetItem]
  split
  · exact Reading.failed_numbered _
  · next number payload rest hrun =>
    rw [hrun] at hid
    have hn := hid number rfl
    split
    · exact Reading.failed_numbered _
    · next action haction =>
      refine Reading.single_numbered action ?_ _
      rw [readMessageSetPayload] at haction
      split at haction
      · cases hw : writeBytes number payload with
        | error e => rw [hw] at haction; simp [bind, Except.bind] at haction
        | ok raw =>
            rw [hw] at haction
            simp only [bind, Except.bind, pure, Except.pure, Except.ok.injEq] at haction
            rw [← haction]
            exact numbered_singleton hn _ _
      · split at haction
        · split at haction
          · simp at haction
          · split at haction
            · simp at haction
            · next stream =>
              cases hp : decodeMessagePayload registry stream file current _ payload with
              | error e => rw [hp] at haction; simp [bind, Except.bind] at haction
              | ok value =>
                  rw [hp] at haction
                  simp only [bind, Except.bind, pure, Except.pure, Except.ok.injEq] at haction
                  rw [← haction]
                  exact True.intro
        · simp at haction
  · simp [Reading.Numbered]

/-- One pass of the decoder stores unknown fields with numbers only. -/
theorem readFieldAt_numbered (registry : Option Registry) (levels : Nat) (file : FileDescriptor)
    (endGroup : Option Nat) (current : MessageDescriptor) (input : Bytes) :
    (readFieldAt registry levels file endGroup current input).Numbered := by
  have hnone : ∀ ending, Reading.Numbered { actions := [], ending } := by simp [Reading.Numbered]
  rw [readFieldAt, readField]
  cases ht : nextTag input with
  | error e => exact Reading.failed_numbered _
  | ok next =>
      cases next with
      | none =>
          simp only
          split
          · exact Reading.failed_numbered _
          · exact hnone _
      | some p =>
          obtain ⟨tag, rest⟩ := p
          have htag := nextTag_number ht
          simp only
          split
          · split
            · split
              · exact Reading.failed_numbered _
              · exact hnone _
            · exact Reading.failed_numbered _
          · split
            · cases levels with
              | zero => exact Reading.failed_numbered _
              | succ levels => exact readMessageSetItem_numbered _ _ _ _ _ _
            · split
              · split
                · exact Reading.failed_numbered _
                · exact Reading.unknown_numbered htag _ _ _
              · exact readKnownField_numbered htag _ _ _ _ _ _ _ _

theorem readStream_numbered (registry : Option Registry) (levels : Nat) (file : FileDescriptor)
    (endGroup : Option Nat) (current : MessageDescriptor) (input : Bytes) :
    ∀ action ∈ (readStream registry levels file endGroup current input).1, action.Numbered :=
  readStream_forall (fun xs => readFieldAt_numbered registry levels file endGroup current xs) input

theorem unknownOf_numbered {actions : List Action} (h : ∀ action ∈ actions, action.Numbered) :
    Numbered (unknownOf actions) := by
  intro field hf
  obtain ⟨action, ha, hin⟩ := List.mem_flatMap.mp hf
  cases action with
  | unknown unknown => exact h _ ha field hin
  | _ => simp at hin

/-- What `decode` leaves, whether it succeeds or not. -/
theorem decodeWithRegistry_numbered (message : DynamicMessage) (file : FileDescriptor)
    (registry : Option Registry) (bytes : Bytes) :
    Numbered (message.decodeWithRegistry file registry bytes).1.unknownFields := by
  have hread := unknownOf_numbered
    (readStream_numbered registry recursionLimit file none message.clear.descriptor bytes)
  rw [DynamicMessage.decodeWithRegistry, decodeStream_eq]
  cases (readStream registry recursionLimit file none message.clear.descriptor bytes).2 with
  | error e =>
      simp only
      rw [actAll_unknownFields]
      exact hread
  | ok rest =>
      simp only [DynamicMessage.deduplicateDecodedMapFields]
      rw [actAll_unknownFields]
      exact hread

theorem appendUnknownRaw_numbered {message : DynamicMessage} (h : Numbered message.unknownFields)
    (raw : Bytes) : Numbered (message.appendUnknownRaw raw).1.unknownFields := by
  rw [DynamicMessage.appendUnknownRaw]
  cases ht : nextTag raw with
  | error e => exact h
  | ok next =>
      cases next with
      | none => exact h
      | some p =>
          simp only
          split
          · exact h
          · split
            · exact Numbered.append h (numbered_singleton (nextTag_number ht) _ _)
            · exact h

/-! ## Reachable messages -/

/-- The messages that these operations make from empty ones, whether they succeed or not. -/
inductive UnknownReachable : DynamicMessage → Prop
  | init (descriptor : MessageDescriptor) : UnknownReachable (.init descriptor)
  | decode {message : DynamicMessage} (h : UnknownReachable message) (file : FileDescriptor)
      (registry : Option Registry) (bytes : Bytes) :
      UnknownReachable (message.decodeWithRegistry file registry bytes).1
  | appendUnknownRaw {message : DynamicMessage} (h : UnknownReachable message) (raw : Bytes) :
      UnknownReachable (message.appendUnknownRaw raw).1
  | mergeFrom {message other : DynamicMessage} (h : UnknownReachable message)
      (ho : UnknownReachable other) : UnknownReachable (message.mergeFrom other)
  | clear {message : DynamicMessage} (h : UnknownReachable message) (number : Nat) :
      UnknownReachable (message.clearUnknownFieldsByNumber number)

theorem numbered_of_reachable {message : DynamicMessage} (h : UnknownReachable message) :
    Numbered message.unknownFields := by
  induction h with
  | init descriptor => simp [Numbered, DynamicMessage.init]
  | decode h file registry bytes ih => exact decodeWithRegistry_numbered _ file registry bytes
  | appendUnknownRaw h raw ih => exact appendUnknownRaw_numbered ih raw
  | mergeFrom h ho ih iho =>
      rw [mergeFrom_unknownFields]
      exact Numbered.append ih iho
  | clear h number ih =>
      rw [DynamicMessage.clearUnknownFieldsByNumber_eq]
      exact fun field hf => ih field (List.mem_of_mem_filter hf)

/-- The views of the unknown fields of every reachable message. -/
theorem unknownViews_of_reachable {message : DynamicMessage} (h : UnknownReachable message)
    (number : Nat) : message.UnknownViews number :=
  DynamicMessage.unknownViews_of_numbered (numbered_of_reachable h) number

/-- An empty message type, and the fields 1, 2 and 1 decoded as unknown fields of it. -/
def interleavedMessage : DynamicMessage :=
  ((DynamicMessage.init { name := ascii "Empty" }).decodeWithRegistry {} none
    [0x08, 0x01, 0x10, 0x02, 0x08, 0x03]).1

theorem unknownViews_of_reachable_interleaved : interleavedMessage.UnknownViews 1 :=
  unknownViews_of_reachable (.decode (.init _) _ _ _) 1

/-- `unknownByNumber` lists only the first of two fields with another one between them. -/
theorem exists_unknownByNumber_ne :
    ¬ ∀ message, UnknownReachable message → ∀ number,
      message.unknownByNumber number = message.unknownByNumberAlloc number := by
  intro hall
  have h := congrArg List.length (hall interleavedMessage (.decode (.init _) _ _ _) 1)
  have hlen : (interleavedMessage.unknownByNumber 1).length = 1
      ∧ (interleavedMessage.unknownByNumberAlloc 1).length = 2 := by decide
  omega

end Pbz
