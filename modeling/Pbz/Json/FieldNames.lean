import Pbz.Json.Scalars
import Pbz.Lib.JsonString
import Pbz.SymbolLookup
import Pbz.Dynamic.Resolve
import Pbz.Parser.WellFormed

set_option autoImplicit false

/-! # Field names in JSON

`writeFieldName` prints the name of a field, its own or its JSON name, and `findJsonField` takes
the first field of the message that has the key under either. The check of a message tells the
names apart and the JSON names apart, but not one from the other: a field may claim the name of a
later one as its JSON name, or be named as a later one is called in JSON.
-/

namespace Pbz

namespace Json

structure Options where
  enumAsName : Bool := true
  preserveProtoFieldNames : Bool := false
  ignoreUnknownFields : Bool := false
  alwaysPrintPrimitiveFields : Bool := false
  validateAnyPayloads : Bool := false
  deriving DecidableEq, Repr

/-! ## Printing a name -/

def jsonStringNeedsEscape (value : Bytes) : Bool :=
  value.any (fun byte => byte == 0x22 || byte == 0x5c || byte < 0x20)

def writeJsonString (value : Bytes) : Except Failure Bytes :=
  if !utf8ValidateSlice value then .error .invalidUtf8
  else if !jsonStringNeedsEscape value then .ok (0x22 :: value ++ [0x22])
  else .ok (JsonString.quote value)

def writeJsonStringExtensionName (file : FileDescriptor) (registry : Option Registry)
    (field : FieldDescriptor) : Bytes :=
  let fullName := extensionFullName field
  let package := (fieldDefiningFile file registry field).package
  let name :=
    if (normalizeName fullName) != fullName then normalizeName fullName
    else if fullName.contains 0x2e then fullName
    else if package.isEmpty then fullName
    else package ++ 0x2e :: fullName
  ascii "\"[" ++ name ++ ascii "]\""

def writeFieldName (file : FileDescriptor) (registry : Option Registry) (field : FieldDescriptor)
    (options : Options) : Except Failure Bytes :=
  if field.extendee.isSome then .ok (writeJsonStringExtensionName file registry field)
  else if options.preserveProtoFieldNames then writeJsonString field.name
  else match field.jsonName with
    | some jsonName => writeJsonString jsonName
    | none => .ok (0x22 :: defaultJsonName field.name ++ [0x22])

/-! ## Looking a name up -/

/-- The name is the field's own, its JSON name, or the default one if it has no other. -/
def matchesJsonKey (key : Bytes) (field : FieldDescriptor) : Bool :=
  field.name == key || match field.jsonName with
    | some jsonName => jsonName == key
    | none => eqlDefaultJsonName field.name key

/-- The name between the brackets of an extension key. -/
def jsonExtensionName (key : Bytes) : Option Bytes :=
  if key.length < 2 || key.head? != some 0x5b || key.getLast? != some 0x5d then none
  else some key.tail.dropLast

def extensionNameTargetsMessage (registry : Registry) (file : FileDescriptor)
    (message : MessageDescriptor) (name : Bytes) (field : FieldDescriptor) : Bool :=
  if !extensionNameMatches file.package field name then false
  else
    let owner := (registry.fileContainingExtension field).getD file
    match registry.resolveExtensionExtendee owner field with
    | none => false
    | some resolved => resolved.address == message.address

def findExtensionByNameForMessage (registry : Registry) (message : MessageDescriptor)
    (name : Bytes) : Option FieldDescriptor :=
  registry.files.findSome? (fun file =>
    let targets := extensionNameTargetsMessage registry file message (normalizeName name)
    match file.extensions.find? targets with
    | some field => some field
    | none => findExtensionInScopes targets file.messages)

def findJsonExtension (file : FileDescriptor) (registry : Option Registry)
    (message : MessageDescriptor) (extensionName : Bytes) : Option FieldDescriptor :=
  match registry with
  | some registry =>
      (findExtensionByNameForMessage registry message extensionName).or
        (findExtensionByNameForMessage registry message (leafName extensionName))
  | none =>
      file.extensions.find? (fun field =>
        match field.extendee with
        | none => false
        | some extendee =>
            extensionExtendsMessage extendee message
              && (field.name == extensionName || field.name == leafName extensionName))

def findJsonField (file : FileDescriptor) (registry : Option Registry)
    (message : MessageDescriptor) (key : Bytes) : Option FieldDescriptor :=
  match message.fields.find? (matchesJsonKey key) with
  | some field => some field
  | none => (jsonExtensionName key).bind (findJsonExtension file registry message)

/-! ## Names that are told apart -/

theorem matchesJsonKey_iff {key : Bytes} {field : FieldDescriptor} :
    matchesJsonKey key field = true ↔ field.name = key ∨ field.effectiveJsonName = key := by
  unfold matchesJsonKey FieldDescriptor.effectiveJsonName eqlDefaultJsonName
  cases field.jsonName <;> simp

/-- The default JSON name has no underscore, so it is its own default JSON name. -/
theorem underscore_notMem_defaultJsonNameFrom (upperNext : Bool) (name : Bytes) :
    0x5f ∉ defaultJsonNameFrom upperNext name := by
  have hupper : ∀ c : UInt8, c ≠ 0x5f → toUpper c ≠ 0x5f := forall_byte (by decide)
  fun_induction defaultJsonNameFrom upperNext name with
  | case1 => simp
  | case2 upperNext c rest hc ih => exact ih
  | case3 upperNext c rest hc ih =>
      have hne : c ≠ 0x5f := by simpa using hc
      have hchar : (if upperNext then toUpper c else c) ≠ 0x5f := by
        split
        · exact hupper c hne
        · exact hne
      simp only [List.mem_cons, not_or]
      exact ⟨hchar.symm, ih⟩

theorem defaultJsonNameFrom_of_notMem {name : Bytes} (h : 0x5f ∉ name) :
    defaultJsonNameFrom false name = name := by
  induction name with
  | nil => rfl
  | cons c rest ih =>
      obtain ⟨hc, hrest⟩ := not_or.mp (mt List.mem_cons.mpr h)
      have hne : ¬ (c == 0x5f) = true := by simpa using Ne.symm hc
      rw [defaultJsonNameFrom, if_neg hne, ih hrest]
      rfl

@[simp] theorem defaultJsonName_idem (name : Bytes) :
    defaultJsonName (defaultJsonName name) = defaultJsonName name :=
  defaultJsonNameFrom_of_notMem (underscore_notMem_defaultJsonNameFrom false name)

open Check in
theorem defaultJsonNames_of_validateMessageFields {message : MessageDescriptor}
    {fileSyntax : Syntax} (h : Parser.validateMessageFields message fileSyntax = .ok ()) :
    message.fields.Pairwise
      (fun field other => defaultJsonName field.name ≠ defaultJsonName other.name) := by
  simp only [Parser.validateMessageFields, bind_eq_ok] at h
  obtain ⟨-, -, -, hjson, -⟩ := h
  refine pairwise_of_forTails hjson fun field others hcheck other hother => ?_
  have hne : defaultJsonNamesEqual field.name other.name = false := by
    cases hname : field.jsonName with
    | some jsonName =>
        simp only [hname, bind_eq_ok, forEach_eq_ok, reject_eq_ok] at hcheck
        exact (hcheck.2.2 other hother).1
    | none =>
        simp only [hname, bind_eq_ok, forEach_eq_ok, reject_eq_ok] at hcheck
        exact (hcheck.2 other hother).1
  simpa [defaultJsonNamesEqual] using hne

/-! ## The printed name -/

theorem escapeByte_of_plain : ∀ c : UInt8, (c == 0x22 || c == 0x5c || c < 0x20) = false →
    JsonString.escapeByte c = [c] :=
  forall_byte (by decide)

/-- A string that needs no escape is its own text between quotes. -/
theorem quote_of_plain {value : Bytes} (h : jsonStringNeedsEscape value = false) :
    JsonString.quote value = 0x22 :: value ++ [0x22] := by
  have hplain := List.any_eq_false.mp h
  have hflat : value.flatMap JsonString.escapeByte = value := by
    calc value.flatMap JsonString.escapeByte
        = value.flatMap (fun c => [c]) :=
          List.flatMap_congr (fun c hc => escapeByte_of_plain c (by simpa using hplain c hc))
      _ = value := List.flatMap_singleton' value
  rw [JsonString.quote, hflat]

theorem unquote_of_writeJsonString {value text : Bytes} (h : writeJsonString value = .ok text) :
    JsonString.unquote text = some value := by
  unfold writeJsonString at h
  split at h
  · cases h
  · split at h
    · next hplain =>
      have hquote := quote_of_plain (by simpa using hplain)
      rw [← Except.ok.inj h, ← hquote, JsonString.unquote_quote]
    · rw [← Except.ok.inj h, JsonString.unquote_quote]

/-- The characters of an identifier are ASCII and need no escape. -/
theorem identContinue_plain : ∀ c : UInt8, isIdentContinue c = true →
    c < 0x80 ∧ (c == 0x22 || c == 0x5c || c < 0x20) = false :=
  forall_byte (by decide)

theorem utf8ValidateSlice_of_ascii {value : Bytes} (h : ∀ c ∈ value, c < 0x80) :
    utf8ValidateSlice value = true := by
  induction value with
  | nil => rfl
  | cons c rest ih =>
      obtain ⟨hc, hrest⟩ := List.forall_mem_cons.mp h
      rw [utf8ValidateSlice.eq_def]
      dsimp only
      rw [if_pos hc]
      exact ih hrest

/-- The names of fields are made of the characters of identifiers. -/
def NamedByIdentifiers (message : MessageDescriptor) : Prop :=
  ∀ field ∈ message.fields, ∀ c ∈ field.name, isIdentContinue c = true

theorem writeJsonString_identifier {name : Bytes} (h : ∀ c ∈ name, isIdentContinue c = true) :
    ∃ text, writeJsonString name = .ok text := by
  have hutf8 := utf8ValidateSlice_of_ascii (fun c hc => (identContinue_plain c (h c hc)).1)
  unfold writeJsonString
  rw [hutf8, Bool.not_true, if_neg Bool.false_ne_true]
  split
  · exact ⟨_, rfl⟩
  · exact ⟨_, rfl⟩

theorem defaultJsonNameFrom_plain {name : Bytes} (h : ∀ c ∈ name, isIdentContinue c = true)
    (upperNext : Bool) :
    jsonStringNeedsEscape (defaultJsonNameFrom upperNext name) = false := by
  have hupper : ∀ c : UInt8, isIdentContinue c = true → isIdentContinue (toUpper c) = true :=
    forall_byte (by decide)
  fun_induction defaultJsonNameFrom upperNext name with
  | case1 => rfl
  | case2 upperNext c rest hc ih => exact ih (fun c hc => h c (List.mem_cons_of_mem _ hc))
  | case3 upperNext c rest hc ih =>
      have hchar : isIdentContinue (if upperNext then toUpper c else c) = true := by
        have hc := h c List.mem_cons_self
        split
        · exact hupper c hc
        · exact hc
      have hrest := ih (fun c hc => h c (List.mem_cons_of_mem _ hc))
      simp only [jsonStringNeedsEscape, List.any_cons] at hrest ⊢
      rw [(identContinue_plain _ hchar).2, hrest]
      rfl

/-- The name that `writeFieldName` prints. -/
def printedName (options : Options) (field : FieldDescriptor) : Bytes :=
  if options.preserveProtoFieldNames then field.name else field.effectiveJsonName

theorem unquote_of_writeFieldName {file : FileDescriptor} {registry : Option Registry}
    {field : FieldDescriptor} {options : Options} {text : Bytes}
    (hextendee : field.extendee = none) (hname : ∀ c ∈ field.name, isIdentContinue c = true)
    (h : writeFieldName file registry field options = .ok text) :
    JsonString.unquote text = some (printedName options field) := by
  unfold writeFieldName at h
  rw [hextendee, if_neg (by simp)] at h
  by_cases hpreserve : options.preserveProtoFieldNames = true
  · rw [if_pos hpreserve] at h
    rw [printedName, if_pos hpreserve]
    exact unquote_of_writeJsonString h
  · rw [if_neg hpreserve] at h
    rw [printedName, if_neg hpreserve, FieldDescriptor.effectiveJsonName]
    cases hjson : field.jsonName with
    | some jsonName =>
        rw [hjson] at h
        exact unquote_of_writeJsonString h
    | none =>
        rw [hjson] at h
        have hquote : JsonString.quote (defaultJsonName field.name)
            = 0x22 :: defaultJsonName field.name ++ [0x22] :=
          quote_of_plain (defaultJsonNameFrom_plain hname false)
        rw [← Except.ok.inj h, ← hquote, JsonString.unquote_quote]
        rfl

/-! ## When the lookup inverts the printing -/

/-- The name that is printed for the field, if it can be printed, looks the field up. -/
def LookupInverts (file : FileDescriptor) (registry : Option Registry)
    (message : MessageDescriptor) (options : Options) (field : FieldDescriptor) : Prop :=
  ∀ text name, writeFieldName file registry field options = .ok text →
    JsonString.unquote text = some name → findJsonField file registry message name = some field

/-- The one field has the name that is printed for the other: as an explicit JSON name, or as its
own name. -/
def TakesName (options : Options) (other field : FieldDescriptor) : Prop :=
  if options.preserveProtoFieldNames then other.jsonName = some field.name
  else field.jsonName = some other.name

/-- Between fields with distinct names and distinct JSON names, only an explicit JSON name makes
one field answer to the name of another. -/
theorem matchesJsonKey_printedName_iff {options : Options} {other field : FieldDescriptor}
    (hnames : other.name ≠ field.name)
    (hdefaults : defaultJsonName other.name ≠ defaultJsonName field.name)
    (hjson : other.effectiveJsonName ≠ field.effectiveJsonName) :
    matchesJsonKey (printedName options field) other = true ↔ TakesName options other field := by
  rw [matchesJsonKey_iff]
  unfold printedName TakesName
  split
  · -- a default JSON name equal to a name is the default JSON name of both
    have hdefault : defaultJsonName other.name ≠ field.name := by
      intro heq
      rw [← heq, defaultJsonName_idem] at hdefaults
      exact hdefaults rfl
    unfold FieldDescriptor.effectiveJsonName
    cases other.jsonName <;> simp [hnames, hdefault]
  · have hdefault : defaultJsonName field.name ≠ other.name := by
      intro heq
      rw [← heq, defaultJsonName_idem] at hdefaults
      exact hdefaults rfl
    rw [or_iff_left hjson]
    unfold FieldDescriptor.effectiveJsonName
    cases field.jsonName <;> simp [eq_comm, hdefault.symm]

theorem writeFieldName_of_takesName {file : FileDescriptor} {registry : Option Registry}
    {options : Options} {other field : FieldDescriptor} (hextendee : field.extendee = none)
    (hname : ∀ c ∈ field.name, isIdentContinue c = true)
    (hother : ∀ c ∈ other.name, isIdentContinue c = true) (h : TakesName options other field) :
    ∃ text, writeFieldName file registry field options = .ok text := by
  unfold writeFieldName
  unfold TakesName at h
  rw [hextendee, if_neg (by simp)]
  split at h
  · next hpreserve =>
    rw [if_pos hpreserve]
    exact writeJsonString_identifier hname
  · next hpreserve =>
    rw [if_neg hpreserve, h]
    exact writeJsonString_identifier hother

/-- The printed name of a field of a checked message looks the field up unless an earlier field
has that name: under the option that keeps the names, as its explicit JSON name; without it, as
its own name, where the field has it as its explicit JSON name. -/
theorem lookupInverts_iff {file : FileDescriptor} {registry : Option Registry}
    {message : MessageDescriptor} {fileSyntax : Syntax} {options : Options}
    {before after : List FieldDescriptor} {field : FieldDescriptor}
    (hvalid : Parser.validateMessageFields message fileSyntax = .ok ())
    (hnamed : NamedByIdentifiers message) (hfields : message.fields = before ++ field :: after)
    (hextendee : field.extendee = none) :
    LookupInverts file registry message options field ↔
      ¬ ∃ other ∈ before, TakesName options other field := by
  have hwell := Parser.wellFormed_of_validateMessageFields hvalid
  have hdefaults := defaultJsonNames_of_validateMessageFields hvalid
  have hnames := hwell.names
  have hjsonNames := hwell.jsonNames
  rw [hfields] at hdefaults hnames hjsonNames
  have hmem (other : FieldDescriptor) (hother : other ∈ before) :
      other ∈ message.fields := by
    rw [hfields]
    exact List.mem_append_left _ hother
  have hfield : field ∈ message.fields := by
    rw [hfields]
    exact List.mem_append_right _ List.mem_cons_self
  have hmatches (other : FieldDescriptor) (hother : other ∈ before) :
      matchesJsonKey (printedName options field) other = true ↔ TakesName options other field :=
    matchesJsonKey_printedName_iff
      ((List.pairwise_append.mp hnames).2.2 other hother field List.mem_cons_self)
      ((List.pairwise_append.mp hdefaults).2.2 other hother field List.mem_cons_self)
      ((List.pairwise_append.mp hjsonNames).2.2 other hother field List.mem_cons_self)
  have hself : matchesJsonKey (printedName options field) field = true := by
    rw [matchesJsonKey_iff]
    unfold printedName
    split
    · exact .inl rfl
    · exact .inr rfl
  constructor
  · rintro hinverts ⟨other, hother, htakes⟩
    obtain ⟨text, htext⟩ := @writeFieldName_of_takesName file registry _ _ _
      hextendee (hnamed field hfield) (hnamed other (hmem other hother)) htakes
    have hfound := hinverts text _ htext
      (unquote_of_writeFieldName hextendee (hnamed field hfield) htext)
    -- the first field that answers to the name stands before this one
    cases hfirst : before.find? (matchesJsonKey (printedName options field)) with
    | none =>
        have hno := List.find?_eq_none.mp hfirst other hother
        exact hno ((hmatches other hother).mpr htakes)
    | some first =>
        have hlookup : findJsonField file registry message (printedName options field)
            = some first := by
          unfold findJsonField
          rw [hfields, List.find?_append, hfirst]
          rfl
        obtain rfl : first = field := Option.some.inj (hlookup.symm.trans hfound)
        exact (List.pairwise_append.mp hnames).2.2 first (List.mem_of_find?_eq_some hfirst) first
          List.mem_cons_self rfl
  · intro hnone text name htext hname
    have hprinted := unquote_of_writeFieldName hextendee (hnamed field hfield) htext
    obtain rfl : printedName options field = name :=
      Option.some.inj (hprinted.symm.trans hname)
    have hbefore : before.find? (matchesJsonKey (printedName options field)) = none :=
      List.find?_eq_none.mpr (fun other hother hmatch =>
        hnone ⟨other, hother, (hmatches other hother).mp hmatch⟩)
    unfold findJsonField
    rw [hfields, List.find?_append, hbefore, Option.none_or, List.find?_cons_of_pos hself]

/-! ## A name claimed twice -/

/-- `message M { int32 a = 1 [json_name = "b"]; int32 b = 2 [json_name = "c"]; }` -/
abbrev claimedFields : List FieldDescriptor :=
  [{ name := ascii "a", number := 1, kind := .scalar .int32, jsonName := some (ascii "b") },
    { name := ascii "b", number := 2, kind := .scalar .int32, jsonName := some (ascii "c") }]

abbrev claimedMessage : MessageDescriptor := { name := ascii "M", fields := claimedFields }

/-- `message M { int32 my_id = 1; int32 x = 2 [json_name = "my_id"]; }` -/
abbrev shadowedFields : List FieldDescriptor :=
  [{ name := ascii "my_id", number := 1, kind := .scalar .int32 },
    { name := ascii "x", number := 2, kind := .scalar .int32, jsonName := some (ascii "my_id") }]

abbrev shadowedMessage : MessageDescriptor := { name := ascii "M", fields := shadowedFields }

/-- In checked messages, the second field is printed under a name that finds the first one, with
the names kept and without. -/
theorem exists_name_finds_other_field :
    (Parser.validateMessageFields claimedMessage .proto3 = .ok () ∧
      ∃ field ∈ claimedFields,
        ¬ LookupInverts {} none claimedMessage { preserveProtoFieldNames := true } field) ∧
    (Parser.validateMessageFields shadowedMessage .proto3 = .ok () ∧
      ∃ field ∈ shadowedFields, ¬ LookupInverts {} none shadowedMessage {} field) := by
  refine ⟨⟨by decide, _, List.mem_of_getElem? (i := 1) rfl, fun h => ?_⟩,
    ⟨by decide, _, List.mem_of_getElem? (i := 1) rfl, fun h => ?_⟩⟩
  · have hfound := h (ascii "\"b\"") (ascii "b") (by decide) (by decide)
    exact absurd hfound (by decide)
  · have hfound := h (ascii "\"my_id\"") (ascii "my_id") (by decide) (by decide)
    exact absurd hfound (by decide)

/-- The first field of the message is found under its JSON name. -/
theorem lookupInverts_iff_first :
    LookupInverts {} none shadowedMessage {}
        { name := ascii "my_id", number := 1, kind := .scalar .int32 } ↔
      ¬ ∃ other ∈ ([] : List FieldDescriptor), TakesName {} other
        { name := ascii "my_id", number := 1, kind := .scalar .int32 } :=
  @lookupInverts_iff {} none shadowedMessage .proto3 {} []
    [{ name := ascii "x", number := 2, kind := .scalar .int32, jsonName := some (ascii "my_id") }]
    { name := ascii "my_id", number := 1, kind := .scalar .int32 } (by decide)
    (by
      unfold NamedByIdentifiers
      decide +kernel) rfl rfl

end Json

end Pbz
