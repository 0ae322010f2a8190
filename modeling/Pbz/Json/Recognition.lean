import Pbz.Json.Conflicts
import Pbz.Json.Write
import Pbz.TypeLookup

set_option autoImplicit false

/-! # Recognising the well-known types

The reader and the writer give a message the form of a well-known type by the name that is written
for its type. `typeNameEquals` lets the name end in the well-known one, so `.my.google.protobuf.Any`
is taken for `google.protobuf.Any`; and which type the name leads to is not asked.

No well-known name is a suffix of another one. So at most one is recognised in a name, by both sides
the same one, and a message is out of the ordinary only under the name that it is recognised by.
-/

namespace Pbz

namespace Json

/-! ## The names -/

def wellKnownNames : List Bytes :=
  [ascii "google.protobuf.Timestamp", ascii "google.protobuf.Duration",
    ascii "google.protobuf.Any", ascii "google.protobuf.FieldMask",
    ascii "google.protobuf.Empty", ascii "google.protobuf.Struct", ascii "google.protobuf.Value",
    ascii "google.protobuf.ListValue", ascii "google.protobuf.DoubleValue",
    ascii "google.protobuf.FloatValue", ascii "google.protobuf.Int64Value",
    ascii "google.protobuf.UInt64Value", ascii "google.protobuf.Int32Value",
    ascii "google.protobuf.UInt32Value", ascii "google.protobuf.BoolValue",
    ascii "google.protobuf.StringValue", ascii "google.protobuf.BytesValue"]

theorem typeNameEquals_iff {name known : Bytes} :
    typeNameEquals name known = true ↔ known <:+ normalizeName name := by
  rw [typeNameEquals, Bool.or_eq_true, beq_iff_eq, List.isSuffixOf_iff_suffix]
  constructor
  · rintro (heq | hsuffix)
    · exact heq ▸ List.suffix_refl _
    · exact hsuffix
  · exact Or.inr

theorem normalizeName_wellKnown : ∀ known ∈ wellKnownNames, normalizeName known = known := by
  decide +kernel

theorem eq_of_suffix_wellKnown : ∀ known ∈ wellKnownNames, ∀ other ∈ wellKnownNames,
    other <:+ normalizeName known → other = known := by
  have hplain : ∀ known ∈ wellKnownNames, ∀ other ∈ wellKnownNames,
      other <:+ known → other = known := by decide +kernel
  intro known hknown other hother hsuffix
  rw [normalizeName_wellKnown known hknown] at hsuffix
  exact hplain known hknown other hother hsuffix

/-- No more than one well-known name is recognised. -/
theorem eq_of_typeNameEquals {name known other : Bytes} (hknown : known ∈ wellKnownNames)
    (hother : other ∈ wellKnownNames) (h : known <:+ normalizeName name)
    (h' : other <:+ normalizeName name) : other = known := by
  rcases List.suffix_or_suffix_of_suffix h h' with hshorter | hshorter
  · exact (eq_of_suffix_wellKnown other hother known hknown
      (by rw [normalizeName_wellKnown other hother]; exact hshorter)).symm
  · exact eq_of_suffix_wellKnown known hknown other hother
      (by rw [normalizeName_wellKnown known hknown]; exact hshorter)

/-- A name that ends in a well-known one passes the same tests as the well-known one. -/
theorem typeNameEquals_congr {name known : Bytes} (hknown : known ∈ wellKnownNames)
    (h : known <:+ normalizeName name) :
    ∀ other ∈ wellKnownNames, typeNameEquals name other = typeNameEquals known other := by
  intro other hother
  have hself : known <:+ normalizeName known := by
    rw [normalizeName_wellKnown known hknown]
  rw [Bool.eq_iff_iff, typeNameEquals_iff, typeNameEquals_iff]
  constructor
  · intro h'
    rw [eq_of_typeNameEquals hknown hother h h']
    exact hself
  · intro h'
    rw [eq_of_suffix_wellKnown known hknown other hother h']
    exact h

/-! ## Both sides -/

/-- The reader, the writer and the form of an `Any` make the same of both names, in every file. -/
structure HandledAs (name known : Bytes) : Prop where
  reads : ∀ [Conversions] [KnownTexts] (registry : Option Registry) (options : Options)
    (file : FileDescriptor) (descriptor : MessageDescriptor) (node : Node),
    parseKnownMessage registry options file descriptor name node
      = parseKnownMessage registry options file descriptor known node
  writes : ∀ [KnownTexts] [FloatTexts] (nested : Writers) (registry : Option Registry)
    (file : FileDescriptor) (message : DynamicMessage),
    writeKnownMessage nested registry file name message
      = writeKnownMessage nested registry file known message
  envelope : anyUsesValueEnvelope name = anyUsesValueEnvelope known

/-- Neither side has a form of its own for the name. -/
structure HandledAsOrdinary (name : Bytes) : Prop where
  reads : ∀ [Conversions] [KnownTexts] (registry : Option Registry) (options : Options)
    (file : FileDescriptor) (descriptor : MessageDescriptor) (node : Node),
    parseKnownMessage registry options file descriptor name node = .ok none
  writes : ∀ [KnownTexts] [FloatTexts] (nested : Writers) (registry : Option Registry)
    (file : FileDescriptor) (message : DynamicMessage),
    writeKnownMessage nested registry file name message = .ok none
  envelope : anyUsesValueEnvelope name = false

theorem handledAs_of_suffix {name known : Bytes} (hknown : known ∈ wellKnownNames)
    (h : known <:+ normalizeName name) : HandledAs name known := by
  have htests := typeNameEquals_congr hknown h
  simp only [wellKnownNames, List.forall_mem_cons, List.not_mem_nil, false_implies,
    implies_true, and_true] at htests
  constructor
  · intro _ _ registry options file descriptor node
    simp only [parseKnownMessage, wrapperKind, htests]
  · intro _ _ nested registry file message
    simp only [writeKnownMessage, wrapperKind, htests]
  · simp only [anyUsesValueEnvelope, wrapperKind, htests]

theorem handledAsOrdinary_of_not_suffix {name : Bytes}
    (h : ∀ known ∈ wellKnownNames, ¬ known <:+ normalizeName name) : HandledAsOrdinary name := by
  have htests : ∀ known ∈ wellKnownNames, typeNameEquals name known = false := fun known hknown =>
    Bool.eq_false_iff.mpr (mt typeNameEquals_iff.mp (h known hknown))
  simp only [wellKnownNames, List.forall_mem_cons, List.not_mem_nil, false_implies,
    implies_true, and_true] at htests
  constructor
  · intro _ _ registry options file descriptor node
    simp only [parseKnownMessage, wrapperKind, htests, Bool.false_eq_true, if_false]
    split <;> rfl
  · intro _ _ nested registry file message
    simp only [writeKnownMessage, wrapperKind, htests, Bool.false_eq_true, if_false]
  · simp only [anyUsesValueEnvelope, wrapperKind, htests, Bool.or_false, Bool.false_eq_true,
      if_false, Option.isSome_none]

/-! ## The forms are different

What the writer makes of a few messages tells the seventeen forms apart. -/

section

/-- A message whose `value` is given; its `fields` are none of a struct. -/
def sample (value : Value) : DynamicMessage where
  descriptor := { name := [] }
  fields :=
    [{ descriptor := { name := ascii "value", number := 1, kind := .scalar .bytes },
       values := [value] },
     { descriptor := { name := ascii "fields", number := 2, kind := .scalar .bool },
       values := [.boolean false] }]
  unknownFields := []

/-- Texts that tell who wrote them. -/
abbrev signedTexts : KnownTexts where
  parseTimestamp _ := .error .form
  parseDuration _ := .error .form
  parseFieldMask _ := .error .form
  writeTimestamp _ _ := .ok (ascii "timestamp")
  writeDuration _ _ := .ok (ascii "duration")
  validateFieldMaskPath _ := .error .form
  writeStandaloneAny _ _ := .ok (ascii "any")

abbrev noFloatTexts : FloatTexts where
  formatDouble _ := []
  doubleFromSingle _ := 0

def writtenSamples (name : Bytes) : List (Except Failure (Option Bytes)) :=
  [Value.double 0, .float 0, .int64 0, .uint64 0, .int32 0, .uint32 0, .boolean false, .string [],
    .bytes [0]].map (fun value =>
      @writeKnownMessage (@writersAt noConversions signedTexts noFloatTexts none {} 0) signedTexts
        noFloatTexts none {} name (sample value))

theorem writtenSamples_injective : ∀ known ∈ wellKnownNames, ∀ other ∈ wellKnownNames,
    writtenSamples known = writtenSamples other → known = other := by
  decide +kernel

theorem writtenSamples_ne : ∀ known ∈ wellKnownNames, .ok none ∉ writtenSamples known := by
  decide +kernel

end

/-- No two well-known names are handled alike. -/
theorem HandledAs.eq {known other : Bytes} (h : HandledAs known other)
    (hknown : known ∈ wellKnownNames) (hother : other ∈ wellKnownNames) : known = other := by
  apply writtenSamples_injective known hknown other hother
  apply List.map_congr_left
  intro value _
  exact @HandledAs.writes _ _ h signedTexts noFloatTexts _ _ _ _

theorem HandledAsOrdinary.not_suffix {name known : Bytes} (h : HandledAsOrdinary name)
    (hknown : known ∈ wellKnownNames) : ¬ known <:+ normalizeName name := by
  intro hsuffix
  apply writtenSamples_ne known hknown
  -- the writer has no form for the name, nor then for the well-known one
  rw [writtenSamples, List.mem_map]
  refine ⟨.double 0, List.mem_cons_self, ?_⟩
  have hsame := @HandledAs.writes _ _ (handledAs_of_suffix hknown hsuffix) signedTexts noFloatTexts
  have hnone := @HandledAsOrdinary.writes _ h signedTexts noFloatTexts
  rw [← hsame, hnone]

/-! ## Nulls of enums -/

theorem head?_of_writeJsonString {value text : Bytes} (h : writeJsonString value = .ok text) :
    text.head? = some 0x22 := by
  unfold writeJsonString at h
  split at h
  · cases h
  · split at h
    · rw [← Except.ok.inj h]
      rfl
    · rw [← Except.ok.inj h]
      rfl

theorem formatInt_ne_null (value : Int) : formatInt value ≠ ascii "null" := by
  intro h
  -- the first byte is none of a number
  have hletter : (0x6e : UInt8) ∈ formatInt value := by
    rw [h]
    decide
  unfold formatInt at hletter
  dsimp only at hletter
  have hdigits : (0x6e : UInt8) ∉
      (Nat.toDigits 10 value.natAbs).map (fun c => UInt8.ofNat c.toNat) := by
    intro hmem
    obtain ⟨c, hc, hbyte⟩ := List.mem_map.mp hmem
    have hdigit := Nat.isDigit_of_mem_toDigits (by decide) (by decide) hc
    have hrange : 48 ≤ c.toNat ∧ c.toNat ≤ 57 := by
      simpa [Char.isDigit, Char.le_def, UInt32.le_iff_toNat_le] using hdigit
    have heq := congrArg UInt8.toNat hbyte
    rw [UInt8.toNat_ofNat_of_lt' (show c.toNat < 256 by omega)] at heq
    have hn : (0x6e : UInt8).toNat = 110 := rfl
    omega
  split at hletter
  · rcases List.mem_cons.mp hletter with hsign | hmem
    · exact absurd hsign (by decide)
    · exact hdigits hmem
  · exact hdigits hletter

section

variable {file : FileDescriptor} {registry : Option Registry} {current : MessageDescriptor}
  {name : Bytes}

/-- Only the enum recognised as `NullValue` is written as a null. -/
theorem typeNameEqualsInFile_of_writeEnum {options : Options} {value : Value}
    (h : writeEnum file registry current options name value = .ok (ascii "null")) :
    typeNameEqualsInFile file name (ascii "google.protobuf.NullValue") = true := by
  by_contra hother
  rw [Bool.not_eq_true] at hother
  unfold writeEnum at h
  cases value with
  | enumeration number =>
      dsimp only at h
      rw [hother, Bool.false_and, if_neg Bool.false_ne_true] at h
      split at h
      · have hquoted := head?_of_writeJsonString h
        exact absurd hquoted (by decide)
      · exact formatInt_ne_null _ (Except.ok.inj h)
  | _ => cases h

theorem typeNameEqualsInFile_of_parseEnum [Conversions] {enumeration : EnumDescriptor}
    {value : Value} (hfound : registryEnumDescriptor file registry current name = some enumeration)
    (hvalues : enumeration.values.length ≠ 1)
    (h : parseEnumWithRegistry file registry current name .null = .ok value) :
    typeNameEqualsInFile file name (ascii "google.protobuf.NullValue") = true := by
  by_contra hother
  rw [parseEnumWithRegistry, hfound] at h
  simp [hother, hvalues] at h

end

/-! ## By the full name -/

/-- The file declares the type under the full name. -/
def DeclaredAs (file : FileDescriptor) (type : TypeRef) (fullName : Bytes) : Prop :=
  (components fullName, type) ∈ file.declaredTypes

section

variable (file : FileDescriptor) (registry : Option Registry) (current : MessageDescriptor)
  (name : Bytes)

/-- The forms of the well-known types are for the types with their full names only. The messages
under the name are ordinary ones on both sides, or both sides handle them as the well-known type
whose full name theirs is. A null is a message only for `Value`, and the value of an enum only for
`NullValue`; where an enum has a single value the reader lets a null stand for that one. -/
structure RecognisedByFullName : Prop where
  messages : ∀ descriptor,
    resolveMessageDescriptorWithRegistry file registry current name = some descriptor →
      HandledAsOrdinary name ∨ ∃ known ∈ wellKnownNames,
        DeclaredAs (messageDefiningFile file registry descriptor) (.message descriptor) known
          ∧ HandledAs name known
  nullMessages : ∀ descriptor,
    resolveMessageDescriptorWithRegistry file registry current name = some descriptor →
      registryEnumDescriptor file registry current name = none →
        ∀ field : FieldDescriptor, field.kind = .message name →
          jsonNullSkipsField file registry current field = false →
            DeclaredAs (messageDefiningFile file registry descriptor) (.message descriptor)
              (ascii "google.protobuf.Value")
  writtenNulls : ∀ enumeration,
    registryEnumDescriptor file registry current name = some enumeration →
      ∀ options value, writeEnum file registry current options name value = .ok (ascii "null") →
        DeclaredAs (enumDefiningFile file registry enumeration) (.enumeration enumeration)
          (ascii "google.protobuf.NullValue")
  readNulls : ∀ enumeration,
    registryEnumDescriptor file registry current name = some enumeration →
      enumeration.values.length ≠ 1 → ∀ [Conversions] (value : Value),
        parseEnumWithRegistry file registry current name .null = .ok value →
          DeclaredAs (enumDefiningFile file registry enumeration) (.enumeration enumeration)
            (ascii "google.protobuf.NullValue")

/-- Where the name ends in a well-known one, or is one behind the package of the file, it leads to
the type with this full name. -/
structure LeadsToWhatItEndsIn : Prop where
  messages : ∀ descriptor,
    resolveMessageDescriptorWithRegistry file registry current name = some descriptor →
      ∀ known ∈ wellKnownNames, known <:+ normalizeName name →
        DeclaredAs (messageDefiningFile file registry descriptor) (.message descriptor) known
  values : ∀ descriptor,
    resolveMessageDescriptorWithRegistry file registry current name = some descriptor →
      registryEnumDescriptor file registry current name = none →
        typeNameEqualsInFile file name (ascii "google.protobuf.Value") = true
            ∨ typeNameEqualsInFile file name (ascii "google.protobuf.NullValue") = true →
          DeclaredAs (messageDefiningFile file registry descriptor) (.message descriptor)
            (ascii "google.protobuf.Value")
  nullValues : ∀ enumeration,
    registryEnumDescriptor file registry current name = some enumeration →
      typeNameEqualsInFile file name (ascii "google.protobuf.NullValue") = true →
        DeclaredAs (enumDefiningFile file registry enumeration) (.enumeration enumeration)
          (ascii "google.protobuf.NullValue")

variable {file registry current name}

theorem jsonNullSkipsField_message {field : FieldDescriptor} (hkind : field.kind = .message name)
    (henum : registryEnumDescriptor file registry current name = none) :
    jsonNullSkipsField file registry current field
      = (!typeNameEqualsInFile file name (ascii "google.protobuf.Value")
        && !(field.oneofName.isSome
          && typeNameEqualsInFile file name (ascii "google.protobuf.NullValue"))) := by
  rw [jsonNullSkipsField, hkind, fieldKindIsNullValueEnum]
  simp [FieldKind.enumName, henum]

theorem LeadsToWhatItEndsIn.recognisedByFullName
    (h : LeadsToWhatItEndsIn file registry current name) :
    RecognisedByFullName file registry current name := by
  constructor
  · intro descriptor hfound
    by_cases hends : ∃ known ∈ wellKnownNames, known <:+ normalizeName name
    · obtain ⟨known, hknown, hsuffix⟩ := hends
      exact .inr ⟨known, hknown, h.messages descriptor hfound known hknown hsuffix,
        handledAs_of_suffix hknown hsuffix⟩
    · exact .inl (handledAsOrdinary_of_not_suffix (fun known hknown hsuffix =>
        hends ⟨known, hknown, hsuffix⟩))
  · intro descriptor hfound henum field hkind hkept
    apply h.values descriptor hfound henum
    rw [jsonNullSkipsField_message hkind henum, Bool.and_eq_false_iff, Bool.not_eq_false',
      Bool.not_eq_false', Bool.and_eq_true] at hkept
    exact hkept.imp_right And.right
  · intro enumeration hfound options value hwritten
    exact h.nullValues enumeration hfound (typeNameEqualsInFile_of_writeEnum hwritten)
  · intro enumeration hfound hvalues _ value hread
    exact h.nullValues enumeration hfound
      (typeNameEqualsInFile_of_parseEnum hfound hvalues hread)

theorem RecognisedByFullName.leadsToWhatItEndsIn
    (h : RecognisedByFullName file registry current name) :
    LeadsToWhatItEndsIn file registry current name := by
  constructor
  · intro descriptor hfound known hknown hsuffix
    rcases h.messages descriptor hfound with hordinary | ⟨other, hother, hdeclared, hhandled⟩
    · exact absurd hsuffix (hordinary.not_suffix hknown)
    · -- the name is handled as the one and as the other, which are therefore the same
      have hsuffixed := handledAs_of_suffix hknown hsuffix
      have hsame : HandledAs known other :=
        { reads := fun registry options file descriptor node => by
            rw [← hsuffixed.reads, hhandled.reads]
          writes := fun nested registry file message => by
            rw [← hsuffixed.writes, hhandled.writes]
          envelope := by rw [← hsuffixed.envelope, hhandled.envelope] }
      rw [hsame.eq hknown hother]
      exact hdeclared
  · intro descriptor hfound henum hends
    -- in a oneof either of the names keeps a null
    apply h.nullMessages descriptor hfound henum
      { name := [], number := 1, kind := .message name, oneofName := some [] } rfl
    rw [jsonNullSkipsField_message rfl henum]
    rcases hends with hvalue | hnull
    · simp [hvalue]
    · simp [hnull]
  · intro enumeration hfound hends
    apply h.writtenNulls enumeration hfound {} (.enumeration 0)
    rw [writeEnum, hends]
    rfl

/-- The well-known types are recognised by the full names of the types if and only if a name that
ends in a well-known one leads to the type with that full name. -/
theorem recognisedByFullName_iff : RecognisedByFullName file registry current name ↔
    LeadsToWhatItEndsIn file registry current name :=
  ⟨RecognisedByFullName.leadsToWhatItEndsIn, LeadsToWhatItEndsIn.recognisedByFullName⟩

/-! ## What ordinary messages are read and written as -/

variable [Conversions] [KnownTexts] {options : Options} {descriptor : MessageDescriptor}

theorem HandledAsOrdinary.parseValue_eq (h : HandledAsOrdinary name)
    (henum : registryEnumDescriptor file registry current name = none)
    (hfound : resolveMessageDescriptorWithRegistry file registry current name = some descriptor)
    (node : Node) : parseValue registry options file current (.message name) node
      = (fillMessageNode registry options (messageDefiningFile file registry descriptor)
          (.init descriptor) node).map .message := by
  rw [parseValue, henum, hfound]
  simp only [Option.isSome_none, Bool.false_eq_true, if_false, orMismatch, h.reads]
  rfl

theorem HandledAsOrdinary.writeValue_eq [FloatTexts] (h : HandledAsOrdinary name)
    (henum : registryEnumDescriptor file registry current name = none) (levels : Nat)
    (message : DynamicMessage) :
    writeValue (writersAt registry options (levels + 1)) registry options file current
        (.message name) (.message message)
      = (writersAt registry options (levels + 1)).writeMessage
          (messageDefiningFile file registry message.descriptor) message := by
  rw [writeValue, henum]
  simp only [Option.isSome_none, Bool.false_eq_true, if_false, writersAt, h.writes]
  rfl

end

/-! ## An `Empty` of another package -/

/-- `package my.google.protobuf; message Empty { int32 x = 1; }` -/
abbrev ownEmpty : MessageDescriptor :=
  { name := ascii "Empty", address := 1,
    fields := [{ name := ascii "x", number := 1, kind := .scalar .int32 }] }

/-- `message M { my.google.protobuf.Empty e = 1; }` -/
abbrev emptyHolder : MessageDescriptor :=
  { name := ascii "M", address := 2,
    fields :=
      [{ name := ascii "e", number := 1, kind := .message (ascii "my.google.protobuf.Empty") }] }

abbrev ownEmptyFile : FileDescriptor :=
  { ({} : FileDescriptor).setSyntax .proto3 with
    package := ascii "my.google.protobuf", messages := [ownEmpty, emptyHolder] }

/-- The message `e: { x: 1 }`. -/
def heldEmpty : DynamicMessage :=
  (DynamicMessage.init emptyHolder).add emptyHolder.fields[0]
    (.message ((DynamicMessage.init ownEmpty).add ownEmpty.fields[0] (.int32 1)))

/-- The `Empty` of the package `my.google.protobuf` is none of `google.protobuf`, but its field is
unknown to the reader and the writer leaves it out. -/
theorem exists_empty_of_other_package :
    resolveMessageDescriptorWithRegistry ownEmptyFile none emptyHolder
      (ascii "my.google.protobuf.Empty") = some ownEmpty ∧
    DeclaredAs ownEmptyFile (.message ownEmpty) (ascii "my.google.protobuf.Empty") ∧
    @fillMessage none {} noConversions noKnownTexts ownEmptyFile (.init emptyHolder)
      (.object [(ascii "e", .object [(ascii "x", .integer 1)])]) = .error .unknownField ∧
    @stringify noConversions noKnownTexts noFloatTexts none {} 3 ownEmptyFile heldEmpty
      = .ok (ascii "\x7b\"e\":\x7b\x7d\x7d") ∧
    ¬ RecognisedByFullName ownEmptyFile none emptyHolder (ascii "my.google.protobuf.Empty") := by
  have hfound : resolveMessageDescriptorWithRegistry ownEmptyFile none emptyHolder
      (ascii "my.google.protobuf.Empty") = some ownEmpty := by rfl
  refine ⟨hfound, ?_, by rfl, by rfl, ?_⟩
  · exact List.mem_cons_self
  · intro h
    have hdeclared := h.leadsToWhatItEndsIn.messages ownEmpty hfound
      (ascii "google.protobuf.Empty") (by decide +kernel) (by decide +kernel)
    have hpaths : components (ascii "google.protobuf.Empty")
        ∈ ownEmptyFile.declaredTypes.map Prod.fst := List.mem_map_of_mem hdeclared
    exact absurd hpaths (by decide +kernel)

end Json

end Pbz
