import Pbz.Descriptor.Decode
import Pbz.Descriptor.WireTypes

set_option autoImplicit false

/-! # The decoders read the declared fields

Each decoding function knows fields that `descriptor.proto` declares for its message type and
reads them with functions for their types (`Conforms`), so `Reads.decodeFields` applies to it, and
with it to the whole decoder of files.
-/

namespace Pbz

namespace Descriptor

variable {σ α : Type}

/-! ## Cases -/

section

variable {add : σ → FieldOption → σ} {name : String} {type : DescriptorType}

@[simp] theorem conforms_int32 {store : σ → BitVec 32 → Except Error σ} :
    (Known.int32 store).Conforms (.scalar .int32) := rfl

@[simp] theorem conforms_enumeration {store : σ → BitVec 32 → Except Error σ} :
    (Known.int32 store).Conforms .enumeration := rfl

@[simp] theorem conforms_int64 {store : σ → BitVec 64 → σ} :
    (Known.int64 store).Conforms (.scalar .int64) := rfl

@[simp] theorem conforms_uint64 {store : σ → Nat → σ} :
    (Known.uint64 store).Conforms (.scalar .uint64) := rfl

@[simp] theorem conforms_bool {store : σ → Bool → σ} :
    (Known.bool store).Conforms (.scalar .bool) := rfl

@[simp] theorem conforms_double {store : σ → BitVec 64 → σ} :
    (Known.double store).Conforms (.scalar .double) := rfl

@[simp] theorem conforms_bytes {store : σ → Bytes → Except Error σ} :
    (Known.bytes store).Conforms (.scalar .string) := ⟨rfl, by simp⟩

@[simp] theorem conforms_string {store : σ → Bytes → σ} :
    (Known.string store).Conforms (.scalar .string) := conforms_bytes

@[simp] theorem conforms_string_bytes {store : σ → Bytes → σ} :
    (Known.string store).Conforms (.scalar .bytes) := ⟨rfl, by simp⟩

@[simp] theorem conforms_int32List {store : σ → List (BitVec 32) → σ} :
    (Known.int32List store).Conforms .int32List := rfl

@[simp] theorem conforms_message {decode : σ → Bytes → Reading σ} :
    (Known.message decode).Conforms (.message type) ↔ ∀ state, Reads type (decode state) := by
  simp [Known.Conforms]

@[simp] theorem conforms_featureField {values : FeatureSet → List (BitVec 32 × FeatureSet)} :
    (featureField values).Conforms .enumeration := rfl

@[simp] theorem conforms_boolOption : (boolOption add name).Conforms (.scalar .bool) := rfl

@[simp] theorem conforms_stringOption : (stringOption add name).Conforms (.scalar .string) :=
  conforms_string

@[simp] theorem conforms_enumOption {min max : Int} :
    (enumOption add name min max).Conforms .enumeration := rfl

end

@[simp] theorem reads_nested {type : DescriptorType} {decode : Bytes → Reading α}
    {store : σ → α → Except Error σ} {state : σ} (h : Reads type decode) :
    Reads type (nested decode store state) := Reads.nested h state

attribute [local simp] Conforms DescriptorType.fields

/-! ## Options -/

@[simp] theorem decodeFeatureSet_reads : Reads .featureSet decodeFeatureSet :=
  Reads.decodeFields (by simp) _

@[simp] theorem decodeFeatureSupport_reads : Reads .featureSupport decodeFeatureSupport :=
  (Reads.decodeFields (by simp) _).andThen

@[simp] theorem decodeFieldEditionDefault_reads :
    Reads .fieldEditionDefault decodeFieldEditionDefault :=
  Reads.decodeFields (by simp) _

@[simp] theorem decodeUninterpretedNamePart_reads :
    Reads .uninterpretedNamePart decodeUninterpretedNamePart :=
  Reads.decodeFields (by simp) _

@[simp] theorem decodeUninterpretedOption_reads :
    Reads .uninterpretedOption decodeUninterpretedOption :=
  (Reads.decodeFields (by simp) _).andThen

@[simp] theorem conforms_uninterpretedOption {add : σ → FieldOption → σ} :
    (uninterpretedOption add).Conforms (.message .uninterpretedOption) := by
  simp [uninterpretedOption]

@[simp] theorem conforms_featureSetField {set : σ → FeatureSet → σ} :
    (featureSetField set).Conforms (.message .featureSet) := by
  simp [featureSetField]

@[simp] theorem conforms_featureSupportField {set : σ → FeatureSupport → σ} :
    (featureSupportField set).Conforms (.message .featureSupport) := by
  simp [featureSupportField]

@[simp] theorem decodeEnumOptions_reads (enumeration : EnumDescriptor) :
    Reads .enumOptions (decodeEnumOptions enumeration) :=
  Reads.decodeFields (by simp) _

@[simp] theorem decodeEnumValueOptions_reads (value : EnumValueDescriptor) :
    Reads .enumValueOptions (decodeEnumValueOptions value) :=
  Reads.decodeFields (by simp) _

@[simp] theorem decodeOneofOptions_reads (oneof : OneofDescriptor) :
    Reads .oneofOptions (decodeOneofOptions oneof) :=
  Reads.decodeFields (by simp) _

@[simp] theorem decodeServiceOptions_reads (service : ServiceDescriptor) :
    Reads .serviceOptions (decodeServiceOptions service) :=
  Reads.decodeFields (by simp) _

@[simp] theorem decodeMethodOptions_reads (method : MethodDescriptor) :
    Reads .methodOptions (decodeMethodOptions method) :=
  Reads.decodeFields (by simp) _

@[simp] theorem decodeMessageOptions_reads (message : MessageDescriptor) :
    Reads .messageOptions (decodeMessageOptions message) :=
  Reads.decodeFields (by simp) _

@[simp] theorem decodeFileOptions_reads (file : FileDescriptor) :
    Reads .fileOptions (decodeFileOptions file) :=
  Reads.decodeFields (by simp) _

@[simp] theorem decodeFieldOptions_reads : Reads .fieldOptions decodeFieldOptions :=
  Reads.decodeFields (by simp) _

@[simp] theorem decodeExtensionDeclaration_reads :
    Reads .extensionDeclaration decodeExtensionDeclaration :=
  Reads.decodeFields (by simp) _

@[simp] theorem decodeExtensionRangeOptions_reads (range : ExtensionRange) :
    Reads .extensionRangeOptions (decodeExtensionRangeOptions range) :=
  Reads.decodeFields (by simp) _

/-! ## Declarations -/

@[simp] theorem decodeReservedRange_reads (inclusiveEnd : Bool) :
    Reads .reservedRange (decodeReservedRange inclusiveEnd) :=
  (Reads.decodeFields (by simp) _).andThen

@[simp] theorem decodeExtensionRange_reads : Reads .extensionRange decodeExtensionRange :=
  (Reads.decodeFields (by simp) _).andThen

@[simp] theorem decodeEnumValueDescriptor_reads : Reads .enumValue decodeEnumValueDescriptor :=
  Reads.decodeFields (by simp) _

@[simp] theorem decodeEnumDescriptor_reads : Reads .enumeration decodeEnumDescriptor :=
  (Reads.decodeFields (by simp) _).andThen

@[simp] theorem decodeOneofDescriptor_reads : Reads .oneof decodeOneofDescriptor :=
  (Reads.decodeFields (by simp) _).andThen

@[simp] theorem decodeMethodDescriptor_reads : Reads .method decodeMethodDescriptor :=
  (Reads.decodeFields (by simp) _).andThen

@[simp] theorem decodeServiceDescriptor_reads : Reads .service decodeServiceDescriptor :=
  (Reads.decodeFields (by simp) _).andThen

@[simp] theorem decodeSourceCodeInfoLocation_reads :
    Reads .sourceLocation decodeSourceCodeInfoLocation :=
  (Reads.decodeFields (by simp) _).andThen

@[simp] theorem decodeSourceCodeInfo_reads : Reads .sourceCodeInfo decodeSourceCodeInfo :=
  Reads.decodeFields (by simp) _

section

variable [DefaultConversions]

@[simp] theorem decodeFieldDescriptor_reads : Reads .field decodeFieldDescriptor :=
  (Reads.decodeFields (by simp) _).andThen

/-- By induction on the levels: a message reads its fields if those in it do. -/
theorem decodeMessageAt_reads (levels : Nat) : Reads .message (decodeMessageAt levels) := by
  induction levels with
  | zero => intro bytes value log h; simp [decodeMessageAt] at h
  | succ levels ih =>
      have hfields : Conforms .message (messageFields (decodeMessageAt levels)) := by
        simp [messageFields, ih]
      exact (Reads.decodeFields hfields _).andThen

@[simp] theorem decodeMessageDescriptor_reads : Reads .message decodeMessageDescriptor :=
  fun bytes => decodeMessageAt_reads _ bytes

theorem fileFields_conforms : Conforms .file fileFields := by
  simp [fileFields]

/-! ## What an accepted file has been read from -/

/-- If the bytes are accepted, they and the bytes of every descriptor message inside are sequences
of fields, and every known field comes from a tag with a wire type of its declared type. -/
def ReadsWellFormed (bytes : Bytes) : Prop :=
  ∀ file log, decodeFileDescriptorProto bytes = .ok (file, log) → Log.Sound log

/-- An accepted byte string is well formed and read as what it is exactly if no field whose number
is known has another wire type than its declared type has. -/
theorem readsWellFormed_iff (bytes : Bytes) {file : FileDescriptor} {log : Log}
    (h : decodeFileDescriptorProto bytes = .ok (file, log)) :
    ReadsWellFormed bytes ↔ ¬ Mistyped .file bytes := by
  have hreads : Reads .file decodeFileDescriptorProto :=
    (Reads.decodeFields fileFields_conforms _).andThen
  rw [← hreads bytes file log h]
  constructor
  · exact fun hall => hall file log h
  · intro hsound file' log' h'
    rw [h, Except.ok.injEq, Prod.mk.injEq] at h'
    rw [← h'.2]
    exact hsound

end

/-- A file with a message `M` that has a field `f`. -/
theorem readsWellFormed_iff_message :
    let bytes : Bytes := [0x22, 0x0e, 0x0a, 0x01, 0x4d, 0x12, 0x09, 0x0a, 0x01, 0x66, 0x18, 0x01,
      0x20, 0x01, 0x28, 0x05]
    @ReadsWellFormed ⟨fun _ => none, fun _ => none⟩ bytes ↔ ¬ Mistyped .file bytes := by
  intro bytes
  have haccepted :
      (@decodeFileDescriptorProto ⟨fun _ => none, fun _ => none⟩ bytes).isOk = true := by
    decide +kernel
  cases hd : @decodeFileDescriptorProto ⟨fun _ => none, fun _ => none⟩ bytes with
  | error e => rw [hd] at haccepted; cases haccepted
  | ok decoded => exact @readsWellFormed_iff ⟨fun _ => none, fun _ => none⟩ bytes _ _ hd

/-- The name of a file under the tag of a varint: the number is taken for the length of the name,
and the name for a byte of text, although it is no field. -/
theorem exists_not_readsWellFormed :
    ∃ bytes : Bytes, bytes = [0x08, 0x01, 0x41] ∧ ¬ WireFields bytes
      ∧ ¬ @ReadsWellFormed ⟨fun _ => none, fun _ => none⟩ bytes := by
  refine ⟨_, rfl, fun h => ?_, fun h => ?_⟩
  · cases h with
    | field hn hs h =>
        cases hn
        cases hs
        cases h with
        | field hn hs _ =>
            cases hn
            cases hs
  · have hread : (@decodeFileDescriptorProto ⟨fun _ => none, fun _ => none⟩
        [0x08, 0x01, 0x41]).map Prod.snd
          = .ok [.message [0x08, 0x01, 0x41], .field .file 1 .varint] := by
      decide
    cases hd : @decodeFileDescriptorProto ⟨fun _ => none, fun _ => none⟩ [0x08, 0x01, 0x41] with
    | error e => rw [hd] at hread; cases hread
    | ok decoded =>
        rw [hd] at hread
        simp only [Except.map, Except.ok.injEq] at hread
        have hsound := h decoded.1 decoded.2 hd (.field .file 1 .varint) (by simp [hread])
        obtain ⟨declared, hdeclared, htype⟩ := hsound
        simp only [DescriptorType.declared, DescriptorType.fields, List.lookup_cons_self,
          Option.some.injEq] at hdeclared
        simp [← hdeclared, DeclaredType.wireTypes, ScalarType.wireType] at htype

end Descriptor

end Pbz
