import Pbz.Parser.Frames
import Pbz.Parser.Outcome

set_option autoImplicit false

/-! # What an accepted file is like

The checks of a message make it well formed, and those of an enum of a proto3 file make it start
with zero. The parser makes the first ones behind the closing brace of a `message`, so the body of
a group escapes them, and it makes both with the syntax that the file has at that point.
-/

namespace Pbz

open Check

/-! ## Well-formed descriptors -/

/-- The ranges share no number. -/
def ReservedRange.Apart (range other : ReservedRange) (maxEnd : Int) : Prop :=
  ∀ number, ¬ (range.containsWithMax number maxEnd = true ∧ other.containsWithMax number maxEnd = true)

theorem ReservedRange.apart_of_overlaps {range other : ReservedRange} {maxEnd : Int}
    (h : range.overlapsWithMax other maxEnd = false) : range.Apart other maxEnd := by
  rintro number ⟨hrange, hother⟩
  simp only [overlapsWithMax, Bool.and_eq_false_iff, decide_eq_false_iff_not] at h
  simp only [containsWithMax, Bool.and_eq_true, decide_eq_true_eq] at hrange hother
  omega

/-- The range of numbers of an extension range. -/
def ExtensionRange.numbers (range : ExtensionRange) : ReservedRange := ⟨range.start, range.end⟩

/-- The fields of a message are told apart and keep off its reserved and extension ranges, which
are disjoint. -/
@[mk_iff]
structure MessageDescriptor.WellFormed (message : MessageDescriptor) : Prop where
  numbers : message.fields.Pairwise (fun field other => field.number ≠ other.number)
  names : message.fields.Pairwise (fun field other => field.name ≠ other.name)
  jsonNames : message.fields.Pairwise
    (fun field other => field.effectiveJsonName ≠ other.effectiveJsonName)
  reservedNumbers : ∀ field ∈ message.fields, ∀ range ∈ message.reservedRanges,
    range.containsWithMax field.number message.extensionRangeMaxExclusive = false
  reservedNames : ∀ field ∈ message.fields, field.name ∉ message.reservedNames
  extensionNumbers : ∀ field ∈ message.fields, ∀ range ∈ message.extensionRanges,
    range.containsInMessage message field.number = false
  reservedApart : message.reservedRanges.Pairwise
    (fun range other => range.Apart other message.extensionRangeMaxExclusive)
  extensionsApart : message.extensionRanges.Pairwise
    (fun range other => range.numbers.Apart other.numbers message.extensionRangeMaxExclusive)
  extensionsReservedApart : ∀ range ∈ message.extensionRanges, ∀ reserved ∈ message.reservedRanges,
    range.numbers.Apart reserved message.extensionRangeMaxExclusive

/-- The enums of a file, at any depth. -/
def EnumIn (file : FileDescriptor) (enumeration : EnumDescriptor) : Prop :=
  enumeration ∈ file.enums ∨ ∃ message, DeclaredIn file message ∧ enumeration ∈ message.enums

def EnumDescriptor.StartsWithZero (enumeration : EnumDescriptor) : Prop :=
  enumeration.values.head?.map (·.number) = some 0

/-- What proto3 asks for. -/
structure FileDescriptor.ProtoThree (file : FileDescriptor) : Prop where
  extensionRanges : ∀ message, DeclaredIn file message → message.extensionRanges = []
  enums : ∀ enumeration, EnumIn file enumeration → enumeration.StartsWithZero

structure FileDescriptor.WellFormed (file : FileDescriptor) : Prop where
  messages : ∀ message, DeclaredIn file message → message.WellFormed
  protoThree : file.fileSyntax = .proto3 → file.ProtoThree

namespace Parser

open Program

/-! ## What the checks establish -/

theorem effectiveJsonNamesEqual_eq (a b : FieldDescriptor) :
    effectiveJsonNamesEqual a b = (a.effectiveJsonName == b.effectiveJsonName) := by
  unfold effectiveJsonNamesEqual FieldDescriptor.effectiveJsonName
  cases a.jsonName with
  | some aJson =>
      cases b.jsonName with
      | some bJson => rfl
      | none => exact Bool.beq_comm
  | none =>
      cases b.jsonName with
      | some bJson => rfl
      | none => rfl

theorem wellFormed_of_validateMessageFields {message : MessageDescriptor} {fileSyntax : Syntax}
    (h : validateMessageFields message fileSyntax = .ok ()) : message.WellFormed := by
  simp only [validateMessageFields, bind_eq_ok] at h
  obtain ⟨hreserved, hextensions, -, hjson, hfields⟩ := h
  simp only [validateReserved, bind_eq_ok] at hreserved
  simp only [validateExtensionRanges, bind_eq_ok] at hextensions
  obtain ⟨hreservedRanges, -⟩ := hreserved
  obtain ⟨-, hextensionRanges⟩ := hextensions
  constructor
  case numbers =>
    refine pairwise_of_forTails hfields fun field others hcheck other hother => ?_
    simp only [bind_eq_ok, forEach_eq_ok, reject_eq_ok] at hcheck
    have hne := hcheck.1 other hother
    simp_all
  case names =>
    refine pairwise_of_forTails hfields fun field others hcheck other hother => ?_
    simp only [bind_eq_ok, forEach_eq_ok, reject_eq_ok] at hcheck
    have hne := hcheck.1 other hother
    simp_all
  case jsonNames =>
    refine pairwise_of_forTails hjson fun field others hcheck other hother => ?_
    have hne : effectiveJsonNamesEqual field other = false := by
      cases hname : field.jsonName with
      | some jsonName =>
          simp only [hname, bind_eq_ok, forEach_eq_ok, reject_eq_ok] at hcheck
          exact (hcheck.2.2 other hother).2
      | none =>
          simp only [hname, bind_eq_ok, forEach_eq_ok, reject_eq_ok] at hcheck
          exact (hcheck.2 other hother).2
    rw [effectiveJsonNamesEqual_eq] at hne
    simpa using hne
  case reservedNumbers =>
    refine forall_of_forTails hfields fun field others hcheck range hrange => ?_
    simp only [bind_eq_ok, forEach_eq_ok, reject_eq_ok] at hcheck
    exact hcheck.2.1 range hrange
  case extensionNumbers =>
    refine forall_of_forTails hfields fun field others hcheck range hrange => ?_
    simp only [bind_eq_ok, forEach_eq_ok, reject_eq_ok] at hcheck
    exact hcheck.2.2.1 range hrange
  case reservedNames =>
    refine forall_of_forTails hfields fun field others hcheck hname => ?_
    simp only [bind_eq_ok, forEach_eq_ok, reject_eq_ok] at hcheck
    have hne := hcheck.2.2.2 field.name hname
    simp at hne
  case reservedApart =>
    refine pairwise_of_forTails hreservedRanges fun range others hcheck other hother => ?_
    simp only [bind_eq_ok, forEach_eq_ok, reject_eq_ok] at hcheck
    exact ReservedRange.apart_of_overlaps (hcheck.2 other hother).2
  case extensionsApart =>
    refine pairwise_of_forTails hextensionRanges fun range others hcheck other hother => ?_
    simp only [bind_eq_ok, forEach_eq_ok, reject_eq_ok] at hcheck
    exact ReservedRange.apart_of_overlaps (hcheck.2.1 other hother).2
  case extensionsReservedApart =>
    refine forall_of_forTails hextensionRanges fun range others hcheck reserved hmem => ?_
    simp only [bind_eq_ok, forEach_eq_ok, reject_eq_ok] at hcheck
    exact ReservedRange.apart_of_overlaps (hcheck.2.2 reserved hmem)

theorem extensionRanges_of_validateMessageFields {message : MessageDescriptor}
    (h : validateMessageFields message .proto3 = .ok ()) : message.extensionRanges = [] := by
  simp only [validateMessageFields, validateExtensionRanges, bind_eq_ok, reject_eq_ok] at h
  have hempty := h.2.1.1
  simpa using hempty

theorem startsWithZero_of_validateEnum {enumeration : EnumDescriptor}
    (h : validateEnum enumeration .proto3 = .ok ()) : enumeration.StartsWithZero := by
  simp only [validateEnum, bind_eq_ok, reject_eq_ok] at h
  obtain ⟨hne, hzero, -⟩ := h
  unfold EnumDescriptor.StartsWithZero
  cases hvalues : enumeration.values with
  | nil => simp [hvalues] at hne
  | cons value rest => simpa [hvalues] using hzero

/-! ## Messages as the productions return them -/

/-- `message` bears the name of a group among the fields of its parent. -/
def IsGroupBody (owners : List FieldDescriptor) (message : MessageDescriptor) : Prop :=
  .group message.name ∈ owners.map (·.kind)

/-- A message is the body of a group, or it and its enums have been checked; so are those nested
in it. `owners` are the fields of its parent. -/
inductive Accounted (fileSyntax : Syntax) : List FieldDescriptor → MessageDescriptor → Prop where
  | group {owners : List FieldDescriptor} {message : MessageDescriptor}
      (hgroup : IsGroupBody owners message) (henums : message.enums = [])
      (hranges : message.extensionRanges = [])
      (hnested : ∀ nested ∈ message.messages,
        Accounted fileSyntax (message.fields ++ message.extensions) nested) :
      Accounted fileSyntax owners message
  | message {owners : List FieldDescriptor} {message : MessageDescriptor}
      (hfields : validateMessageFields message fileSyntax = .ok ())
      (henums : ∀ enumeration ∈ message.enums, validateEnum enumeration fileSyntax = .ok ())
      (hnested : ∀ nested ∈ message.messages,
        Accounted fileSyntax (message.fields ++ message.extensions) nested) :
      Accounted fileSyntax owners message

variable {fileSyntax : Syntax} {owners owners' : List FieldDescriptor} {message : MessageDescriptor}

/-- Of the parent only the kinds of its fields matter. -/
theorem Accounted.mono (h : Accounted fileSyntax owners message)
    (hsub : owners.map (·.kind) ⊆ owners'.map (·.kind)) : Accounted fileSyntax owners' message := by
  cases h with
  | group hgroup henums hranges hnested => exact .group (hsub hgroup) henums hranges hnested
  | message hfields henums hnested => exact .message hfields henums hnested

/-- The messages of a parent with these fields. -/
def AllAccounted (fileSyntax : Syntax) (owners : List FieldDescriptor)
    (messages : List MessageDescriptor) : Prop :=
  ∀ message ∈ messages, Accounted fileSyntax owners message

theorem AllAccounted.mono {messages : List MessageDescriptor}
    (h : AllAccounted fileSyntax owners messages)
    (hsub : owners.map (·.kind) ⊆ owners'.map (·.kind)) :
    AllAccounted fileSyntax owners' messages :=
  fun message hmem => (h message hmem).mono hsub

theorem AllAccounted.append {messages messages' : List MessageDescriptor}
    (h : AllAccounted fileSyntax owners messages) (h' : AllAccounted fileSyntax owners' messages') :
    AllAccounted fileSyntax (owners ++ owners') (messages ++ messages') := by
  intro message hmem
  rcases List.mem_append.mp hmem with hmem | hmem
  · exact h.mono (by simp) message hmem
  · exact h'.mono (by simp) message hmem

/-! ## Groups -/

variable {file : FileDescriptor} {rounds : Nat}

theorem applyNamedFieldOption_kind {field : FieldDescriptor} {option : FieldOption} :
    Gives file (applyNamedFieldOption fileSyntax field option)
      (fun result => result.kind = field.kind) := by
  refine .ite (.ite .fail (.pure rfl)) (.ite (.ite .fail ?_) ?_)
  · cases option.value with
    | string text => exact .pure rfl
    | _ => exact .fail
  refine .ite (.ite .fail (.pure rfl)) (.ite ?_ (.ite ?_ (.pure rfl)))
  · exact .skip fun _ => .pure rfl
  · exact .skip fun _ => .pure rfl

theorem applyFieldOption_kind {field : FieldDescriptor} {option : FieldOption} :
    Gives file (applyFieldOption field option) (fun result => result.kind = field.kind) := by
  refine .get fun _ _ => applyNamedFieldOption_kind.bind fun result hresult => ?_
  exact .skip fun _ => .pure hresult

theorem applyOptions_gives {α : Type} {apply : α → FieldOption → Parse α} {P : α → Prop}
    (happly : ∀ value option, P value → Gives file (apply value option) P)
    {options : List FieldOption} {value : α} (hvalue : P value) :
    Gives file (applyOptions apply options value) P := by
  induction options generalizing value with
  | nil => exact .pure hvalue
  | cons option rest ih => exact (happly value option hvalue).bind fun value hvalue => ih hvalue

/-- A field comes with the message of its body, if it is a group. -/
def FieldAccounted (fileSyntax : Syntax) (declared : FieldDescriptor × Option MessageDescriptor) :
    Prop :=
  AllAccounted fileSyntax [declared.1] declared.2.toList

/-- The body of a group has fields only. -/
structure GroupAccounted (fileSyntax : Syntax) (name : Bytes) (nested : MessageDescriptor) :
    Prop where
  name_eq : nested.name = name
  enums : nested.enums = []
  extensionRanges : nested.extensionRanges = []
  messages : AllAccounted fileSyntax (nested.fields ++ nested.extensions) nested.messages

theorem GroupAccounted.addField {name : Bytes} {nested : MessageDescriptor}
    {declared : FieldDescriptor × Option MessageDescriptor}
    (h : GroupAccounted fileSyntax name nested) (hdeclared : FieldAccounted fileSyntax declared) :
    GroupAccounted fileSyntax name (addField nested declared) := by
  refine ⟨h.name_eq, h.enums, h.extensionRanges, ?_⟩
  refine (h.messages.append hdeclared).mono ?_
  intro kind hkind
  simp_all [Parser.addField, or_comm, or_left_comm]

/-- What the body of a message has declared so far. -/
structure BodyAccounted (fileSyntax : Syntax) (message : MessageDescriptor) : Prop where
  enums : ∀ enumeration ∈ message.enums, validateEnum enumeration fileSyntax = .ok ()
  messages : AllAccounted fileSyntax (message.fields ++ message.extensions) message.messages

theorem BodyAccounted.addField {declared : FieldDescriptor × Option MessageDescriptor}
    (h : BodyAccounted fileSyntax message) (hdeclared : FieldAccounted fileSyntax declared) :
    BodyAccounted fileSyntax (addField message declared) := by
  refine ⟨h.enums, (h.messages.append hdeclared).mono ?_⟩
  intro kind hkind
  simp_all [Parser.addField, or_comm, or_left_comm]

theorem applyMessageOption_gives {option : FieldOption} (h : BodyAccounted fileSyntax message) :
    Gives file (applyMessageOption message option) (BodyAccounted fileSyntax) :=
  .ite .fail (.skip fun _ => .pure ⟨h.enums, h.messages⟩)

/-- What has been declared besides does not matter. -/
theorem BodyAccounted.congr {message' : MessageDescriptor} (h : BodyAccounted fileSyntax message)
    (henums : message'.enums = message.enums) (hmessages : message'.messages = message.messages)
    (howners : message'.fields ++ message'.extensions = message.fields ++ message.extensions) :
    BodyAccounted fileSyntax message' := by
  refine ⟨by rw [henums]; exact h.enums, ?_⟩
  rw [hmessages, howners]
  exact h.messages

theorem BodyAccounted.addMessage {nested : MessageDescriptor}
    (h : BodyAccounted fileSyntax message) (hnested : Accounted fileSyntax [] nested) :
    BodyAccounted fileSyntax { message with messages := message.messages ++ [nested] } := by
  have hone : AllAccounted fileSyntax [] [nested] := by simpa [AllAccounted] using hnested
  exact ⟨h.enums, (h.messages.append hone).mono (by simp)⟩

theorem BodyAccounted.addEnum {enumeration : EnumDescriptor}
    (h : BodyAccounted fileSyntax message)
    (henum : validateEnum enumeration fileSyntax = .ok ()) :
    BodyAccounted fileSyntax { message with enums := message.enums ++ [enumeration] } := by
  refine ⟨fun e he => ?_, h.messages⟩
  rcases List.mem_append.mp he with he | he
  · exact h.enums e he
  · exact List.mem_singleton.mp he ▸ henum

theorem BodyAccounted.addExtensions {extensions : List FieldDescriptor}
    {groups : List MessageDescriptor} (h : BodyAccounted fileSyntax message)
    (hgroups : AllAccounted fileSyntax extensions groups) :
    BodyAccounted fileSyntax
      { message with
        extensions := message.extensions ++ extensions
        messages := message.messages ++ groups } := by
  refine ⟨h.enums, (h.messages.append hgroups).mono ?_⟩
  simp

variable [FloatConversions]

theorem bracketedFieldOptions_kind {field : FieldDescriptor} :
    Gives file (bracketedFieldOptions rounds field) (fun result => result.kind = field.kind) := by
  refine .skip fun brackets => .ite (.skip fun options => ?_) (.pure rfl)
  refine applyOptions_gives (fun value option hvalue => ?_) rfl
  exact applyFieldOption_kind.imp fun result hresult => hresult.trans hvalue

/-- The fields of a group may be groups in turn. -/
theorem parseField_groupBody_gives (rounds : Nat) :
    (∀ oneofName, Gives file (parseField rounds oneofName) (FieldAccounted fileSyntax)) ∧
    (∀ cardinality oneofName, Gives file (parseGroupField rounds cardinality oneofName)
      (fun declared => FieldAccounted fileSyntax (declared.1, some declared.2))) ∧
    (∀ name nested, GroupAccounted fileSyntax name nested →
      Gives file (groupBody rounds nested) (GroupAccounted fileSyntax name)) := by
  induction rounds with
  | zero => exact ⟨fun _ => .fuel, fun _ _ => .fuel, fun _ _ _ => .fuel⟩
  | succ rounds ih =>
      obtain ⟨hfield, hgroup, hbody⟩ := ih
      refine ⟨fun oneofName => ?_, fun cardinality oneofName => ?_, fun name nested h => ?_⟩
      · refine .skip fun (cardinality, proto3Optional) => .skip fun isGroup => .ite ?_ ?_
        · refine .get fun s _ => .ite .fail (.ite .fail (.ite .fail ?_))
          exact (hgroup _ _).bind fun (field, nested) hdeclared => .pure hdeclared
        · refine .skip fun field => .pure ?_
          intro message hmessage
          simp at hmessage
      · refine .get fun s _ => .skip fun name => .ite .fail ?_
        refine .skip fun _ => .skip fun number => ?_
        refine bracketedFieldOptions_kind.bind fun field hkind => .skip fun _ => ?_
        refine (hbody name _ ⟨rfl, rfl, rfl, ?_⟩).bind fun nested hnested => .pure ?_
        · intro message hmessage
          simp at hmessage
        · intro message hmessage
          obtain rfl : message = nested := by simpa using hmessage
          refine .group ?_ hnested.enums hnested.extensionRanges hnested.messages
          simp [IsGroupBody, hkind, hnested.name_eq]
      · refine .skip fun isEnd => .ite (.pure h) (.skip fun _ => .skip fun isEmpty => ?_)
        refine .ite (hbody name nested h) ((hfield none).bind fun declared hdeclared => ?_)
        exact hbody name _ (h.addField hdeclared)

theorem parseField_gives {oneofName : Option Bytes} :
    Gives file (parseField rounds oneofName) (FieldAccounted fileSyntax) :=
  (parseField_groupBody_gives rounds).1 oneofName

/-! ## Enums and messages -/

theorem parseEnumAfterKeyword_gives :
    Gives file (parseEnumAfterKeyword rounds)
      (fun enumeration => validateEnum enumeration file.fileSyntax = .ok ()) := by
  refine .get fun _ _ => .skip fun name => .skip fun _ => .skip fun enumeration => ?_
  refine .get fun s hs => Gives.liftError.bind fun _ hvalid => .pure ?_
  rw [← hs]
  exact hvalid

theorem oneofBody_gives {oneofName : Bytes} (h : BodyAccounted fileSyntax message) :
    Gives file (oneofBody oneofName rounds message) (BodyAccounted fileSyntax) := by
  induction rounds generalizing message with
  | zero => exact .fuel
  | succ rounds ih =>
      refine .skip fun isEnd => .ite (.pure h) (.skip fun _ => .skip fun isOption => ?_)
      refine .ite ?_ (.skip fun isEmpty => .ite (ih h) ?_)
      · refine .skip fun option => .skip fun features => ih ?_
        unfold addOneofOption
        cases message.oneofs.getLast? with
        | none => exact h
        | some oneof => exact ⟨h.enums, h.messages⟩
      · exact parseField_gives.bind fun declared hdeclared => ih (h.addField hdeclared)

theorem parseOneof_gives (h : BodyAccounted fileSyntax message) :
    Gives file (parseOneof rounds message) (BodyAccounted fileSyntax) :=
  .skip fun _ => .skip fun _ => oneofBody_gives ⟨h.enums, h.messages⟩

theorem extendBody_gives {extendee scope : Bytes} {extensions : List FieldDescriptor}
    {groups : List MessageDescriptor} (h : AllAccounted fileSyntax extensions groups) :
    Gives file (extendBody extendee scope rounds extensions groups)
      (fun declared => AllAccounted fileSyntax declared.1 declared.2) := by
  induction rounds generalizing extensions groups with
  | zero => exact .fuel
  | succ rounds ih =>
      have hfield : Gives file (parseField rounds none) (FieldAccounted fileSyntax) :=
        parseField_gives
      refine .skip fun isEnd => .ite (.pure h) (.skip fun _ => .skip fun isEmpty => ?_)
      refine .ite (ih h) (hfield.bind fun declared hdeclared => .ite .fail ?_)
      exact ih (h.append (hdeclared.mono (by simp)))

theorem parseExtend_gives {scope : Bytes} :
    Gives file (parseExtend rounds scope)
      (fun declared => AllAccounted fileSyntax declared.1 declared.2) := by
  refine .skip fun _ => .skip fun _ => extendBody_gives ?_
  intro message hmessage
  simp at hmessage

/-- One declaration in the body of a message. -/
theorem messageBody_step {scope : Bytes}
    (hmessage : Gives file (parseMessageAfterKeyword rounds scope) (Accounted file.fileSyntax []))
    (hbody : ∀ message, BodyAccounted file.fileSyntax message →
      Gives file (messageBody scope rounds message) (BodyAccounted file.fileSyntax))
    (h : BodyAccounted file.fileSyntax message) :
    Gives file (messageBody scope (rounds + 1) message) (BodyAccounted file.fileSyntax) := by
  refine .skip fun isEnd => .ite (.pure h) (.skip fun _ => .skip fun isOption => .ite ?_ ?_)
  · refine .skip fun option => ?_
    have hoptions : BodyAccounted file.fileSyntax
        { message with options := message.options ++ [option] } := h.congr rfl rfl rfl
    exact (applyMessageOption_gives hoptions).bind fun message h => hbody _ h
  refine .skip fun isMessage => .ite ?_ (.skip fun isEnum => .ite ?_ ?_)
  · exact hmessage.bind fun nested hnested => hbody _ (h.addMessage hnested)
  · exact parseEnumAfterKeyword_gives.bind fun enumeration henum => hbody _ (h.addEnum henum)
  refine .skip fun isOneof => .ite ?_ (.skip fun isExtensions => .ite ?_ ?_)
  · exact (parseOneof_gives h).bind fun message h => hbody _ h
  · exact .skip fun ranges => hbody _ (h.congr rfl rfl rfl)
  refine .skip fun isReserved => .ite ?_ (.skip fun isExtend => .ite ?_ ?_)
  · refine .skip fun reserved => ?_
    obtain ⟨ranges, names⟩ := reserved
    exact hbody _ (h.congr rfl rfl rfl)
  · have hextend : Gives file (parseExtend rounds scope)
        (fun declared => AllAccounted file.fileSyntax declared.1 declared.2) :=
      parseExtend_gives
    refine hextend.bind fun declared hdeclared => ?_
    obtain ⟨extensions, groups⟩ := declared
    exact hbody _ (h.addExtensions hdeclared)
  refine .skip fun isEmpty => .ite (hbody _ h) ?_
  exact parseField_gives.bind fun declared hdeclared => hbody _ (h.addField hdeclared)

/-- The messages in the body of a message have been checked in turn. -/
theorem parseMessage_messageBody_gives (rounds : Nat) :
    (∀ scope, Gives file (parseMessageAfterKeyword rounds scope)
      (Accounted file.fileSyntax [])) ∧
    (∀ scope message, BodyAccounted file.fileSyntax message →
      Gives file (messageBody scope rounds message) (BodyAccounted file.fileSyntax)) := by
  induction rounds with
  | zero => exact ⟨fun _ => .fuel, fun _ _ _ => .fuel⟩
  | succ rounds ih =>
      obtain ⟨hmessage, hbody⟩ := ih
      refine ⟨fun scope => ?_, fun scope message h => messageBody_step (hmessage _) (hbody _) h⟩
      refine .get fun _ _ => .skip fun name => .skip fun _ => ?_
      refine (hbody _ _ ⟨by simp, ?_⟩).bind fun message h => .get fun s hs => ?_
      · intro message hmessage
        simp at hmessage
      · refine Gives.liftError.bind fun _ hvalid => .pure ?_
        rw [hs] at hvalid
        exact .message hvalid h.enums h.messages

/-! ## Declarations of a file -/

/-- What a declaration does to the file: it sets something besides messages, enums and extensions,
or it adds messages with the extensions among whose groups they may be, or an enum. The syntax is
set behind the word `syntax` only, except to an edition. -/
inductive Declares (s : Parser) : FileDescriptor → Prop where
  | header {file : FileDescriptor} (hmessages : file.messages = s.file.messages)
      (henums : file.enums = s.file.enums) (hextensions : file.extensions = s.file.extensions)
      (hkept : file.fileSyntax = s.file.fileSyntax ∨ file.fileSyntax = .editions ∨
        s.current.isIdent (ascii "syntax") = true) : Declares s file
  | messages {extensions : List FieldDescriptor} {messages : List MessageDescriptor}
      (h : AllAccounted s.file.fileSyntax extensions messages) :
      Declares s
        { s.file with
          extensions := s.file.extensions ++ extensions
          messages := s.file.messages ++ messages }
  | enumeration {enumeration : EnumDescriptor}
      (h : validateEnum enumeration s.file.fileSyntax = .ok ()) :
      Declares s { s.file with enums := s.file.enums ++ [enumeration] }

/-- The file keeps its messages, enums and extensions. -/
structure SameTypes (file file' : FileDescriptor) : Prop where
  messages : file'.messages = file.messages
  enums : file'.enums = file.enums
  extensions : file'.extensions = file.extensions

omit [FloatConversions] in
theorem parseSyntax_changes : Changes file (parseSyntax rounds) (SameTypes file) := by
  refine .skip fun _ => .skip fun _ => .skip fun fileSyntax => ?_
  have hset {fileSyntax : Syntax} : Changes file
      (modifyFile (·.setSyntax fileSyntax) >>= fun _ => expectSymbol 0x3b) (SameTypes file) :=
    .modify_skip ⟨rfl, rfl, rfl⟩
  exact .ite hset (.ite hset .fail)

omit [FloatConversions] in
theorem parseEdition_changes : Changes file (parseEdition rounds)
    (fun file' => SameTypes file file' ∧ file'.fileSyntax = .editions) := by
  refine .skip fun _ => .skip fun _ => .skip fun editionText => ?_
  cases Edition.fromYear editionText with
  | none => exact .fail
  | some edition => exact .modify_skip ⟨⟨rfl, rfl, rfl⟩, rfl⟩

/-- The file keeps its types and its syntax. -/
def SameHeader (file file' : FileDescriptor) : Prop :=
  SameTypes file file' ∧ file'.fileSyntax = file.fileSyntax

omit [FloatConversions] in
theorem parseImport_changes : Changes file (parseImport rounds) (SameHeader file) :=
  .skip fun _ => .skip fun _ => .skip fun _ => .modify ⟨⟨rfl, rfl, rfl⟩, rfl⟩

omit [FloatConversions] in
theorem addFileOption_changes {option : FieldOption} :
    Changes file (addFileOption option) (SameHeader file) := by
  refine .ite (.get fun s _ => .ite .fail ?_) (.modify ⟨⟨rfl, rfl, rfl⟩, rfl⟩)
  exact .skip fun features => .modify ⟨⟨rfl, rfl, rfl⟩, rfl⟩

omit [FloatConversions] in
/-- A program behind a matched word. -/
theorem Changes.declares {s : Parser} {p : Parse Unit} {post : FileDescriptor → Prop}
    (h : Changes s.file p post) (hpost : ∀ file', post file' → Declares s file') (s' : Parser)
    (hfile : s'.file = s.file) (hfollows : Follows s s') :
    wp p (fun _ s' => s'.Standing ∧ Declares s s'.file) (fun _ => True) s' :=
  wp_mono (h s' hfile hfollows.standing) (fun _ _ hs => ⟨hs.1.standing, hpost _ hs.2⟩)
    (fun _ h => h)

omit [FloatConversions] in
theorem SameHeader.declares {s : Parser} {file' : FileDescriptor} (h : SameHeader s.file file') :
    Declares s file' :=
  .header h.1.messages h.1.enums h.1.extensions (.inl h.2)

theorem parseDeclaration_declares {s : Parser} (hstand : s.Standing) :
    wp (parseDeclaration rounds) (fun _ s' => s'.Standing ∧ Declares s s'.file) (fun _ => True) s := by
  refine wp_matchIdent hstand (fun hword => ?_) (wp_matchIdent hstand (fun _ => ?_) ?_)
  · exact parseSyntax_changes.declares fun _ h =>
      .header h.messages h.enums h.extensions (.inr (.inr hword))
  · exact parseEdition_changes.declares fun _ h =>
      .header h.1.messages h.1.enums h.1.extensions (.inr (.inl h.2))
  refine wp_matchIdent hstand (fun _ => ?_) (wp_matchIdent hstand (fun _ => ?_) ?_)
  · have hpackage : Changes s.file (do
        let package ← parseFullIdent rounds
        modifyFile (fun file => { file with package := package })
        expectSymbol 0x3b) (SameHeader s.file) :=
      .skip fun package => .modify_skip ⟨⟨rfl, rfl, rfl⟩, rfl⟩
    exact hpackage.declares fun _ => SameHeader.declares
  · exact parseImport_changes.declares fun _ => SameHeader.declares
  refine wp_matchIdent hstand (fun _ => ?_) (wp_matchIdent hstand (fun _ => ?_) ?_)
  · have hoption : Changes s.file (parseOptionAssignmentStatement rounds >>= addFileOption)
        (SameHeader s.file) := .skip fun option => addFileOption_changes
    exact hoption.declares fun _ => SameHeader.declares
  · refine Changes.declares (.get fun s₁ hs₁ => ?_) fun _ h => h
    refine Changes.bind ((parseMessage_messageBody_gives rounds).1 _) fun message hmessage => ?_
    refine .modify ?_
    have hone : AllAccounted s.file.fileSyntax [] [message] := by
      simpa [AllAccounted] using hmessage
    simpa using Declares.messages hone
  refine wp_matchIdent hstand (fun _ => ?_) (wp_matchIdent hstand (fun _ => ?_) ?_)
  · refine Changes.declares ?_ fun _ h => h
    exact .bind parseEnumAfterKeyword_gives fun enumeration henum => .modify (.enumeration henum)
  · refine Changes.declares ?_ fun _ h => h
    exact .bind parseExtend_gives fun declared hdeclared => .modify (.messages hdeclared)
  refine wp_matchIdent hstand (fun _ => ?_) ?_
  · have hservice : Changes s.file (do
        let service ← parseServiceAfterKeyword rounds
        modifyFile (fun file => { file with services := file.services ++ [service] }))
        (SameHeader s.file) :=
      .skip fun service => .modify ⟨⟨rfl, rfl, rfl⟩, rfl⟩
    exact hservice.declares fun _ => SameHeader.declares
  · refine wp_mono (Frames.frame s hstand) ?_ (fun _ h => h)
    rintro _ s' ⟨hs', hfollows⟩
    exact ⟨hfollows.standing, .header (by rw [hs']) (by rw [hs']) (by rw [hs']) (.inl (by rw [hs']))⟩

end Parser

end Pbz
