import Pbz.Parser.Accepted

set_option autoImplicit false

/-! # What holds of all that the parser declares

A property of fields, one of enums and one of what else a message has hold everywhere in a file,
at any depth, if the productions that read a field, an enum and an option establish and keep them.
-/

namespace Pbz

namespace Parser

open Program

variable {K : FieldKind → Prop} {F : FieldDescriptor → Prop} {E : EnumDescriptor → Prop}
  {M : MessageDescriptor → Prop}

/-- The properties hold of a message and of all messages below it. -/
inductive Everywhere (F : FieldDescriptor → Prop) (E : EnumDescriptor → Prop)
    (M : MessageDescriptor → Prop) : MessageDescriptor → Prop where
  | mk {message : MessageDescriptor} (own : M message)
      (fields : ∀ field ∈ message.fields ++ message.extensions, F field)
      (enums : ∀ enumeration ∈ message.enums, E enumeration)
      (messages : ∀ nested ∈ message.messages, Everywhere F E M nested) : Everywhere F E M message

section Message

variable {message : MessageDescriptor}

theorem Everywhere.own (h : Everywhere F E M message) : M message := by
  cases h
  assumption

theorem Everywhere.fields (h : Everywhere F E M message) :
    ∀ field ∈ message.fields ++ message.extensions, F field := by
  cases h
  assumption

theorem Everywhere.enums (h : Everywhere F E M message) :
    ∀ enumeration ∈ message.enums, E enumeration := by
  cases h
  assumption

theorem Everywhere.messages (h : Everywhere F E M message) :
    ∀ nested ∈ message.messages, Everywhere F E M nested := by
  cases h
  assumption

/-- What has been declared in the message stays. -/
theorem Everywhere.congr {message' : MessageDescriptor} (h : Everywhere F E M message)
    (hown : M message') (hfields : message'.fields ++ message'.extensions
      = message.fields ++ message.extensions)
    (henums : message'.enums = message.enums) (hmessages : message'.messages = message.messages) :
    Everywhere F E M message' := by
  refine .mk hown ?_ ?_ ?_
  · rw [hfields]
    exact h.fields
  · rw [henums]
    exact h.enums
  · rw [hmessages]
    exact h.messages

end Message

/-- What a production declares: fields and messages. -/
def AllDeclared (F : FieldDescriptor → Prop) (E : EnumDescriptor → Prop)
    (M : MessageDescriptor → Prop) (fields : List FieldDescriptor)
    (messages : List MessageDescriptor) : Prop :=
  (∀ field ∈ fields, F field) ∧ ∀ message ∈ messages, Everywhere F E M message

theorem AllDeclared.append {fields fields' : List FieldDescriptor}
    {messages messages' : List MessageDescriptor} (h : AllDeclared F E M fields messages)
    (h' : AllDeclared F E M fields' messages') :
    AllDeclared F E M (fields ++ fields') (messages ++ messages') :=
  ⟨List.forall_mem_append.mpr ⟨h.1, h'.1⟩, List.forall_mem_append.mpr ⟨h.2, h'.2⟩⟩

variable [FloatConversions]

/-- The productions establish the properties: the one of kinds where a kind is read, and from it
the one of fields, the one of enums, and the one of messages from the name on. -/
structure Establishes (K : FieldKind → Prop) (F : FieldDescriptor → Prop)
    (E : EnumDescriptor → Prop) (M : MessageDescriptor → Prop) : Prop where
  kind : ∀ file rounds, Gives file (parseFieldKind rounds) K
  groupKind : ∀ name, K (.group name)
  field : ∀ file rounds name number cardinality kind oneofName proto3Optional address, K kind →
    Gives file (bracketedFieldOptions rounds
      { name := name, number := number, cardinality := cardinality, kind := kind,
        oneofName := oneofName, proto3Optional := proto3Optional, address := address }) F
  extension : ∀ field extendee fullName, F field →
    F { field with proto3Optional := false, extendee := extendee, fullName := fullName }
  enumeration : ∀ file rounds, Gives file (parseEnumAfterKeyword rounds) E
  name : ∀ name address, M { name := name, address := address }
  option : ∀ file message option, M message →
    Gives file (applyFeatureOption message.features option) (fun features =>
      M { message with options := message.options ++ [option], features := features })
  oneof : ∀ message name, M message →
    M { message with oneofs := message.oneofs ++ [{ name := name }] }
  oneofOption : ∀ file message option, M message →
    Gives file (applyFeatureOption (message.oneofs.getLast?.bind (·.features)) option)
      (fun features => M (addOneofOption message option features))
  body : ∀ (message : MessageDescriptor) fields messages enums extensions extensionRanges
    reservedRanges reservedNames, M message →
    M { message with
      fields := fields, messages := messages, enums := enums, extensions := extensions,
      extensionRanges := extensionRanges, reservedRanges := reservedRanges,
      reservedNames := reservedNames }

namespace Establishes

variable {file : FileDescriptor} {message : MessageDescriptor} {rounds : Nat}

section Additions

variable (h : Establishes K F E M) (hm : Everywhere F E M message)

include h hm

theorem addField {declared : FieldDescriptor × Option MessageDescriptor}
    (hdeclared : AllDeclared F E M [declared.1] declared.2.toList) :
    Everywhere F E M (addField message declared) := by
  obtain ⟨hfields, hextensions⟩ := List.forall_mem_append.mp hm.fields
  have hfields' := List.forall_mem_append.mpr ⟨hfields, hdeclared.1⟩
  exact .mk (h.body _ _ _ _ _ _ _ _ hm.own) (List.forall_mem_append.mpr ⟨hfields', hextensions⟩)
    hm.enums (List.forall_mem_append.mpr ⟨hm.messages, hdeclared.2⟩)

theorem addMessage {nested : MessageDescriptor} (hnested : Everywhere F E M nested) :
    Everywhere F E M { message with messages := message.messages ++ [nested] } :=
  .mk (h.body _ _ _ _ _ _ _ _ hm.own) hm.fields hm.enums
    (List.forall_mem_append.mpr ⟨hm.messages, by simpa using hnested⟩)

theorem addEnum {enumeration : EnumDescriptor} (henum : E enumeration) :
    Everywhere F E M { message with enums := message.enums ++ [enumeration] } :=
  .mk (h.body _ _ _ _ _ _ _ _ hm.own) hm.fields
    (List.forall_mem_append.mpr ⟨hm.enums, by simpa using henum⟩) hm.messages

theorem addExtensions {extensions : List FieldDescriptor} {groups : List MessageDescriptor}
    (hdeclared : AllDeclared F E M extensions groups) :
    Everywhere F E M { message with
      extensions := message.extensions ++ extensions
      messages := message.messages ++ groups } := by
  obtain ⟨hfields, hextensions⟩ := List.forall_mem_append.mp hm.fields
  have hextensions' := List.forall_mem_append.mpr ⟨hextensions, hdeclared.1⟩
  exact .mk (h.body _ _ _ _ _ _ _ _ hm.own)
    (List.forall_mem_append.mpr ⟨hfields, hextensions'⟩) hm.enums
    (List.forall_mem_append.mpr ⟨hm.messages, hdeclared.2⟩)

end Additions

/-! ## The productions -/

theorem parsePlainField (h : Establishes K F E M) {oneofName : Option Bytes}
    {cardinality : Cardinality} {proto3Optional : Bool} :
    Gives file (parsePlainField rounds oneofName cardinality proto3Optional) F := by
  refine (h.kind _ _).bind fun kind hkind => .get fun s _ => .ite .fail (.ite .fail ?_)
  refine .skip fun name => .skip fun _ => .skip fun number => ?_
  exact (h.field _ _ _ _ _ _ _ _ _ hkind).bind fun field hfield => .skip fun _ => .pure hfield

/-- The fields of a group may be groups in turn. -/
theorem parseField_groupBody (h : Establishes K F E M) (rounds : Nat) :
    (∀ oneofName, Gives file (parseField rounds oneofName)
      (fun declared => AllDeclared F E M [declared.1] declared.2.toList)) ∧
    (∀ cardinality oneofName, Gives file (parseGroupField rounds cardinality oneofName)
      (fun declared => AllDeclared F E M [declared.1] [declared.2])) ∧
    (∀ nested, Everywhere F E M nested →
      Gives file (groupBody rounds nested) (Everywhere F E M)) := by
  induction rounds with
  | zero => exact ⟨fun _ => .fuel, fun _ _ => .fuel, fun _ _ => .fuel⟩
  | succ rounds ih =>
      obtain ⟨hfield, hgroup, hbody⟩ := ih
      refine ⟨fun oneofName => ?_, fun cardinality oneofName => ?_, fun nested hnested => ?_⟩
      · refine .skip fun label => .skip fun isGroup => .ite ?_ ?_
        · refine .get fun s _ => .ite .fail (.ite .fail (.ite .fail ?_))
          exact (hgroup _ _).bind fun declared hdeclared => .pure hdeclared
        · refine h.parsePlainField.bind fun field hF => .pure ⟨?_, by simp⟩
          simpa using hF
      · refine .get fun s _ => .skip fun name => .ite .fail ?_
        refine .skip fun _ => .skip fun number => ?_
        refine (h.field _ _ _ _ _ _ _ _ _ (h.groupKind name)).bind fun field hF => .skip fun _ => ?_
        have hstart : Everywhere F E M { name := name, address := s.current.start } :=
          .mk (h.name _ _) (by simp) (by simp) (by simp)
        refine (hbody _ hstart).bind fun nested hnested => .pure ⟨?_, ?_⟩
        · simpa using hF
        · simpa using hnested
      · refine .skip fun isEnd => .ite (.pure hnested) (.skip fun _ => .skip fun isEmpty => ?_)
        refine .ite (hbody nested hnested) ((hfield none).bind fun declared hdeclared => ?_)
        exact hbody _ (h.addField hnested hdeclared)

theorem parseField (h : Establishes K F E M) {oneofName : Option Bytes} :
    Gives file (parseField rounds oneofName)
      (fun declared => AllDeclared F E M [declared.1] declared.2.toList) :=
  (h.parseField_groupBody rounds).1 oneofName

theorem oneofBody (h : Establishes K F E M) {oneofName : Bytes}
    (hm : Everywhere F E M message) :
    Gives file (oneofBody oneofName rounds message) (Everywhere F E M) := by
  induction rounds generalizing message with
  | zero => exact .fuel
  | succ rounds ih =>
      refine .skip fun isEnd => .ite (.pure hm) (.skip fun _ => .skip fun isOption => ?_)
      refine .ite ?_ (.skip fun isEmpty => .ite (ih hm) ?_)
      · refine .skip fun option => (h.oneofOption _ _ _ hm.own).bind fun features hown => ih ?_
        unfold addOneofOption at hown ⊢
        cases hlast : message.oneofs.getLast? with
        | none => exact hm
        | some oneof =>
            rw [hlast] at hown
            exact hm.congr hown rfl rfl rfl
      · exact h.parseField.bind fun declared hdeclared => ih (h.addField hm hdeclared)

theorem parseOneof (h : Establishes K F E M) (hm : Everywhere F E M message) :
    Gives file (parseOneof rounds message) (Everywhere F E M) :=
  .skip fun _ => .skip fun _ => h.oneofBody (hm.congr (h.oneof _ _ hm.own) rfl rfl rfl)

theorem extendBody (h : Establishes K F E M) {extendee scope : Bytes}
    {extensions : List FieldDescriptor} {groups : List MessageDescriptor}
    (hdeclared : AllDeclared F E M extensions groups) :
    Gives file (extendBody extendee scope rounds extensions groups)
      (fun declared => AllDeclared F E M declared.1 declared.2) := by
  induction rounds generalizing extensions groups with
  | zero => exact .fuel
  | succ rounds ih =>
      refine .skip fun isEnd => .ite (.pure hdeclared) (.skip fun _ => .skip fun isEmpty => ?_)
      refine .ite (ih hdeclared) (h.parseField.bind fun declared hfield => .ite .fail (ih ?_))
      have hF : F declared.1 := by simpa using hfield.1
      exact hdeclared.append ⟨by simpa using h.extension _ _ _ hF, hfield.2⟩

theorem parseExtend (h : Establishes K F E M) {scope : Bytes} :
    Gives file (parseExtend rounds scope)
      (fun declared => AllDeclared F E M declared.1 declared.2) :=
  .skip fun _ => .skip fun _ => h.extendBody ⟨by simp, by simp⟩

theorem applyMessageOption (h : Establishes K F E M) {option : FieldOption}
    (hm : Everywhere F E M message) :
    Gives file (applyMessageOption { message with options := message.options ++ [option] } option)
      (Everywhere F E M) :=
  .ite .fail ((h.option _ _ _ hm.own).bind fun _ hown => .pure (hm.congr hown rfl rfl rfl))

/-- One declaration in the body of a message. -/
theorem messageBody_step (h : Establishes K F E M) {scope : Bytes}
    (hmessage : Gives file (parseMessageAfterKeyword rounds scope) (Everywhere F E M))
    (hbody : ∀ message, Everywhere F E M message →
      Gives file (messageBody scope rounds message) (Everywhere F E M))
    (hm : Everywhere F E M message) :
    Gives file (messageBody scope (rounds + 1) message) (Everywhere F E M) := by
  refine .skip fun isEnd => .ite (.pure hm) (.skip fun _ => .skip fun isOption => .ite ?_ ?_)
  · exact .skip fun option => (h.applyMessageOption hm).bind fun message h => hbody _ h
  refine .skip fun isMessage => .ite ?_ (.skip fun isEnum => .ite ?_ ?_)
  · exact hmessage.bind fun nested hnested => hbody _ (h.addMessage hm hnested)
  · exact (h.enumeration _ _).bind fun enumeration henum => hbody _ (h.addEnum hm henum)
  refine .skip fun isOneof => .ite ?_ (.skip fun isExtensions => .ite ?_ ?_)
  · exact (h.parseOneof hm).bind fun message h => hbody _ h
  · refine .skip fun ranges => hbody _ ?_
    exact hm.congr (h.body _ _ _ _ _ _ _ _ hm.own) rfl rfl rfl
  refine .skip fun isReserved => .ite ?_ (.skip fun isExtend => .ite ?_ ?_)
  · refine .skip fun reserved => ?_
    obtain ⟨ranges, names⟩ := reserved
    exact hbody _ (hm.congr (h.body _ _ _ _ _ _ _ _ hm.own) rfl rfl rfl)
  · refine h.parseExtend.bind fun declared hdeclared => ?_
    obtain ⟨extensions, groups⟩ := declared
    exact hbody _ (h.addExtensions hm hdeclared)
  refine .skip fun isEmpty => .ite (hbody _ hm) ?_
  exact h.parseField.bind fun declared hdeclared => hbody _ (h.addField hm hdeclared)

theorem parseMessage_messageBody (h : Establishes K F E M) (rounds : Nat) :
    (∀ scope, Gives file (parseMessageAfterKeyword rounds scope) (Everywhere F E M)) ∧
    (∀ scope message, Everywhere F E M message →
      Gives file (messageBody scope rounds message) (Everywhere F E M)) := by
  induction rounds with
  | zero => exact ⟨fun _ => .fuel, fun _ _ _ => .fuel⟩
  | succ rounds ih =>
      obtain ⟨hmessage, hbody⟩ := ih
      refine ⟨fun scope => ?_, fun scope message hm =>
        h.messageBody_step (hmessage _) (hbody _) hm⟩
      refine .get fun s _ => .skip fun name => .skip fun _ => ?_
      have hstart : Everywhere F E M { name := name, address := s.current.start } :=
        .mk (h.name _ _) (by simp) (by simp) (by simp)
      exact (hbody _ _ hstart).bind fun message hm => .get fun _ _ => .skip fun _ => .pure hm

end Establishes

/-! ## Files -/

/-- The properties hold everywhere in a file. -/
structure FileEverywhere (F : FieldDescriptor → Prop) (E : EnumDescriptor → Prop)
    (M : MessageDescriptor → Prop) (file : FileDescriptor) : Prop where
  extensions : ∀ field ∈ file.extensions, F field
  enums : ∀ enumeration ∈ file.enums, E enumeration
  messages : ∀ message ∈ file.messages, Everywhere F E M message

variable {s : Parser} {rounds : Nat} {input : Bytes}

omit [FloatConversions] in
theorem SameTypes.everywhere {file file' : FileDescriptor} (h : SameTypes file file')
    (hfile : FileEverywhere F E M file) : FileEverywhere F E M file' :=
  ⟨by rw [h.extensions]; exact hfile.extensions, by rw [h.enums]; exact hfile.enums,
    by rw [h.messages]; exact hfile.messages⟩

omit [FloatConversions] in
/-- A program behind a matched word. -/
theorem Changes.wp_file {p : Parse Unit} {post post' : FileDescriptor → Prop}
    (h : Changes s.file p post) (hpost : ∀ file', post file' → post' file') (s' : Parser)
    (hfile : s'.file = s.file) (hfollows : Follows s s') :
    wp p (fun _ s' => post' s'.file) (fun _ => True) s' :=
  wp_mono (h s' hfile hfollows.standing) (fun _ _ hs => hpost _ hs.2) (fun _ h => h)

/-- A declaration keeps what has been declared, and the properties hold of what it adds. -/
theorem Establishes.parseDeclaration (h : Establishes K F E M) (hstand : s.Standing)
    (hs : FileEverywhere F E M s.file) :
    wp (parseDeclaration rounds) (fun _ s' => FileEverywhere F E M s'.file) (fun _ => True) s := by
  have hsame {file' : FileDescriptor} (hsame : SameTypes s.file file') :
      FileEverywhere F E M file' := hsame.everywhere hs
  refine wp_matchIdent hstand (fun hword => ?_) (wp_matchIdent hstand (fun _ => ?_) ?_)
  · exact parseSyntax_changes.wp_file fun _ => hsame
  · exact parseEdition_changes.wp_file fun _ hedition => hsame hedition.1
  refine wp_matchIdent hstand (fun _ => ?_) (wp_matchIdent hstand (fun _ => ?_) ?_)
  · have hpackage : Changes s.file (do
        let package ← parseFullIdent rounds
        modifyFile (fun file => { file with package := package })
        expectSymbol 0x3b) (SameTypes s.file) :=
      .skip fun package => .modify_skip ⟨rfl, rfl, rfl⟩
    exact hpackage.wp_file fun _ => hsame
  · exact parseImport_changes.wp_file fun _ himport => hsame himport.1
  refine wp_matchIdent hstand (fun _ => ?_) (wp_matchIdent hstand (fun _ => ?_) ?_)
  · have hoption : Changes s.file (parseOptionAssignmentStatement rounds >>= addFileOption)
        (SameHeader s.file) := .skip fun option => addFileOption_changes
    exact hoption.wp_file fun _ hheader => hsame hheader.1
  · refine Changes.wp_file (.get fun s₁ hs₁ => ?_) fun _ h => h
    refine Changes.bind ((h.parseMessage_messageBody rounds).1 _) fun message hmessage => ?_
    refine .modify ⟨hs.extensions, hs.enums, ?_⟩
    exact List.forall_mem_append.mpr ⟨hs.messages, by simpa using hmessage⟩
  refine wp_matchIdent hstand (fun _ => ?_) (wp_matchIdent hstand (fun _ => ?_) ?_)
  · refine Changes.wp_file ?_ fun _ h => h
    refine .bind (h.enumeration _ _) fun enumeration henum => ?_
    refine .modify ⟨hs.extensions, ?_, hs.messages⟩
    exact List.forall_mem_append.mpr ⟨hs.enums, by simpa using henum⟩
  · refine Changes.wp_file ?_ fun _ h => h
    refine .bind h.parseExtend fun declared hdeclared => .modify ⟨?_, hs.enums, ?_⟩
    · exact List.forall_mem_append.mpr ⟨hs.extensions, hdeclared.1⟩
    · exact List.forall_mem_append.mpr ⟨hs.messages, hdeclared.2⟩
  refine wp_matchIdent hstand (fun _ => ?_) ?_
  · have hservice : Changes s.file (do
        let service ← parseServiceAfterKeyword rounds
        modifyFile (fun file => { file with services := file.services ++ [service] }))
        (SameTypes s.file) :=
      .skip fun service => .modify ⟨rfl, rfl, rfl⟩
    exact hservice.wp_file fun _ => hsame
  · refine wp_mono (Frames.frame s hstand) ?_ (fun _ h => h)
    rintro _ s' ⟨hs', -⟩
    rw [hs']
    exact hs

/-- The properties hold everywhere in what has been parsed of a file. -/
theorem Establishes.reached (h : Establishes K F E M) (hs : Reached input rounds s) :
    FileEverywhere F E M s.file := by
  induction hs with
  | start hstart => exact ⟨by simp, by simp, by simp⟩
  | declaration hs hne hrun ih =>
      have hfile := post_of_wp (h.parseDeclaration hs.standing ih) hrun
      exact hfile

end Parser

end Pbz
