import Pbz.Parser.WellFormed

set_option autoImplicit false

/-! # Accepted files

The states of a run between two declarations, the invariant that they keep, and when an accepted
file is well formed: when the bodies of its groups are, and when nothing in front of the syntax
line breaks a rule of proto3.
-/

namespace Pbz

/-- `message` is the body of a group of its parent. -/
def GroupBodyIn (file : FileDescriptor) (message : MessageDescriptor) : Prop :=
  (message ∈ file.messages ∧ Parser.IsGroupBody file.extensions message) ∨
    ∃ parent, DeclaredIn file parent ∧ message ∈ parent.messages ∧
      Parser.IsGroupBody (parent.fields ++ parent.extensions) message

theorem GroupBodyIn.declaredIn {file : FileDescriptor} {message : MessageDescriptor}
    (h : GroupBodyIn file message) : DeclaredIn file message := by
  rcases h with ⟨hmem, -⟩ | ⟨parent, hparent, hmem, -⟩
  · exact .top hmem
  · exact .nested hparent hmem

/-- `file'` has the messages and enums of `file`, and perhaps more. -/
structure FileDescriptor.Within (file file' : FileDescriptor) : Prop where
  messages : file.messages ⊆ file'.messages
  enums : file.enums ⊆ file'.enums

section

variable {file file' : FileDescriptor}

theorem DeclaredIn.within {message : MessageDescriptor} (h : DeclaredIn file message)
    (hsub : file.messages ⊆ file'.messages) : DeclaredIn file' message := by
  induction h with
  | top hmem => exact .top (hsub hmem)
  | nested houter hmem ih => exact .nested ih hmem

theorem FileDescriptor.ProtoThree.within (h : file'.ProtoThree) (hw : file.Within file') :
    file.ProtoThree := by
  refine ⟨fun message hm => h.extensionRanges message (hm.within hw.messages), ?_⟩
  rintro enumeration (henum | ⟨message, hm, henum⟩)
  · exact h.enums enumeration (.inl (hw.enums henum))
  · exact h.enums enumeration (.inr ⟨message, hm.within hw.messages, henum⟩)

end

namespace Parser

open Program

/-! ## The invariant of the files -/

/-- Every message is accounted for, under one syntax or another. -/
def EveryAccounted (syntaxes : Syntax → Prop) (file : FileDescriptor) : Prop :=
  ∀ message ∈ file.messages, ∃ fileSyntax, syntaxes fileSyntax ∧
    Accounted fileSyntax file.extensions message

variable {file : FileDescriptor} {message : MessageDescriptor} {syntaxes : Syntax → Prop}

/-- So is every nested message, by the fields of its parent. -/
theorem EveryAccounted.declaredIn (h : EveryAccounted syntaxes file)
    (hm : DeclaredIn file message) :
    ∃ fileSyntax owners, syntaxes fileSyntax ∧ Accounted fileSyntax owners message ∧
      (IsGroupBody owners message → GroupBodyIn file message) := by
  induction hm with
  | top hmem =>
      obtain ⟨fileSyntax, hkept, haccounted⟩ := h _ hmem
      exact ⟨fileSyntax, file.extensions, hkept, haccounted, fun hgroup => .inl ⟨hmem, hgroup⟩⟩
  | @nested outer message houter hmem ih =>
      obtain ⟨fileSyntax, owners, hkept, haccounted, -⟩ := ih
      refine ⟨fileSyntax, outer.fields ++ outer.extensions, hkept, ?_,
        fun hgroup => .inr ⟨outer, houter, hmem, hgroup⟩⟩
      cases haccounted with
      | group hgroup henums hranges hnested => exact hnested _ hmem
      | message hfields henums hnested => exact hnested _ hmem

/-- Only bodies of groups may be ill formed. -/
theorem EveryAccounted.wellFormed (h : EveryAccounted syntaxes file)
    (hm : DeclaredIn file message) : GroupBodyIn file message ∨ message.WellFormed := by
  obtain ⟨fileSyntax, owners, -, haccounted, hgroupBody⟩ := h.declaredIn hm
  cases haccounted with
  | group hgroup henums hranges hnested => exact .inl (hgroupBody hgroup)
  | message hfields henums hnested => exact .inr (wellFormed_of_validateMessageFields hfields)

/-- Checked with the syntax proto3, messages keep its rules. -/
theorem EveryAccounted.protoThree (h : EveryAccounted (· = .proto3) file)
    (hm : DeclaredIn file message) :
    message.extensionRanges = [] ∧ ∀ enumeration ∈ message.enums, enumeration.StartsWithZero := by
  obtain ⟨fileSyntax, owners, rfl, haccounted, -⟩ := h.declaredIn hm
  cases haccounted with
  | group hgroup henums hranges hnested => exact ⟨hranges, by simp [henums]⟩
  | message hfields henums hnested =>
      refine ⟨extensionRanges_of_validateMessageFields hfields, fun enumeration hmem => ?_⟩
      exact startsWithZero_of_validateEnum (henums enumeration hmem)

/-! ## Declarations keep it -/

section Steps

variable {s : Parser} {file' : FileDescriptor}

theorem Declares.within (h : Declares s file') : s.file.Within file' := by
  cases h with
  | header hmessages henums hextensions hkept => exact ⟨by rw [hmessages]; simp, by rw [henums]; simp⟩
  | messages h => exact ⟨by simp, by simp⟩
  | enumeration h => exact ⟨by simp, by simp⟩

theorem Declares.everyAccounted (h : Declares s file')
    (hs : EveryAccounted (fun _ => True) s.file) : EveryAccounted (fun _ => True) file' := by
  cases h with
  | header hmessages henums hextensions hkept =>
      unfold EveryAccounted
      rw [hmessages, hextensions]
      exact hs
  | @messages extensions messages hnew =>
      intro message hmem
      rcases List.mem_append.mp hmem with hmem | hmem
      · obtain ⟨fileSyntax, -, haccounted⟩ := hs message hmem
        exact ⟨fileSyntax, trivial, haccounted.mono (by simp)⟩
      · exact ⟨_, trivial, (hnew message hmem).mono (by simp)⟩
  | enumeration h => exact hs

theorem declaredIn_append {messages : List MessageDescriptor} {extensions : List FieldDescriptor}
    (h : DeclaredIn
      { file with extensions := extensions, messages := file.messages ++ messages } message) :
    DeclaredIn file message ∨
      DeclaredIn { file with extensions := extensions, messages := messages } message := by
  induction h with
  | top hmem =>
      rcases List.mem_append.mp hmem with hmem | hmem
      · exact .inl (.top hmem)
      · exact .inr (.top hmem)
  | nested houter hmem ih =>
      rcases ih with ih | ih
      · exact .inl (.nested ih hmem)
      · exact .inr (.nested ih hmem)

/-- In a proto3 file a declaration keeps the rules of proto3; so does the syntax line, if what is
in front of it does. -/
theorem Declares.protoThree (h : Declares s file')
    (hs : s.file.fileSyntax = .proto3 → s.file.ProtoThree)
    (hline : s.current.isIdent (ascii "syntax") = true → s.file.ProtoThree)
    (hproto3 : file'.fileSyntax = .proto3) : file'.ProtoThree := by
  cases h with
  | header hmessages henums hextensions hkept =>
      have hold : s.file.ProtoThree := by
        rcases hkept with hsame | heditions | hword
        · exact hs (hsame ▸ hproto3)
        · rw [heditions] at hproto3
          cases hproto3
        · exact hline hword
      exact hold.within ⟨by rw [hmessages]; simp, by rw [henums]; simp⟩
  | @messages extensions messages hnew =>
      have hold := hs hproto3
      have hnew' : EveryAccounted (· = .proto3)
          { s.file with extensions := s.file.extensions ++ extensions, messages := messages } := by
        intro message hmem
        refine ⟨.proto3, rfl, ?_⟩
        have haccounted := hnew message hmem
        rw [show s.file.fileSyntax = .proto3 from hproto3] at haccounted
        exact haccounted.mono (by simp)
      constructor
      · intro message hm
        rcases declaredIn_append hm with hm | hm
        · exact hold.extensionRanges message hm
        · exact (hnew'.protoThree hm).1
      · rintro enumeration (henum | ⟨message, hm, henum⟩)
        · exact hold.enums enumeration (.inl henum)
        · rcases declaredIn_append hm with hm | hm
          · exact hold.enums enumeration (.inr ⟨message, hm, henum⟩)
          · exact (hnew'.protoThree hm).2 enumeration henum
  | @enumeration enumeration hvalid =>
      have hold := hs hproto3
      have hzero : enumeration.StartsWithZero := by
        rw [show s.file.fileSyntax = .proto3 from hproto3] at hvalid
        exact startsWithZero_of_validateEnum hvalid
      have hdeclared {message : MessageDescriptor}
          (hm : DeclaredIn { s.file with enums := s.file.enums ++ [enumeration] } message) :
          DeclaredIn s.file message := hm.within (by simp)
      refine ⟨fun message hm => hold.extensionRanges message (hdeclared hm), ?_⟩
      rintro other (hother | ⟨message, hm, hother⟩)
      · rcases List.mem_append.mp hother with hother | hother
        · exact hold.enums other (.inl hother)
        · exact List.mem_singleton.mp hother ▸ hzero
      · exact hold.enums other (.inr ⟨message, hdeclared hm, hother⟩)

end Steps

/-! ## Runs -/

section Runs

variable [FloatConversions] {input : Bytes} {rounds : Nat} {s last : Parser}

/-- The states of a run between two declarations, with the rounds that are left. -/
inductive Reached (input : Bytes) : Nat → Parser → Prop where
  | start {first : Token} {lexer : Lexer}
      (h : Lexer.next { input := input } = .ok (first, lexer)) :
      Reached input (4 * input.length + 2) { lexer := lexer, current := first }
  | declaration {rounds : Nat} {s s' : Parser} (hs : Reached input (rounds + 1) s)
      (hne : s.current.tag ≠ .eof) (h : parseDeclaration rounds s = .ok ((), s')) :
      Reached input rounds s'

theorem parseFile_succ : parseFile (rounds + 1) s =
    if s.current.tag = .eof then .ok ((), s)
    else match parseDeclaration rounds s with
      | .error stop => .error stop
      | .ok (_, s') => parseFile rounds s' := by
  show (if s.current.tag == .eof then pure () else
    StateT.bind (parseDeclaration rounds) (fun _ => parseFile rounds) : Parse Unit) s = _
  by_cases heof : s.current.tag = .eof
  · rw [if_pos (by simp [heof]), if_pos heof]
    rfl
  · simp only [heof, beq_iff_eq, if_false]
    unfold StateT.bind
    cases parseDeclaration rounds s with
    | error stop => rfl
    | ok pair => rfl

theorem parseFile_within (hstand : s.Standing) :
    wp (parseFile rounds) (fun _ s' => s.file.Within s'.file) (fun _ => True) s := by
  induction rounds generalizing s with
  | zero => exact trivial
  | succ rounds ih =>
      unfold parseFile
      rw [wp_bind, wp_get, wp_ite]
      refine ⟨fun _ => ⟨fun _ h => h, fun _ h => h⟩, fun _ => ?_⟩
      rw [wp_bind]
      refine wp_mono (parseDeclaration_declares hstand) ?_ (fun _ h => h)
      rintro _ s₁ ⟨hstand₁, hdeclares⟩
      refine wp_mono (ih hstand₁) (fun _ s₂ hrest => ?_) (fun _ h => h)
      have hfirst := hdeclares.within
      exact ⟨List.Subset.trans hfirst.messages hrest.messages,
        List.Subset.trans hfirst.enums hrest.enums⟩

/-- From each state that is reached the rest of the run leads to its last state. -/
theorem Reached.parseFile_eq (h : Reached input rounds s)
    (hrun : ∀ first lexer, Lexer.next { input := input } = .ok (first, lexer) →
      parseFile (4 * input.length + 2) { lexer := lexer, current := first } = .ok ((), last)) :
    parseFile rounds s = .ok ((), last) := by
  induction h with
  | start h => exact hrun _ _ h
  | declaration hs hne h ih =>
      rw [parseFile_succ, if_neg hne, h] at ih
      exact ih

theorem Reached.exists_last (h : Reached input rounds s)
    (hrun : parseFile rounds s = .ok ((), last)) : ∃ rounds, Reached input rounds last := by
  induction rounds generalizing s with
  | zero => cases hrun
  | succ rounds ih =>
      rw [parseFile_succ] at hrun
      by_cases heof : s.current.tag = .eof
      · rw [if_pos heof] at hrun
        cases hrun
        exact ⟨_, h⟩
      · rw [if_neg heof] at hrun
        cases hdeclaration : parseDeclaration rounds s with
        | error stop => simp [hdeclaration] at hrun
        | ok pair =>
            obtain ⟨⟨⟩, s'⟩ := pair
            rw [hdeclaration] at hrun
            exact ih (.declaration h heof hdeclaration) hrun

theorem Reached.standing (h : Reached input rounds s) : s.Standing := by
  induction h with
  | @start first lexer h =>
      have hlexer : lexer = ⟨input, first.end⟩ := Lexer.next_lexer h
      show Lexer.next ⟨lexer.input, 0⟩ = .ok (first, lexer)
      rw [hlexer] at h ⊢
      exact h
  | declaration hs hne h ih => exact (post_of_wp (parseDeclaration_declares ih) h).1

theorem Reached.everyAccounted (h : Reached input rounds s) :
    EveryAccounted (fun _ => True) s.file := by
  induction h with
  | start h =>
      intro message hmem
      simp at hmem
  | declaration hs hne h ih =>
      exact (post_of_wp (parseDeclaration_declares hs.standing) h).2.everyAccounted ih

/-- What the parser has read when it comes to the syntax line keeps the rules of proto3. -/
def SyntaxLineFits (input : Bytes) : Prop :=
  ∀ rounds s, Reached input rounds s → s.current.isIdent (ascii "syntax") = true →
    s.file.ProtoThree

theorem Reached.protoThree (h : Reached input rounds s) (hline : SyntaxLineFits input)
    (hproto3 : s.file.fileSyntax = .proto3) : s.file.ProtoThree := by
  induction h with
  | start h => cases hproto3
  | declaration hs hne h ih =>
      have hdeclares := (post_of_wp (parseDeclaration_declares hs.standing) h).2
      exact hdeclares.protoThree ih (hline _ _ hs) hproto3

end Runs

/-! ## Resolved fields -/

section Resolve

variable {context : Option MessageDescriptor} {field : FieldDescriptor} {kind : FieldKind}

/-- Resolving leaves alone what tells fields apart, and groups. -/
structure SameNames (field field' : FieldDescriptor) : Prop where
  number : field'.number = field.number
  name : field'.name = field.name
  jsonName : field'.effectiveJsonName = field.effectiveJsonName
  group : ∀ name, field'.kind = .group name ↔ field.kind = .group name

theorem resolveEnumDefault_same : SameNames field (resolveEnumDefault file context field) := by
  unfold resolveEnumDefault
  split
  · split
    · exact ⟨rfl, rfl, rfl, fun _ => Iff.rfl⟩
    · exact ⟨rfl, rfl, rfl, fun _ => Iff.rfl⟩
  · split
    · exact ⟨rfl, rfl, rfl, fun _ => Iff.rfl⟩
    · exact ⟨rfl, rfl, rfl, fun _ => Iff.rfl⟩
  · exact ⟨rfl, rfl, rfl, fun _ => Iff.rfl⟩

theorem resolveKind_group {name : Bytes} :
    resolveKind file context kind = .group name ↔ kind = .group name := by
  unfold resolveKind
  split
  · split
    · simp
    · simp
  · simp
  · exact Iff.rfl

theorem resolveFieldKind_same : SameNames field (resolveFieldKind file context field) := by
  unfold resolveFieldKind
  obtain ⟨hnumber, hname, hjson, hgroup⟩ := @resolveEnumDefault_same file context
    { field with kind := resolveKind file context field.kind }
  exact ⟨hnumber, hname, hjson, fun name => (hgroup name).trans resolveKind_group⟩

theorem resolveMessagesFieldKinds_eq_map (messages : List MessageDescriptor) :
    resolveMessagesFieldKinds file messages = messages.map (resolveMessageFieldKinds file) := by
  induction messages with
  | nil => rfl
  | cons message rest ih => rw [resolveMessagesFieldKinds, ih, List.map_cons]

theorem resolveMessageFieldKinds_eq (message : MessageDescriptor) :
    resolveMessageFieldKinds file message =
      { message with
        fields := message.fields.map (resolveFieldKind file (some message))
        messages := message.messages.map (resolveMessageFieldKinds file)
        extensions := message.extensions.map (resolveFieldKind file (some message)) } := by
  cases message
  rw [resolveMessageFieldKinds, resolveMessagesFieldKinds_eq_map]

theorem resolveMessage_wellFormed :
    (resolveMessageFieldKinds file message).WellFormed ↔ message.WellFormed := by
  have hsame (field : FieldDescriptor) := @resolveFieldKind_same file (some message) field
  have hmax : (resolveMessageFieldKinds file message).extensionRangeMaxExclusive =
      message.extensionRangeMaxExclusive := by
    rw [resolveMessageFieldKinds_eq]
    rfl
  have hcontains (range : ExtensionRange) (number : Int) :
      range.containsInMessage (resolveMessageFieldKinds file message) number =
        range.containsInMessage message number := by
    unfold ExtensionRange.containsInMessage ExtensionRange.effectiveEnd
    rw [hmax]
  rw [MessageDescriptor.wellFormed_iff, MessageDescriptor.wellFormed_iff]
  simp only [hcontains, hmax]
  rw [resolveMessageFieldKinds_eq]
  simp only [List.pairwise_map, List.forall_mem_map, (hsame _).number, (hsame _).name,
    (hsame _).jsonName]

theorem resolveMessage_group {owners : List FieldDescriptor}
    (h : IsGroupBody owners message) (context : Option MessageDescriptor) :
    IsGroupBody (owners.map (resolveFieldKind file context))
      (resolveMessageFieldKinds file message) := by
  obtain ⟨field, hfield, hkind⟩ := List.mem_map.mp h
  refine List.mem_map.mpr ⟨_, List.mem_map_of_mem hfield, ?_⟩
  rw [resolveMessageFieldKinds_eq]
  exact (resolveFieldKind_same.group message.name).mpr hkind

/-- The messages of the resolved file are the resolved messages. -/
theorem declaredIn_resolve {resolved : MessageDescriptor} :
    DeclaredIn (resolveFieldKinds file) resolved ↔
      ∃ message, DeclaredIn file message ∧ resolveMessageFieldKinds file message = resolved := by
  have htop : (resolveFieldKinds file).messages =
      file.messages.map (resolveMessageFieldKinds file) := by
    rw [resolveFieldKinds, resolveMessagesFieldKinds_eq_map]
  constructor
  · intro h
    induction h with
    | top hmem =>
        rw [htop] at hmem
        obtain ⟨message, hmessage, rfl⟩ := List.mem_map.mp hmem
        exact ⟨message, .top hmessage, rfl⟩
    | nested houter hmem ih =>
        obtain ⟨outer, houter', rfl⟩ := ih
        rw [resolveMessageFieldKinds_eq] at hmem
        obtain ⟨message, hmessage, rfl⟩ := List.mem_map.mp hmem
        exact ⟨message, .nested houter' hmessage, rfl⟩
  · rintro ⟨message, h, rfl⟩
    induction h with
    | top hmem =>
        refine .top ?_
        rw [htop]
        exact List.mem_map_of_mem hmem
    | nested houter hmem ih =>
        refine .nested ih ?_
        rw [resolveMessageFieldKinds_eq]
        exact List.mem_map_of_mem hmem

theorem groupBodyIn_resolve (h : GroupBodyIn file message) :
    GroupBodyIn (resolveFieldKinds file) (resolveMessageFieldKinds file message) := by
  rcases h with ⟨hmem, hgroup⟩ | ⟨parent, hparent, hmem, hgroup⟩
  · refine .inl ⟨?_, resolveMessage_group hgroup none⟩
    rw [resolveFieldKinds, resolveMessagesFieldKinds_eq_map]
    exact List.mem_map_of_mem hmem
  · refine .inr ⟨resolveMessageFieldKinds file parent, declaredIn_resolve.mpr ⟨_, hparent, rfl⟩,
      ?_, ?_⟩
    · rw [resolveMessageFieldKinds_eq]
      exact List.mem_map_of_mem hmem
    · have hresolved := @resolveMessage_group file _ _ hgroup (some parent)
      rw [List.map_append] at hresolved
      rw [resolveMessageFieldKinds_eq parent]
      exact hresolved

theorem resolve_protoThree : (resolveFieldKinds file).ProtoThree ↔ file.ProtoThree := by
  constructor
  · intro h
    constructor
    · intro message hm
      have hranges := h.extensionRanges _ (declaredIn_resolve.mpr ⟨message, hm, rfl⟩)
      rw [resolveMessageFieldKinds_eq] at hranges
      exact hranges
    · rintro enumeration (henum | ⟨message, hm, henum⟩)
      · exact h.enums enumeration (.inl henum)
      · refine h.enums enumeration (.inr ⟨_, declaredIn_resolve.mpr ⟨message, hm, rfl⟩, ?_⟩)
        rw [resolveMessageFieldKinds_eq]
        exact henum
  · intro h
    constructor
    · intro resolved hm
      obtain ⟨message, hmessage, rfl⟩ := declaredIn_resolve.mp hm
      rw [resolveMessageFieldKinds_eq]
      exact h.extensionRanges message hmessage
    · rintro enumeration (henum | ⟨resolved, hm, henum⟩)
      · exact h.enums enumeration (.inl henum)
      · obtain ⟨message, hmessage, rfl⟩ := declaredIn_resolve.mp hm
        rw [resolveMessageFieldKinds_eq] at henum
        exact h.enums enumeration (.inr ⟨message, hmessage, henum⟩)

end Resolve

/-! ## Accepted files -/

section Accepted

variable [FloatConversions] {input : Bytes}

theorem finish_eq {file file' : FileDescriptor} (h : finish file = .ok file') :
    file' = resolveFieldKinds file := by
  have hbind {x : Except ParseError Unit} {f : Unit → Except ParseError FileDescriptor}
      (h : x >>= f = .ok file') : f () = .ok file' := by
    cases x with
    | error e => cases h
    | ok u => exact h
  unfold finish at h
  have hresolved := hbind (hbind (hbind h))
  have hlast := hbind (hbind (hbind (hbind (hbind (hbind hresolved)))))
  exact (Except.ok.inj hlast).symm

/-- A run that accepts its input: its last state. -/
theorem exists_last_of_parse {file : FileDescriptor} (h : parse input = .ok file) :
    ∃ rounds last, Reached input rounds last ∧ file = resolveFieldKinds last.file ∧
      ∀ rounds s, Reached input rounds s → s.file.Within last.file := by
  cases hnext : Lexer.next { input := input } with
  | error e =>
      unfold parse init at h
      rw [hnext] at h
      cases h
  | ok pair =>
      obtain ⟨first, lexer⟩ := pair
      rw [parse_of_next hnext] at h
      cases hrun : parseFile (4 * input.length + 2) { lexer := lexer, current := first } with
      | error stop =>
          rw [hrun] at h
          cases h
      | ok pair =>
          obtain ⟨⟨⟩, last⟩ := pair
          rw [hrun] at h
          have h : (finish last.file).mapError Stop.error = .ok file := h
          obtain ⟨rounds, hlast⟩ := (Reached.start hnext).exists_last hrun
          refine ⟨rounds, last, hlast, ?_, fun rounds s hs => ?_⟩
          · cases hfinish : finish last.file with
            | error e =>
                rw [hfinish] at h
                cases h
            | ok file' =>
                rw [hfinish] at h
                obtain rfl : file' = file := Except.ok.inj h
                exact finish_eq hfinish
          · have hrest : parseFile rounds s = .ok ((), last) := by
              refine hs.parseFile_eq fun first' lexer' hnext' => ?_
              rw [hnext] at hnext'
              cases hnext'
              exact hrun
            have hall := post_of_wp (parseFile_within hs.standing) hrest
            exact hall

/-- An accepted file is well formed if and only if the bodies of its groups are and, in a proto3
file, what stands in front of the syntax line keeps the rules of proto3. -/
theorem accepted_wellFormed_iff {file : FileDescriptor} (h : parse input = .ok file) :
    file.WellFormed ↔
      (∀ message, GroupBodyIn file message → message.WellFormed) ∧
        (file.fileSyntax = .proto3 → SyntaxLineFits input) := by
  obtain ⟨rounds, last, hlast, rfl, hwithin⟩ := exists_last_of_parse h
  constructor
  · intro hfile
    refine ⟨fun message hgroup => hfile.messages message hgroup.declaredIn, ?_⟩
    intro hproto3 rounds s hs _
    have hall := resolve_protoThree.mp (hfile.protoThree hproto3)
    exact hall.within (hwithin rounds s hs)
  · rintro ⟨hgroups, hline⟩
    constructor
    · intro resolved hm
      obtain ⟨message, hmessage, rfl⟩ := declaredIn_resolve.mp hm
      rcases hlast.everyAccounted.wellFormed hmessage with hgroup | hfits
      · exact hgroups _ (groupBodyIn_resolve hgroup)
      · exact resolveMessage_wellFormed.mpr hfits
    · intro hproto3
      exact resolve_protoThree.mpr (hlast.protoThree (hline hproto3) hproto3)

end Accepted

/-- A proto3 file without groups whose syntax line comes first. -/
theorem accepted_wellFormed_iff_record :
    ∃ file, @parse ⟨fun _ => none, fun _ => 0⟩
        (ascii "syntax = \"proto3\"; message A { bool a = 1; }") = .ok file ∧
      (file.WellFormed ↔ (∀ message, GroupBodyIn file message → message.WellFormed) ∧
        (file.fileSyntax = .proto3 →
          @SyntaxLineFits ⟨fun _ => none, fun _ => 0⟩
            (ascii "syntax = \"proto3\"; message A { bool a = 1; }"))) := by
  have hok : (@parse ⟨fun _ => none, fun _ => 0⟩
      (ascii "syntax = \"proto3\"; message A { bool a = 1; }")).toOption.isSome = true := by
    decide +kernel
  cases hparse : @parse ⟨fun _ => none, fun _ => 0⟩
      (ascii "syntax = \"proto3\"; message A { bool a = 1; }") with
  | error stop =>
      rw [hparse] at hok
      cases hok
  | ok file => exact ⟨file, rfl, @accepted_wellFormed_iff ⟨fun _ => none, fun _ => 0⟩ _ _ hparse⟩

/-- The two fields of the group have one number. -/
theorem exists_accepted_not_wellFormed :
    ∃ file, @parse ⟨fun _ => none, fun _ => 0⟩
      (ascii "message A { optional group B = 1 { optional bool a = 1; optional bool b = 1; } }") =
        .ok file ∧ ¬ file.WellFormed := by
  have hnumbers : (@parse ⟨fun _ => none, fun _ => 0⟩ (ascii
      "message A { optional group B = 1 { optional bool a = 1; optional bool b = 1; } }")).toOption.map
        (fun file => file.messages.map (fun message =>
          message.messages.map (fun nested => nested.fields.map (·.number)))) =
      some [[[1, 1]]] := by
    decide +kernel
  generalize @parse ⟨fun _ => none, fun _ => 0⟩ _ = result at hnumbers ⊢
  cases result with
  | error stop => cases hnumbers
  | ok file =>
      refine ⟨file, rfl, fun h => ?_⟩
      obtain ⟨message, hmessages, hmessage⟩ :=
        List.map_eq_singleton_iff.mp (Option.some.inj hnumbers)
      obtain ⟨nested, hnested, hfields⟩ := List.map_eq_singleton_iff.mp hmessage
      have hmem : message ∈ file.messages := by simp [hmessages]
      have hdeclared : DeclaredIn file nested := .nested (.top hmem) (by simp [hnested])
      have hapart := (h.messages nested hdeclared).numbers
      rw [← List.pairwise_map (f := FieldDescriptor.number) (R := (· ≠ ·)), hfields] at hapart
      simp at hapart

end Parser

end Pbz
