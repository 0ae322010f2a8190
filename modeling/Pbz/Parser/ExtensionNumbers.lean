import Pbz.Parser.Accepted
import Pbz.TypeLookup

set_option autoImplicit false

/-! # The numbers of extensions

An accepted file is meant to tell the extensions of a message by their numbers, which lie in the
extension ranges of the message. The parser compares the names of the extendees as they are
written, and looks for the ranges in the first message with the last part of the name.
-/

namespace Pbz

open Check

/-- The extensions of a file, each with the scope it stands in. -/
def FileDescriptor.scopedExtensions (file : FileDescriptor) :
    List (List Bytes × FieldDescriptor) :=
  file.extensions.map (Prod.mk file.packagePath) ++
    file.declaredMessages.flatMap (fun pair => pair.2.extensions.map (Prod.mk pair.1))

/-- The name that an extension extends stands for a message of the file. -/
def FileDescriptor.Extends (file : FileDescriptor) (extension : List Bytes × FieldDescriptor)
    (message : MessageDescriptor) : Prop :=
  ∃ name, extension.2.extendee = some name ∧
    StandsFor file.declaredTypes extension.1 name (some (.message message))

/-- The number of an extension lies in an extension range of a message. -/
def MessageDescriptor.HasRangeOf (message : MessageDescriptor) (extension : FieldDescriptor) :
    Prop :=
  ∃ range ∈ message.extensionRanges, range.containsInMessage message extension.number = true

/-- Extensions of one message have different numbers, which lie in ranges of the message. -/
structure FileDescriptor.ExtensionsUnambiguous (file : FileDescriptor) : Prop where
  apart : file.scopedExtensions.Pairwise fun a b =>
    ∀ message, file.Extends a message → file.Extends b message → a.2.number ≠ b.2.number
  inRange : ∀ extension ∈ file.scopedExtensions, ∀ message, file.Extends extension message →
    message.HasRangeOf extension.2

/-- Names that are written differently and stand for one message belong to extensions with
different numbers, and where the search for the last part of a name leads to another message, the
number lies in a range of both. -/
structure FileDescriptor.ExtendeesTold (file : FileDescriptor) : Prop where
  written : file.scopedExtensions.Pairwise fun a b => a.2.extendee ≠ b.2.extendee →
    ∀ message, file.Extends a message → file.Extends b message → a.2.number ≠ b.2.number
  misled : ∀ extension ∈ file.scopedExtensions, ∀ message, file.Extends extension message →
    extension.2.extendee.bind file.findMessageDeep ≠ some message → message.HasRangeOf extension.2

mutual

/-- The listing of the source, with the scopes. -/
theorem collectMessagesExtensions_eq (scope : List Bytes) : ∀ messages : List MessageDescriptor,
    Parser.collectMessagesExtensions messages =
      (declaredMessages scope messages).flatMap (fun pair => pair.2.extensions)
  | [] => rfl
  | message :: rest => by
      have hmessage := collectMessageExtensions_eq (scope ++ [message.name]) message
      have hrest := collectMessagesExtensions_eq scope rest
      rw [Parser.collectMessagesExtensions, declaredMessages, List.flatMap_cons,
        List.flatMap_append, hmessage, hrest, List.append_assoc]

theorem collectMessageExtensions_eq (scope : List Bytes) : ∀ message : MessageDescriptor,
    Parser.collectMessageExtensions message =
      message.extensions ++ (message.nestedMessages scope).flatMap (fun pair => pair.2.extensions)
  | { messages := messages, .. } => by
      rw [Parser.collectMessageExtensions, MessageDescriptor.nestedMessages,
        collectMessagesExtensions_eq scope messages]

end

theorem scopedExtensions_map (file : FileDescriptor) :
    file.scopedExtensions.map Prod.snd = Parser.collectExtensions file := by
  have hbeside : (file.extensions.map (Prod.mk file.packagePath)).map Prod.snd = file.extensions := by
    rw [List.map_map]
    exact List.map_id file.extensions
  have hinside : (file.declaredMessages.flatMap (fun pair =>
      pair.2.extensions.map (Prod.mk pair.1))).map Prod.snd =
        file.declaredMessages.flatMap (fun pair => pair.2.extensions) := by
    rw [List.map_flatMap]
    refine List.flatMap_congr fun pair _ => ?_
    rw [List.map_map]
    exact List.map_id pair.2.extensions
  rw [FileDescriptor.scopedExtensions, List.map_append, hbeside, hinside, Parser.collectExtensions,
    collectMessagesExtensions_eq file.packagePath]
  rfl

namespace Parser

mutual

theorem eachMessage_declared {check : MessageDescriptor → Except ParseError Unit}
    (scope : List Bytes) : ∀ messages : List MessageDescriptor, eachMessage check messages = .ok () →
      ∀ pair ∈ declaredMessages scope messages, check pair.2 = .ok ()
  | [], _, _, hpair => absurd hpair List.not_mem_nil
  | message :: rest, h, pair, hpair => by
      rw [eachMessage, bind_eq_ok, bind_eq_ok] at h
      obtain ⟨hmessage, hnested, hrest⟩ := h
      rw [declaredMessages, List.mem_cons, List.mem_append] at hpair
      rcases hpair with rfl | hpair | hpair
      · exact hmessage
      · exact eachNested_declared (scope ++ [message.name]) message hnested pair hpair
      · exact eachMessage_declared scope rest hrest pair hpair

theorem eachNested_declared {check : MessageDescriptor → Except ParseError Unit}
    (scope : List Bytes) : ∀ message : MessageDescriptor, eachNested check message = .ok () →
      ∀ pair ∈ message.nestedMessages scope, check pair.2 = .ok ()
  | { messages := messages, .. }, h, pair, hpair => by
      rw [eachNested] at h
      rw [MessageDescriptor.nestedMessages] at hpair
      exact eachMessage_declared scope messages h pair hpair

end

section Checks

variable {file : FileDescriptor}

/-- An extension whose extendee is found has its number in a range of what is found. -/
theorem hasRange_of_validateExtensionField {field : FieldDescriptor} {message : MessageDescriptor}
    (h : validateExtensionField file field = .ok ())
    (hfound : field.extendee.bind file.findMessageDeep = some message) :
    message.HasRangeOf field := by
  obtain ⟨name, hname, hmessage⟩ := Option.bind_eq_some_iff.mp hfound
  unfold validateExtensionField at h
  obtain ⟨-, h⟩ := reject_bind_eq_ok.mp h
  obtain ⟨-, h⟩ := reject_bind_eq_ok.mp h
  rw [hname] at h
  obtain ⟨-, h⟩ := reject_bind_eq_ok.mp h
  rw [hmessage] at h
  dsimp only at h
  cases hrange : message.extensionRanges.find? (fun range =>
      range.containsInMessage message field.number) with
  | none =>
      rw [hrange] at h
      cases h
  | some range =>
      have hcontains := List.find?_some hrange
      exact ⟨range, List.mem_of_find?_eq_some hrange, hcontains⟩

/-- What the checks of the extensions establish. -/
theorem of_validateExtensions (h : validateExtensions file = .ok ()) :
    (collectExtensions file).Pairwise (fun a b => a.extendee = b.extendee → a.number ≠ b.number) ∧
      ∀ field ∈ collectExtensions file, validateExtensionField file field = .ok () := by
  unfold validateExtensions at h
  rw [bind_eq_ok, bind_eq_ok, bind_eq_ok, forEach_eq_ok] at h
  obtain ⟨hbeside, hinside, hpairs, -⟩ := h
  constructor
  · refine pairwise_of_forTails hpairs fun field others hothers other hother hsame hnumber => ?_
    have hchecked := forEach_eq_ok.mp hothers other hother
    have hwritten : ¬ (field.extendee.getD [] != other.extendee.getD []) = true := by
      rw [hsame]
      simp
    rw [if_neg hwritten, reject_eq_ok, hnumber] at hchecked
    simp at hchecked
  · intro field hfield
    rw [collectExtensions, collectMessagesExtensions_eq file.packagePath, List.mem_append,
      List.mem_flatMap] at hfield
    rcases hfield with hfield | ⟨pair, hpair, hfield⟩
    · exact hbeside field hfield
    · have hmessage := eachMessage_declared file.packagePath file.messages hinside pair hpair
      exact forEach_eq_ok.mp hmessage field hfield

/-- A file whose extensions pass the checks has them told apart where the names of their extendees
do so. -/
theorem extensionsUnambiguous_of_told (h : validateExtensions file = .ok ()) :
    file.ExtensionsUnambiguous ↔ file.ExtendeesTold := by
  obtain ⟨hpairs, hfields⟩ := of_validateExtensions h
  rw [← scopedExtensions_map, List.pairwise_map] at hpairs
  constructor
  · rintro ⟨hapart, hrange⟩
    refine ⟨hapart.imp ?_, fun extension hmem message hextends _ =>
      hrange extension hmem message hextends⟩
    intro a b hab _
    exact hab
  · rintro ⟨hwritten, hmisled⟩
    refine ⟨hpairs.imp₂ (fun a b hsame hdiffer message ha hb => ?_) hwritten,
      fun extension hmem message hextends => ?_⟩
    · by_cases heq : a.2.extendee = b.2.extendee
      · exact hsame heq
      · exact hdiffer heq message ha hb
    · by_cases hled : extension.2.extendee.bind file.findMessageDeep = some message
      · have hfield : extension.2 ∈ collectExtensions file := by
          rw [← scopedExtensions_map]
          exact List.mem_map_of_mem hmem
        exact hasRange_of_validateExtensionField (hfields extension.2 hfield) hled
      · exact hmisled extension hmem message hextends hled

end Checks

section Accepted

variable [FloatConversions] {input : Bytes} {file : FileDescriptor}

theorem finish_validateExtensions {last : FileDescriptor} (h : finish last = .ok file) :
    validateExtensions file = .ok () := by
  have hresolved := finish_eq h
  unfold finish at h
  obtain ⟨-, -, h⟩ := of_bind_eq_ok h
  obtain ⟨-, -, h⟩ := of_bind_eq_ok h
  obtain ⟨-, -, h⟩ := of_bind_eq_ok h
  obtain ⟨⟨⟩, hextensions, -⟩ := of_bind_eq_ok h
  rw [hresolved]
  exact hextensions

theorem parse_validateExtensions (h : parse input = .ok file) :
    validateExtensions file = .ok () := by
  unfold parse at h
  obtain ⟨self, -, h⟩ := of_bind_eq_ok h
  obtain ⟨⟨⟨⟩, last⟩, -, h⟩ := of_bind_eq_ok h
  dsimp only at h
  cases hfinish : finish last.file with
  | error e =>
      rw [hfinish] at h
      cases h
  | ok accepted =>
      rw [hfinish] at h
      obtain rfl : accepted = file := Except.ok.inj h
      exact finish_validateExtensions hfinish

end Accepted

/-! ## One message under two names, and two messages under one -/

/-- An accepted text and what is known of its file. -/
theorem exists_accepted {α : Type} {result : Except Stop FileDescriptor} {facts : FileDescriptor → α}
    {known : α} (h : result.toOption.map facts = some known) :
    ∃ file, result = .ok file ∧ facts file = known := by
  cases result with
  | error stop => cases h
  | ok file => exact ⟨file, rfl, Option.some.inj h⟩

def twoNamesText : Bytes := ascii
  "message Foo { extensions 100 to 200; } extend Foo { optional int32 a = 100; }
  extend .Foo { optional int32 b = 100; }"

def oneNameText : Bytes := ascii
  "message A { message X { extensions 1 to 10; } } message B { message X { extensions 100 to 200; } }
  extend B.X { optional int32 f = 5; }"

/-- What of a file the two texts are about. -/
structure ExtensionFacts where
  package : Bytes
  messages : List Bytes
  nested : List (List Bytes)
  starts : List (List Int)
  extensions : List (Nat × Option Bytes)
  deriving DecidableEq

def extensionFacts (file : FileDescriptor) : ExtensionFacts where
  package := file.package
  messages := file.messages.map (·.name)
  nested := file.messages.map (fun message => message.messages.map (·.name))
  starts := file.messages.flatMap (fun message =>
    message.messages.map (fun nested => nested.extensionRanges.map (·.start)))
  extensions := file.extensions.map (fun field => (field.number, field.extendee))

def twoNamesFacts : ExtensionFacts where
  package := []
  messages := [ascii "Foo"]
  nested := [[]]
  starts := []
  extensions := [(100, some (ascii "Foo")), (100, some (ascii ".Foo"))]

def oneNameFacts : ExtensionFacts where
  package := []
  messages := [ascii "A", ascii "B"]
  nested := [[ascii "X"], [ascii "X"]]
  starts := [[1], [100]]
  extensions := [(5, some (ascii "B.X"))]

theorem packagePath_of_empty {file : FileDescriptor} (h : file.package = []) :
    file.packagePath = [] := by
  rw [FileDescriptor.packagePath, if_pos (List.isEmpty_iff.mpr h)]

theorem twoNames_ambiguous {file : FileDescriptor} (h : extensionFacts file = twoNamesFacts) :
    ¬ file.ExtensionsUnambiguous := by
  obtain ⟨hpackage, hmessages, -, -, hextensions⟩ := ExtensionFacts.mk.inj h
  obtain ⟨message, hfile, hname⟩ := List.map_eq_singleton_iff.mp hmessages
  obtain ⟨first, rest, hsplit, hfirst, hrest⟩ := List.map_eq_cons_iff.mp hextensions
  obtain ⟨second, hsecond, hpair⟩ := List.map_eq_singleton_iff.mp hrest
  obtain ⟨hnumber, hextendee⟩ := Prod.mk.inj hfirst
  obtain ⟨hnumber', hextendee'⟩ := Prod.mk.inj hpair
  have hpath := packagePath_of_empty hpackage
  have hdeclared : ([ascii "Foo"], TypeRef.message message) ∈ file.declaredTypes := by
    have hmem := message_mem_declaredTypes file.packagePath
      (show message ∈ file.messages by rw [hfile]; exact List.mem_cons_self)
    rw [hpath, hname, List.nil_append] at hmem
    rw [FileDescriptor.declaredTypes, hpath]
    exact List.mem_append_left _ hmem
  have hextends : ∀ field name, field.extendee = some name →
      namesInScope [] name = [[ascii "Foo"]] → file.Extends (file.packagePath, field) message := by
    intro field name hfield hnames
    refine ⟨name, hfield, [], [ascii "Foo"], [], ?_, hdeclared, fun other hother =>
      absurd hother List.not_mem_nil⟩
    rw [hpath]
    exact hnames
  intro hunambiguous
  have hapart := hunambiguous.apart
  rw [FileDescriptor.scopedExtensions, hsplit, hsecond, List.map_cons, List.map_cons] at hapart
  have hfirstApart := (List.pairwise_cons.mp hapart).1 (file.packagePath, second) (by simp)
  refine hfirstApart message (hextends first _ hextendee (by decide))
    (hextends second _ hextendee' (by decide)) ?_
  rw [hnumber, hnumber']

theorem oneName_ambiguous {file : FileDescriptor} (h : extensionFacts file = oneNameFacts) :
    ¬ file.ExtensionsUnambiguous := by
  obtain ⟨hpackage, hmessages, hnested, hstarts, hextensions⟩ := ExtensionFacts.mk.inj h
  obtain ⟨field, hfields, hfield⟩ := List.map_eq_singleton_iff.mp hextensions
  obtain ⟨hnumber, hextendee⟩ := Prod.mk.inj hfield
  obtain ⟨first, rest, hsplit, -, hrest⟩ := List.map_eq_cons_iff.mp hmessages
  obtain ⟨outer, rfl, hname⟩ := List.map_eq_singleton_iff.mp hrest
  rw [hsplit, List.map_cons, List.map_singleton] at hnested
  rw [hsplit, List.flatMap_cons, List.flatMap_singleton] at hstarts
  obtain ⟨hfirst, hinner⟩ := List.cons.inj hnested
  obtain ⟨before, hbefore, -⟩ := List.map_eq_singleton_iff.mp hfirst
  obtain ⟨inner, hmessage, hinnerName⟩ := List.map_eq_singleton_iff.mp (List.cons.inj hinner).1
  rw [hbefore, hmessage, List.map_singleton, List.map_singleton] at hstarts
  obtain ⟨-, hlast⟩ := List.cons.inj hstarts
  obtain ⟨range, hrange, hstart⟩ := List.map_eq_singleton_iff.mp (List.cons.inj hlast).1
  have hpath := packagePath_of_empty hpackage
  have hdeclared : ([ascii "B", ascii "X"], TypeRef.message inner) ∈ file.declaredTypes := by
    have hin : inner ∈ outer.messages := by simp [hmessage]
    have htype : ([ascii "B", ascii "X"], TypeRef.message inner) ∈ outer.nestedTypes [ascii "B"] := by
      rw [nestedTypes_eq, ← hinnerName]
      exact List.mem_append_left _ (message_mem_declaredTypes [ascii "B"] hin)
    rw [FileDescriptor.declaredTypes, hpath, hsplit]
    refine List.mem_append_left _ (mem_declaredTypes.mpr ⟨outer, by simp, .inr ?_⟩)
    rw [hname]
    exact htype
  intro hunambiguous
  have hmem : (file.packagePath, field) ∈ file.scopedExtensions := by
    rw [FileDescriptor.scopedExtensions, hfields]
    exact List.mem_append_left _ List.mem_cons_self
  have hnames : namesInScope file.packagePath (ascii "B.X") = [[ascii "B", ascii "X"]] := by
    rw [hpath]
    decide
  obtain ⟨other, hother, hcontains⟩ := hunambiguous.inRange _ hmem inner
    ⟨_, hextendee, [], [ascii "B", ascii "X"], [], hnames, hdeclared,
      fun other hother => absurd hother List.not_mem_nil⟩
  rw [hrange, List.mem_singleton] at hother
  subst hother
  simp [ExtensionRange.containsInMessage, hstart, hnumber] at hcontains

theorem parse_twoNamesText : (@parse ⟨fun _ => none, fun _ => 0⟩ twoNamesText).toOption.map
    extensionFacts = some twoNamesFacts := by
  decide +kernel

theorem parse_oneNameText : (@parse ⟨fun _ => none, fun _ => 0⟩ oneNameText).toOption.map
    extensionFacts = some oneNameFacts := by
  decide +kernel

end Parser

end Pbz
