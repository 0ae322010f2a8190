import Pbz.Codegen.Reference
import Pbz.Imports
import Pbz.Lib.BoundedSearch

set_option autoImplicit false

/-! # Structs stored by value

A singular field of a message type is a nested struct in the generated code, unless the struct
would then contain itself; such a field keeps the bytes of its payload. `codegen.zig` decides this
field by field, with a search of bounded depth from the type of the field back to the message of
the field.

`Generation.StoredByValue` is the graph of the structs, over all files that are generated together.
That it has no cycle takes two arguments: an edge into another file follows the imports, and among
the edges of one file every edge is one that the search goes along.
-/

namespace Pbz

open Relation BoundedSearch

/-! ## The decision -/

def fieldMessageEncoding (file : FileDescriptor) (field : FieldDescriptor) : MessageEncoding :=
  field.messageEncoding file

/-- The `switch` on the kind of a field, here and in the search: delimited messages are not
nested structs, but groups are. -/
def nestedTypeName (file : FileDescriptor) (field : FieldDescriptor) : Option Bytes :=
  match field.kind with
  | .message name => if fieldMessageEncoding file field != .lengthPrefixed then none else some name
  | .group name => some name
  | _ => none

mutual

/-- `messageContainsField` over a list: each message before those nested in it. -/
def messageListContainsField (target : Nat) : List MessageDescriptor → Option MessageDescriptor
  | [] => none
  | message :: rest =>
      if message.fields.any (fun candidate => candidate.address == target) then some message
      else match nestedContainsField target message with
        | some owner => some owner
        | none => messageListContainsField target rest

def nestedContainsField (target : Nat) : MessageDescriptor → Option MessageDescriptor
  | { messages, .. } => messageListContainsField target messages

end

def containingMessageForField (file : FileDescriptor) (field : FieldDescriptor) :
    Option MessageDescriptor :=
  messageListContainsField field.address file.messages

namespace CodegenContext

/-- One turn of the loop of the search: the message that it goes on with. -/
def valueTarget (ctx : CodegenContext) (field : FieldDescriptor) : Option MessageDescriptor :=
  if field.cardinality == .repeated || field.kind.isMap then none
  else match nestedTypeName ctx.file field with
    | none => none
    | some typeName =>
        match ctx.resolveMessageReference typeName with
        | none => none
        | some reference =>
            if !sameFile reference.file ctx.file then none else some reference.message

/-- The greatest `depth` of the search. -/
def maxValuePathDepth : Nat := 64

/-- The number is what is left of `maxValuePathDepth`. At the bound the source says `true`. -/
def messageHasValuePathTo (ctx : CodegenContext) (target : MessageDescriptor) :
    Nat → MessageDescriptor → Bool
  | 0, _ => true
  | remaining + 1, source =>
      source.address == target.address || source.fields.any (fun field =>
        match ctx.valueTarget field with
        | none => false
        | some next => messageHasValuePathTo ctx target remaining next)

def fieldCreatesValueDependencyCycle (ctx : CodegenContext) (field : FieldDescriptor)
    (typeName : Bytes) : Bool :=
  match containingMessageForField ctx.file field with
  | none => false
  | some current =>
      match ctx.resolveMessageReference typeName with
      | none => false
      | some target =>
          if !sameFile target.file ctx.file then false
          else ctx.messageHasValuePathTo current maxValuePathDepth target.message

def typedLengthPrefixedOrGroupField (ctx : CodegenContext) (field : FieldDescriptor) :
    Option Bytes :=
  match nestedTypeName ctx.file field with
  | none => none
  | some typeName =>
      if !ctx.codegenCanReferenceMessage typeName then none
      else if field.cardinality != .repeated && ctx.fieldCreatesValueDependencyCycle field typeName
      then none
      else some typeName

def typedSingularMessageField (ctx : CodegenContext) (field : FieldDescriptor) : Option Bytes :=
  if field.oneofName.isSome || field.cardinality == .repeated then none
  else ctx.typedLengthPrefixedOrGroupField field

def typedOneofMessageField (ctx : CodegenContext) (field : FieldDescriptor) : Option Bytes :=
  if field.oneofName.isNone then none else ctx.typedLengthPrefixedOrGroupField field

end CodegenContext

/-! ## The search -/

namespace CodegenContext

variable {ctx : CodegenContext} {field : FieldDescriptor} {source target : MessageDescriptor}

/-- The messages of the file that the singular fields of a message lead to. -/
def valueTargets (ctx : CodegenContext) (source : MessageDescriptor) : List MessageDescriptor :=
  source.fields.filterMap ctx.valueTarget

/-- `steps` singular fields of the file in a row lead from one message to another. -/
abbrev ValuePath (ctx : CodegenContext) : Nat → MessageDescriptor → MessageDescriptor → Prop :=
  Walk ctx.valueTargets

def samePointer (target message : MessageDescriptor) : Bool := message.address == target.address

theorem messageHasValuePathTo_eq (ctx : CodegenContext) (target : MessageDescriptor) (n : Nat)
    (source : MessageDescriptor) : ctx.messageHasValuePathTo target n source
      = search ctx.valueTargets (samePointer target) n source := by
  induction n generalizing source with
  | zero => rfl
  | succ n ih =>
      rw [messageHasValuePathTo, search, samePointer, valueTargets, List.any_filterMap]
      congr 2
      funext field
      cases ctx.valueTarget field with
      | none => rfl
      | some next => exact ih next

end CodegenContext

/-! ## The message of a field -/

mutual

theorem messageListContainsField_eq (target : Nat) (scope : List Bytes) :
    ∀ messages, messageListContainsField target messages
      = ((declaredMessages scope messages).map Prod.snd).find?
          (fun message => message.fields.any (fun candidate => candidate.address == target))
  | [] => rfl
  | message :: rest => by
      rw [messageListContainsField, declaredMessages, List.map_cons, List.find?_cons]
      cases hany : message.fields.any (fun candidate => candidate.address == target) with
      | true => rw [if_pos rfl]
      | false =>
          rw [if_neg (by simp), List.map_append, List.find?_append,
            ← nestedContainsField_eq target (scope ++ [message.name]) message,
            ← messageListContainsField_eq target scope rest]
          cases nestedContainsField target message <;> rfl

theorem nestedContainsField_eq (target : Nat) (scope : List Bytes) :
    ∀ message : MessageDescriptor, nestedContainsField target message
      = ((message.nestedMessages scope).map Prod.snd).find?
          (fun message => message.fields.any (fun candidate => candidate.address == target))
  | { messages := messages, .. } => by
      rw [nestedContainsField, MessageDescriptor.nestedMessages]
      exact messageListContainsField_eq target scope messages

end

/-- Where fields of different messages have different pointers, a field has its own message. -/
theorem containingMessageForField_eq {file : FileDescriptor} {path : List Bytes}
    {message : MessageDescriptor} {field : FieldDescriptor}
    (hmessage : (path, message) ∈ file.declaredMessages) (hfield : field ∈ message.fields)
    (hapart : ∀ place other, (place, other) ∈ file.declaredMessages → ∀ candidate ∈ other.fields,
      candidate.address = field.address → other = message) :
    containingMessageForField file field = some message := by
  rw [containingMessageForField, messageListContainsField_eq field.address file.packagePath]
  have hmem : message ∈ (declaredMessages file.packagePath file.messages).map Prod.snd :=
    List.mem_map_of_mem (f := Prod.snd) hmessage
  cases hfind : ((declaredMessages file.packagePath file.messages).map Prod.snd).find?
      (fun message => message.fields.any (fun candidate => candidate.address == field.address)) with
  | none =>
      have hnone := List.find?_eq_none.mp hfind message hmem
      exact absurd (List.any_eq_true.mpr ⟨field, hfield, by simp⟩) hnone
  | some other =>
      obtain ⟨⟨place, found⟩, hother, rfl⟩ := List.mem_map.mp (List.mem_of_find?_eq_some hfind)
      have hany := List.find?_some hfind
      obtain ⟨candidate, hcandidate, haddress⟩ := List.any_eq_true.mp hany
      rw [hapart place found hother candidate hcandidate (by simpa using haddress)]

/-! ## The structs of the files generated together -/

/-- The files that are generated together, each the copy that the generator works on, and the
registry they share. -/
structure Generation where
  registry : Option Registry := none
  files : List FileDescriptor

namespace Generation

def context (gen : Generation) (file : FileDescriptor) : CodegenContext :=
  { file := file, registry := gen.registry }

def registered (gen : Generation) : List FileDescriptor :=
  match gen.registry with
  | none => []
  | some registry => registry.files

def allFiles (gen : Generation) : List FileDescriptor := gen.files ++ gen.registered

/-- What the pointers and names of the files are, as the generator is called. -/
structure WellFormed (gen : Generation) : Prop where
  /-- Files have different names. -/
  fileNames : ∀ a ∈ gen.files, ∀ b ∈ gen.files, a.name = b.name → a = b
  filePointers : ∀ a ∈ gen.allFiles, ∀ b ∈ gen.allFiles, a.address = b.address → a.name = b.name
  /-- The messages of a file have different full names. -/
  typeNames : ∀ file ∈ gen.files, ∀ path message other, (path, message) ∈ file.declaredMessages →
    (path, other) ∈ file.declaredMessages → message = other
  /-- A pointer to a message stands for one place in one file. -/
  messagePointers : ∀ a ∈ gen.allFiles, ∀ b ∈ gen.allFiles, ∀ path message place other,
    (path, message) ∈ a.declaredMessages → (place, other) ∈ b.declaredMessages →
      message.address = other.address → a.name = b.name ∧ path = place ∧ message = other
  fieldPointers : ∀ file ∈ gen.files, ∀ path message place other,
    (path, message) ∈ file.declaredMessages → (place, other) ∈ file.declaredMessages →
      ∀ field ∈ message.fields, ∀ candidate ∈ other.fields,
        candidate.address = field.address → other = message
  /-- The copy of a registered file has the types of that file. -/
  copies : ∀ file ∈ gen.files, ∀ original ∈ gen.registered, file.name = original.name →
    ∀ name, (findAbsoluteInFile original name).isSome = true →
      (findAbsoluteInFile file name).isSome = true
  /-- No member of a oneof is repeated. -/
  oneofFields : ∀ file ∈ gen.files, ∀ path message, (path, message) ∈ file.declaredMessages →
    ∀ field ∈ message.fields, field.oneofName.isSome = true → field.cardinality ≠ .repeated

/-- A struct of the generated code: the file and the path of its message. -/
abbrev Struct := Bytes × List Bytes

/-- The first struct has a member of the second one, not only its bytes. -/
def StoredByValue (gen : Generation) (source target : Struct) : Prop :=
  ∃ file ∈ gen.files, file.name = source.1 ∧
    ∃ message, (source.2, message) ∈ file.declaredMessages ∧ ∃ field ∈ message.fields,
      ∃ typeName, ((gen.context file).typedSingularMessageField field = some typeName ∨
          (gen.context file).typedOneofMessageField field = some typeName) ∧
        ∃ reference, (gen.context file).resolveMessageReference typeName = some reference ∧
          reference.file.name = target.1 ∧
          (target.2, reference.message) ∈ reference.file.declaredMessages

end Generation

/-! ## The edges of one file -/

namespace CodegenContext

variable {ctx : CodegenContext} {field : FieldDescriptor} {source target : MessageDescriptor}
  {typeName : Bytes}

/-- The edges of `StoredByValue` inside the generated file, between the messages themselves. -/
def Keeps (ctx : CodegenContext) (source target : MessageDescriptor) : Prop :=
  (∃ path, (path, source) ∈ ctx.file.declaredMessages) ∧
    ∃ field ∈ source.fields, field.cardinality ≠ .repeated ∧
      ∃ typeName, ctx.typedLengthPrefixedOrGroupField field = some typeName ∧
        ∃ reference, ctx.resolveMessageReference typeName = some reference ∧
          sameFile reference.file ctx.file = true ∧ reference.message = target

theorem typedLengthPrefixedOrGroupField_eq_some :
    ctx.typedLengthPrefixedOrGroupField field = some typeName ↔
      nestedTypeName ctx.file field = some typeName ∧
        ctx.codegenCanReferenceMessage typeName = true ∧
        (field.cardinality ≠ .repeated →
          ctx.fieldCreatesValueDependencyCycle field typeName = false) := by
  rw [typedLengthPrefixedOrGroupField]
  cases hname : nestedTypeName ctx.file field with
  | none => simp
  | some name =>
      simp only [Option.some.injEq]
      constructor
      · intro h
        split at h
        · cases h
        · next hcan =>
          split at h
          · cases h
          · next hcycle =>
            cases h
            refine ⟨rfl, by simpa using hcan, fun hsingular => ?_⟩
            simpa [hsingular] using hcycle
      · rintro ⟨rfl, hcan, hcycle⟩
        rw [hcan]
        by_cases hrepeated : field.cardinality = .repeated
        · simp [hrepeated]
        · simp [hcycle hrepeated]

/-- A singular field with a nested type leads where its type name does, if that is in the file. -/
theorem valueTarget_eq {reference : MessageReference} (hsingular : field.cardinality ≠ .repeated)
    (hname : nestedTypeName ctx.file field = some typeName)
    (hreference : ctx.resolveMessageReference typeName = some reference)
    (hsame : sameFile reference.file ctx.file = true) :
    ctx.valueTarget field = some reference.message := by
  have hmap : field.kind.isMap = false := by
    rw [nestedTypeName] at hname
    cases hkind : field.kind <;> simp_all [FieldKind.isMap]
  simp [valueTarget, hsingular, hmap, hname, hreference, hsame]

theorem exists_reference_of_valueTarget (h : ctx.valueTarget field = some target) :
    ∃ typeName reference, ctx.resolveMessageReference typeName = some reference ∧
      sameFile reference.file ctx.file = true ∧ reference.message = target := by
  unfold valueTarget at h
  split at h
  · cases h
  · cases hname : nestedTypeName ctx.file field with
    | none => simp [hname] at h
    | some typeName =>
        cases hreference : ctx.resolveMessageReference typeName with
        | none => simp [hname, hreference] at h
        | some reference =>
            simp only [hname, hreference] at h
            split at h
            · cases h
            · next hsame => exact ⟨typeName, reference, hreference, by simpa using hsame, by simpa using h⟩

variable (hfields : ∀ path message place other, (path, message) ∈ ctx.file.declaredMessages →
  (place, other) ∈ ctx.file.declaredMessages → ∀ field ∈ message.fields,
    ∀ candidate ∈ other.fields, candidate.address = field.address → other = message)

include hfields

/-- What the decision about a field of a message comes to. -/
theorem fieldCreatesValueDependencyCycle_eq {path : List Bytes} {reference : MessageReference}
    (hsource : (path, source) ∈ ctx.file.declaredMessages) (hfield : field ∈ source.fields)
    (hreference : ctx.resolveMessageReference typeName = some reference) :
    ctx.fieldCreatesValueDependencyCycle field typeName
      = (sameFile reference.file ctx.file && search ctx.valueTargets (samePointer source)
          maxValuePathDepth reference.message) := by
  have howner : containingMessageForField ctx.file field = some source :=
    containingMessageForField_eq hsource hfield (fun place other hother candidate hcandidate =>
      hfields path source place other hsource hother field hfield candidate hcandidate)
  rw [fieldCreatesValueDependencyCycle, howner, ← messageHasValuePathTo_eq]
  simp only [hreference]
  cases sameFile reference.file ctx.file <;> rfl

theorem Keeps.search_eq_false (h : ctx.Keeps source target) :
    target ∈ ctx.valueTargets source ∧
      search ctx.valueTargets (samePointer source) maxValuePathDepth target = false := by
  obtain ⟨⟨path, hsource⟩, field, hfield, hsingular, typeName, htyped, reference, hreference,
    hsame, rfl⟩ := h
  obtain ⟨hname, -, hcycle⟩ := typedLengthPrefixedOrGroupField_eq_some.mp htyped
  constructor
  · exact List.mem_filterMap.mpr
      ⟨field, hfield, valueTarget_eq hsingular hname hreference hsame⟩
  · have hfalse := hcycle hsingular
    rw [fieldCreatesValueDependencyCycle_eq hfields hsource hfield hreference, hsame] at hfalse
    simpa using hfalse

theorem not_transGen_keeps : ¬ TransGen ctx.Keeps source source :=
  @not_transGen_of_search _ ctx.valueTargets source ctx.Keeps samePointer maxValuePathDepth
    (fun _ _ h => (h.search_eq_false hfields).1) (fun _ _ h => (h.search_eq_false hfields).2)
    (fun message => beq_self_eq_true message.address)

end CodegenContext

/-! ## The edges between files -/

namespace Generation

variable {gen : Generation} {file : FileDescriptor} {typeName : Bytes}
  {reference : MessageReference}

theorem context_file (gen : Generation) (file : FileDescriptor) :
    (gen.context file).file = file := rfl

theorem registered_eq {registry : Registry} (h : gen.registry = some registry) :
    gen.registered = registry.files := by
  rw [registered, h]

theorem mem_allFiles_of_registered {registry : Registry} (h : gen.registry = some registry) :
    registry.files ⊆ gen.allFiles := by
  intro file hfile
  rw [allFiles, registered_eq h]
  exact List.mem_append_right _ hfile

variable (hgen : gen.WellFormed)

include hgen

theorem WellFormed.name_of_sameFile {a b : FileDescriptor} (ha : a ∈ gen.allFiles)
    (hb : b ∈ gen.allFiles) (h : sameFile a b = true) : a.name = b.name := by
  rw [sameFile, Bool.or_eq_true] at h
  rcases h with haddress | hname
  · exact hgen.filePointers a ha b hb (by simpa using haddress)
  · simp only [Bool.and_eq_true, beq_iff_eq] at hname
    exact hname.2

/-- A reference into the generated file is to a message of it, also where the registry gives the
file. -/
theorem WellFormed.reference_declared (hfile : file ∈ gen.files)
    (hreference : (gen.context file).resolveMessageReference typeName = some reference)
    (hsame : sameFile reference.file file = true) :
    reference.file.name = file.name ∧
      ∃ path, (path, reference.message) ∈ file.declaredMessages ∧
        ∀ place, (place, reference.message) ∈ reference.file.declaredMessages → place = path := by
  have hmem : file ∈ gen.allFiles := List.mem_append_left _ hfile
  rcases CodegenContext.resolveMessageReference_cases hreference with
    ⟨hown, path, hpath⟩ | ⟨registry, hregistry, hvisible, howner, -⟩
  · rw [context_file] at hown hpath
    refine ⟨by rw [hown], path, hpath, fun place hplace => ?_⟩
    rw [hown] at hplace
    exact (hgen.messagePointers file hmem file hmem _ _ _ _ hplace hpath rfl).2.1
  · rw [context_file] at hvisible
    have hregistered := mem_allFiles_of_registered hregistry
    obtain ⟨hownerMem, place, found, hfound, haddress⟩ := fileContainingMessage_declared howner
    have hname : reference.file.name = file.name :=
      hgen.name_of_sameFile (hregistered hownerMem) hmem hsame
    rcases findMessageVisible_declared hvisible with
      ⟨path, hpath⟩ | ⟨fullName, hnone, other, hother, htype⟩
    · refine ⟨hname, path, hpath, fun place hplace => ?_⟩
      exact (hgen.messagePointers _ (hregistered hownerMem) file hmem _ _ _ _ hplace hpath rfl).2.1
    · -- the file has a type of that name itself, as it is a copy
      obtain ⟨path, hpath⟩ := findAbsoluteInFile_declared htype
      have hotherName : reference.file.name = other.name :=
        (hgen.messagePointers _ (hregistered hownerMem) _ (hregistered hother) _ _ _ _ hfound hpath
          haddress).1
      have hcopy := hgen.copies file hfile other (by rwa [registered_eq hregistry])
        (hname.symm.trans hotherName) fullName (by rw [htype]; rfl)
      rw [hnone] at hcopy
      cases hcopy

/-- A reference out of the generated file follows its imports. -/
theorem WellFormed.reference_imported (hfile : file ∈ gen.files)
    (hreference : (gen.context file).resolveMessageReference typeName = some reference)
    (hsame : sameFile reference.file file = false) :
    TransGen (ImportsPath gen.allFiles) file.name reference.file.name := by
  rcases CodegenContext.resolveMessageReference_cases hreference with
    ⟨hown, -⟩ | ⟨registry, hregistry, -, howner, hchain⟩
  · rw [hown, context_file, sameFile, beq_self_eq_true, Bool.true_or] at hsame
    cases hsame
  · rw [context_file, hsame] at hchain
    have hregistered := mem_allFiles_of_registered hregistry
    have hownerMem := (fileContainingMessage_declared howner).1
    have hsee : registry.fileCanSee file reference.file = true := by
      rw [Registry.fileCanSee, hchain.resolve_left (by simp), Bool.or_true]
    rcases Registry.fileCanSee_iff.mp hsee with hself | hleads
    · have hback : sameFile reference.file file = true := by
        rw [sameFile, Bool.or_eq_true] at hself ⊢
        rcases hself with haddress | hname
        · exact .inl (by simpa using (by simpa using haddress : file.address = _).symm)
        · simp only [Bool.and_eq_true, beq_iff_eq] at hname
          exact .inr (by simp [hname])
      rw [hsame] at hback
      cases hback
    · exact hleads.transGen hregistered
        (fun other hother hsameOther =>
          hgen.name_of_sameFile (hregistered hother) (hregistered hownerMem) hsameOther)
        (by decide) (List.mem_append_left _ hfile)

/-- One edge leads into a file that is imported, or goes along a field that the search sees. -/
theorem WellFormed.storedByValue_cases {source target : Struct}
    (h : gen.StoredByValue source target) :
    TransGen (ImportsPath gen.allFiles) source.1 target.1 ∨
      source.1 = target.1 ∧ ∃ file ∈ gen.files, file.name = source.1 ∧ ∃ first last,
        (source.2, first) ∈ file.declaredMessages ∧ (target.2, last) ∈ file.declaredMessages ∧
          (gen.context file).Keeps first last := by
  obtain ⟨file, hfile, hname, message, hmessage, field, hfield, typeName, htyped, reference,
    hreference, htarget, hplace⟩ := h
  have hsingular : field.cardinality ≠ .repeated ∧
      (gen.context file).typedLengthPrefixedOrGroupField field = some typeName := by
    rcases htyped with hsingular | honeof
    · rw [CodegenContext.typedSingularMessageField] at hsingular
      split at hsingular
      · cases hsingular
      · next hguard =>
        simp only [Bool.or_eq_true, beq_iff_eq, not_or] at hguard
        exact ⟨hguard.2, hsingular⟩
    · rw [CodegenContext.typedOneofMessageField] at honeof
      split at honeof
      · cases honeof
      · next hguard =>
        have hmember : field.oneofName.isSome = true := by
          simpa [Option.isSome_iff_ne_none] using hguard
        exact ⟨hgen.oneofFields file hfile _ _ hmessage field hfield hmember, honeof⟩
  cases hsame : sameFile reference.file file with
  | false =>
      rw [← hname, ← htarget]
      exact .inl (hgen.reference_imported hfile hreference hsame)
  | true =>
      obtain ⟨hfileName, path, hpath, hplaces⟩ := hgen.reference_declared hfile hreference hsame
      refine .inr ⟨by rw [← hname, ← htarget, hfileName], file, hfile, hname, message,
        reference.message, hmessage, ?_, ⟨_, hmessage⟩, field, hfield, hsingular.1, typeName,
        hsingular.2, reference, hreference, hsame, rfl⟩
      rw [hplaces _ hplace]
      exact hpath

/-- So does a path, by the cases of its edges: once it has left a file it stays among the files
imported from there. -/
theorem WellFormed.transGen_cases {source target : Struct}
    (h : TransGen gen.StoredByValue source target) :
    TransGen (ImportsPath gen.allFiles) source.1 target.1 ∨
      source.1 = target.1 ∧ ∃ file ∈ gen.files, file.name = source.1 ∧ ∃ first last,
        (source.2, first) ∈ file.declaredMessages ∧ (target.2, last) ∈ file.declaredMessages ∧
          TransGen (gen.context file).Keeps first last := by
  induction h with
  | single hedge =>
      rcases hgen.storedByValue_cases hedge with
        himports | ⟨hsame, file, hfile, hname, first, last, hfirst, hlast, hkeeps⟩
      · exact .inl himports
      · exact .inr ⟨hsame, file, hfile, hname, first, last, hfirst, hlast, .single hkeeps⟩
  | @tail middle target _ hedge ih =>
      rcases ih, hgen.storedByValue_cases hedge with
        ⟨himports | ⟨hsame, file, hfile, hname, first, last, hfirst, hlast, hpath⟩,
          hnext | ⟨hsame', file', hfile', hname', first', last', hfirst', hlast', hkeeps⟩⟩
      · exact .inl (himports.trans hnext)
      · rw [← hsame']
        exact .inl himports
      · rw [hsame]
        exact .inl hnext
      · obtain rfl : file = file' :=
          hgen.fileNames file hfile file' hfile' (by rw [hname, hname', hsame])
        obtain rfl : last = first' := hgen.typeNames file hfile _ _ _ hlast hfirst'
        exact .inr ⟨hsame.trans hsame', file, hfile, hname, first, last', hfirst, hlast',
          hpath.tail hkeeps⟩

theorem WellFormed.not_transGen_storedByValue (hacyclic : AcyclicImports gen.allFiles)
    (struct : Struct) : ¬ TransGen gen.StoredByValue struct struct := by
  intro hcycle
  rcases hgen.transGen_cases hcycle with
    himports | ⟨-, file, hfile, -, first, last, hfirst, hlast, hpath⟩
  · exact hacyclic struct.1 himports
  · obtain rfl : first = last := hgen.typeNames file hfile _ _ _ hfirst hlast
    exact CodegenContext.not_transGen_keeps (hgen.fieldPointers file hfile) hpath

/-- The search stays among the messages of the file. -/
theorem WellFormed.valuePath_declared (hfile : file ∈ gen.files) {steps : Nat}
    {source target : MessageDescriptor}
    (hsource : ∃ path, (path, source) ∈ file.declaredMessages)
    (h : (gen.context file).ValuePath steps source target) :
    ∃ path, (path, target) ∈ file.declaredMessages := by
  induction h with
  | nil => exact hsource
  | cons hstep _ ih =>
      refine ih ?_
      obtain ⟨field, -, htarget⟩ := List.mem_filterMap.mp hstep
      obtain ⟨typeName, reference, hreference, hsame, hmessage⟩ :=
        CodegenContext.exists_reference_of_valueTarget htarget
      obtain ⟨-, path, hpath, -⟩ := hgen.reference_declared hfile hreference hsame
      exact ⟨path, hmessage ▸ hpath⟩

/-- A singular field of a nested type is stored by value unless it stays in its file and the search
finds its message again, or 64 fields in a row. -/
theorem WellFormed.typedLengthPrefixedOrGroupField_iff (hfile : file ∈ gen.files)
    {path : List Bytes} {message : MessageDescriptor} {field : FieldDescriptor}
    (hmessage : (path, message) ∈ file.declaredMessages) (hfield : field ∈ message.fields)
    (hsingular : field.cardinality ≠ .repeated)
    (hname : nestedTypeName file field = some typeName)
    (hreference : (gen.context file).resolveMessageReference typeName = some reference) :
    (gen.context file).typedLengthPrefixedOrGroupField field = some typeName ↔
      (sameFile reference.file file = true →
        (∀ steps < 64, ¬ (gen.context file).ValuePath steps reference.message message) ∧
          ∀ last, ¬ (gen.context file).ValuePath 64 reference.message last) := by
  have hcan : (gen.context file).codegenCanReferenceMessage typeName = true := by
    rw [CodegenContext.codegenCanReferenceMessage, hreference]
    rfl
  have hcycle := CodegenContext.fieldCreatesValueDependencyCycle_eq
    (hgen.fieldPointers file hfile) hmessage hfield hreference
  rw [CodegenContext.typedLengthPrefixedOrGroupField_eq_some, hcycle, context_file]
  cases hsame : sameFile reference.file file with
  | false => simp [hname, hcan]
  | true =>
      obtain ⟨-, place, hplace, -⟩ := hgen.reference_declared hfile hreference hsame
      have hpointer : ∀ steps, (gen.context file).ValuePath steps reference.message message ↔
          ∃ last, (gen.context file).ValuePath steps reference.message last
            ∧ CodegenContext.samePointer message last = true := by
        intro steps
        constructor
        · intro hpath
          exact ⟨message, hpath, beq_self_eq_true _⟩
        · rintro ⟨last, hpath, haddress⟩
          obtain ⟨there, hlast⟩ := hgen.valuePath_declared hfile ⟨place, hplace⟩ hpath
          have hmem : file ∈ gen.allFiles := List.mem_append_left _ hfile
          obtain ⟨-, -, rfl⟩ := hgen.messagePointers file hmem file hmem _ _ _ _ hlast hmessage
            (by simpa [CodegenContext.samePointer] using haddress)
          exact hpath
      have hsearch : search (gen.context file).valueTargets (CodegenContext.samePointer message)
            CodegenContext.maxValuePathDepth reference.message = false ↔
          (∀ steps < 64, ¬ (gen.context file).ValuePath steps reference.message message) ∧
            ∀ last, ¬ (gen.context file).ValuePath 64 reference.message last := by
        rw [← Bool.not_eq_true, search_eq_true_iff, not_or]
        simp only [hpointer, not_exists, not_and, CodegenContext.maxValuePathDepth]
      simp [hname, hcan, hsingular, hsearch]

/-- No struct of the generated code contains itself. Inside its file a singular field is stored by
value exactly if its message is not found again from its type, and no chain of 64 fields starts
there. -/
theorem structs_finite (hacyclic : AcyclicImports gen.allFiles) :
    (∀ struct, ¬ TransGen gen.StoredByValue struct struct) ∧
      ∀ file ∈ gen.files, ∀ path message, (path, message) ∈ file.declaredMessages →
        ∀ field ∈ message.fields, field.cardinality ≠ .repeated →
          ∀ typeName reference, nestedTypeName file field = some typeName →
            (gen.context file).resolveMessageReference typeName = some reference →
            ((gen.context file).typedLengthPrefixedOrGroupField field = some typeName ↔
              (sameFile reference.file file = true →
                (∀ steps < 64, ¬ (gen.context file).ValuePath steps reference.message message) ∧
                  ∀ last, ¬ (gen.context file).ValuePath 64 reference.message last)) := by
  refine ⟨hgen.not_transGen_storedByValue hacyclic, ?_⟩
  intro file hfile path message hmessage field hfield hsingular typeName reference hname hreference
  exact hgen.typedLengthPrefixedOrGroupField_iff hfile hmessage hfield hsingular hname hreference

omit hgen

/-! ## A loop behind a field -/

def leafDescriptor : MessageDescriptor := { name := ascii "Leaf", address := 3 }

/-- It holds itself, so its own field is kept as bytes. -/
def ringDescriptor : MessageDescriptor :=
  { name := ascii "Ring", address := 2,
    fields := [{ name := ascii "next", number := 1, kind := .message (ascii "Ring"),
                 address := 12 }] }

def ringField : FieldDescriptor :=
  { name := ascii "ring", number := 1, kind := .message (ascii "Ring"), address := 10 }

def leafField : FieldDescriptor :=
  { name := ascii "leaf", number := 2, kind := .message (ascii "Leaf"), address := 11 }

def ownerDescriptor : MessageDescriptor :=
  { name := ascii "Owner", address := 1, fields := [ringField, leafField] }

def ownerFile : FileDescriptor :=
  { name := ascii "owner.proto", messages := [ownerDescriptor, ringDescriptor, leafDescriptor] }

def ownerGeneration : Generation := { files := [ownerFile] }

theorem ownerFile_of_mem : ∀ file ∈ ownerGeneration.allFiles, file = ownerFile := by
  simp [allFiles, registered, ownerGeneration]

theorem ownerFile_pair : ∀ pair ∈ ownerFile.declaredMessages, ∀ other ∈ ownerFile.declaredMessages,
    pair.2.address = other.2.address → pair = other := by
  have hnodup : (ownerFile.declaredMessages.map (fun pair => pair.2.address)).Nodup := by
    decide
  intro pair hpair other hother haddress
  exact List.inj_on_of_nodup_map hnodup hpair hother haddress

theorem ownerGeneration_wellFormed : ownerGeneration.WellFormed where
  fileNames := by
    intro a ha b hb _
    rw [List.mem_singleton.mp ha, List.mem_singleton.mp hb]
  filePointers := by
    intro a ha b hb _
    rw [ownerFile_of_mem a ha, ownerFile_of_mem b hb]
  typeNames := by
    intro file hfile path message other hmessage hother
    obtain rfl := List.mem_singleton.mp hfile
    have hnodup : (ownerFile.declaredMessages.map Prod.fst).Nodup := by decide
    have hpair := List.inj_on_of_nodup_map hnodup hmessage hother rfl
    exact congrArg Prod.snd hpair
  messagePointers := by
    intro a ha b hb path message place other hmessage hother haddress
    obtain rfl := ownerFile_of_mem a ha
    obtain rfl := ownerFile_of_mem b hb
    have hpair := ownerFile_pair _ hmessage _ hother haddress
    exact ⟨rfl, congrArg Prod.fst hpair, congrArg Prod.snd hpair⟩
  fieldPointers := by
    intro file hfile path message place other hmessage hother field hfield candidate hcandidate
      haddress
    obtain rfl := List.mem_singleton.mp hfile
    have hapart : ∀ pair ∈ ownerFile.declaredMessages, ∀ found ∈ ownerFile.declaredMessages,
        ∀ field ∈ pair.2.fields, ∀ candidate ∈ found.2.fields,
          candidate.address = field.address → found.2.address = pair.2.address := by
      decide
    have hpair := ownerFile_pair _ hother _ hmessage
      (hapart _ hmessage _ hother field hfield candidate hcandidate haddress)
    exact congrArg Prod.snd hpair
  copies := by
    intro file _ original horiginal
    cases horiginal
  oneofFields := by
    intro file hfile path message hmessage field hfield hmember
    obtain rfl := List.mem_singleton.mp hfile
    have hnone : ∀ pair ∈ ownerFile.declaredMessages, ∀ field ∈ pair.2.fields,
        field.oneofName.isSome = true → field.cardinality ≠ .repeated := by
      decide
    exact hnone _ hmessage field hfield hmember

theorem ownerGeneration_acyclic : AcyclicImports ownerGeneration.allFiles := by
  intro name hcycle
  obtain ⟨path, ⟨file, hfile, -, entry, hentry, -⟩, -⟩ := TransGen.head'_iff.mp hcycle
  rw [ownerFile_of_mem file hfile] at hentry
  cases hentry

theorem structs_finite_owner :
    (∀ struct, ¬ TransGen ownerGeneration.StoredByValue struct struct) ∧
      (ownerGeneration.context ownerFile).typedLengthPrefixedOrGroupField leafField
        = some (ascii "Leaf") := by
  have hfinite := structs_finite ownerGeneration_wellFormed ownerGeneration_acyclic
  refine ⟨hfinite.1, ?_⟩
  refine (hfinite.2 ownerFile List.mem_cons_self [ascii "Owner"] ownerDescriptor
    List.mem_cons_self leafField (List.mem_cons_of_mem _ List.mem_cons_self) (by decide)
    (ascii "Leaf") { message := leafDescriptor, file := ownerFile } rfl rfl).mpr ?_
  -- no field leads on from the leaf
  have hstays : ∀ steps last,
      (ownerGeneration.context ownerFile).ValuePath steps leafDescriptor last →
        steps = 0 ∧ last = leafDescriptor := by
    intro steps last hpath
    cases hpath with
    | nil => exact ⟨rfl, rfl⟩
    | cons hstep _ => cases hstep
  intro _
  constructor
  · intro steps _ hpath
    have haddress := congrArg MessageDescriptor.address (hstays steps _ hpath).2
    exact absurd haddress (by decide)
  · intro last hpath
    exact absurd (hstays 64 last hpath).1 (by decide)

/-- The ring leads nowhere but to itself, so never back to the owner. -/
theorem valuePath_ring {steps : Nat} {source last : MessageDescriptor}
    (hsource : source = ringDescriptor)
    (h : (ownerGeneration.context ownerFile).ValuePath steps source last) :
    last = ringDescriptor := by
  induction h with
  | nil => exact hsource
  | cons hstep _ ih =>
      refine ih ?_
      rw [hsource] at hstep
      exact List.mem_singleton.mp (show _ ∈ [ringDescriptor] from hstep)

/-- The owner cannot be reached from its ring, and still keeps the ring as bytes. -/
theorem ring_not_storedByValue :
    ownerGeneration.WellFormed ∧ AcyclicImports ownerGeneration.allFiles ∧
      ([ascii "Owner"], ownerDescriptor) ∈ ownerFile.declaredMessages ∧
      ringField ∈ ownerDescriptor.fields ∧ ringField.cardinality ≠ .repeated ∧
      nestedTypeName ownerFile ringField = some (ascii "Ring") ∧
      (ownerGeneration.context ownerFile).resolveMessageReference (ascii "Ring")
        = some { message := ringDescriptor, file := ownerFile } ∧
      (∀ steps, ¬ (ownerGeneration.context ownerFile).ValuePath steps ringDescriptor
        ownerDescriptor) ∧
      (ownerGeneration.context ownerFile).typedSingularMessageField ringField = none := by
  refine ⟨ownerGeneration_wellFormed, ownerGeneration_acyclic, List.mem_cons_self,
    List.mem_cons_self, by decide, rfl, rfl, ?_, by decide⟩
  intro steps hpath
  have haddress := congrArg MessageDescriptor.address (valuePath_ring rfl hpath)
  exact absurd haddress (by decide)

end Generation

end Pbz
