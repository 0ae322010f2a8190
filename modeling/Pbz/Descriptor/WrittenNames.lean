import Pbz.Descriptor.RegistryNames

set_option autoImplicit false

/-! # Designated types as they are written

When `writeFieldDescriptor` writes the full name of the type that a name in a field designates, and
the number that goes with its kind: `names_iff`. The fields of a file are those of its messages at
any depth, the extensions inside and beside them, and the two fields of the entry message that is
made for each map field.
-/

namespace Pbz

open Dotted

namespace Descriptor

/-! ## The fields of a file -/

/-- A field of a message, with the entry message it is in if it is made for a map field. -/
inductive HoldsField (message : MessageDescriptor) : List Bytes → FieldDescriptor → Prop
  | field {field : FieldDescriptor} (h : field ∈ message.fields) : HoldsField message [] field
  | extension {field : FieldDescriptor} (h : field ∈ message.extensions) :
      HoldsField message [] field
  | entry {mapField field : FieldDescriptor} {key : ScalarType} {value : FieldKind}
      (hmap : mapField ∈ message.fields) (hkind : mapField.kind = .map key value)
      (h : field ∈ mapEntryFields key value) :
      HoldsField message [mapEntryName mapField.name] field

/-- A field that is written for a file: the messages around it, and the entry message. -/
inductive WrittenAt (file : FileDescriptor) : List Bytes → List Bytes → FieldDescriptor → Prop
  | inside {around entry : List Bytes} {message : MessageDescriptor} {field : FieldDescriptor}
      (hm : (around, message) ∈ declaredMessages [] file.messages)
      (h : HoldsField message entry field) : WrittenAt file around entry field
  | beside {field : FieldDescriptor} (h : field ∈ file.extensions) : WrittenAt file [] [] field

mutual

/-- A path in front of the scope is in front of all paths. -/
theorem declaredMessages_append (outer scope : List Bytes) : ∀ messages : List MessageDescriptor,
    declaredMessages (outer ++ scope) messages
      = (declaredMessages scope messages).map (fun pair => (outer ++ pair.1, pair.2))
  | [] => by simp [declaredMessages]
  | first :: rest => by
      rw [declaredMessages, declaredMessages, List.map_cons, List.map_append, List.append_assoc,
        nestedMessages_append outer (scope ++ [first.name]) first,
        declaredMessages_append outer scope rest]

theorem nestedMessages_append (outer scope : List Bytes) : ∀ message : MessageDescriptor,
    message.nestedMessages (outer ++ scope)
      = (message.nestedMessages scope).map (fun pair => (outer ++ pair.1, pair.2))
  | { messages := messages, .. } => by
      rw [MessageDescriptor.nestedMessages, MessageDescriptor.nestedMessages]
      exact declaredMessages_append outer scope messages

end

/-- The messages around a field, without the package. -/
theorem mem_file_declaredMessages {file : FileDescriptor} {around : List Bytes}
    {message : MessageDescriptor} (h : (around, message) ∈ declaredMessages [] file.messages) :
    (file.packagePath ++ around, message) ∈ file.declaredMessages := by
  rw [FileDescriptor.declaredMessages, ← List.append_nil file.packagePath,
    declaredMessages_append, List.append_nil]
  exact List.mem_map.mpr ⟨_, h, rfl⟩

section

variable {text : Bytes} {field : FieldDescriptor}

theorem holdsField_iff {pre : List Bytes} (hpre : IsPath 0x2e pre) {message : MessageDescriptor} :
    (∃ entry, HoldsField message entry field ∧ text = joined 0x2e (pre ++ entry)) ↔
      (text, field) ∈ message.fields.map (joined 0x2e pre, ·)
          ++ message.fields.flatMap (mapEntryFieldsOf (joined 0x2e pre))
          ++ message.extensions.map (joined 0x2e pre, ·) := by
  simp only [List.mem_append, List.mem_map, List.mem_flatMap, Prod.mk.injEq]
  constructor
  · rintro ⟨entry, hholds, rfl⟩
    cases hholds with
    | field h => exact .inl (.inl ⟨field, h, by rw [List.append_nil], rfl⟩)
    | extension h => exact .inr ⟨field, h, by rw [List.append_nil], rfl⟩
    | entry hmap hkind h =>
        refine .inl (.inr ⟨_, hmap, ?_⟩)
        rw [mapEntryFieldsOf, hkind]
        refine List.mem_map.mpr ⟨field, h, ?_⟩
        rw [joinScope_joined hpre]
  · rintro ((⟨_, h, rfl, rfl⟩ | ⟨mapField, hmap, h⟩) | ⟨_, h, rfl, rfl⟩)
    · exact ⟨[], .field h, by rw [List.append_nil]⟩
    · rw [mapEntryFieldsOf] at h
      split at h
      · next key value hkind =>
        obtain ⟨other, hother, hpair⟩ := List.mem_map.mp h
        obtain ⟨rfl, rfl⟩ := Prod.mk.inj hpair
        exact ⟨_, .entry hmap hkind hother, joinScope_joined hpre _⟩
      · cases h
    · exact ⟨[], .extension h, by rw [List.append_nil]⟩

mutual

/-- The fields that are written for some messages are those that the messages hold. -/
theorem mem_fieldsOfMessages_iff {pre : List Bytes} (hpre : IsPath 0x2e pre) :
    ∀ messages : List MessageDescriptor,
      (∀ pair ∈ declaredMessages pre messages, IsPath 0x2e pair.1) →
      ((text, field) ∈ fieldsOfMessages (joined 0x2e pre) messages ↔
        ∃ pair ∈ declaredMessages pre messages,
          ∃ entry, HoldsField pair.2 entry field ∧ text = joined 0x2e (pair.1 ++ entry))
  | [], _ => by simp [fieldsOfMessages, declaredMessages]
  | first :: rest, hpaths => by
      rw [declaredMessages, ← List.cons_append] at hpaths
      rw [fieldsOfMessages, declaredMessages, ← List.cons_append, List.mem_append,
        mem_fieldsOfMessage_iff hpre first
          (fun pair hp => hpaths pair (List.mem_append_left _ hp)),
        mem_fieldsOfMessages_iff hpre rest
          (fun pair hp => hpaths pair (List.mem_append_right _ hp))]
      simp only [List.mem_append, or_and_right, exists_or]

theorem mem_fieldsOfMessage_iff {pre : List Bytes} (hpre : IsPath 0x2e pre) :
    ∀ message : MessageDescriptor,
      (∀ pair ∈ (pre ++ [message.name], message) :: message.nestedMessages (pre ++ [message.name]),
        IsPath 0x2e pair.1) →
      ((text, field) ∈ fieldsOfMessage (joined 0x2e pre) message ↔
        ∃ pair ∈ (pre ++ [message.name], message) ::
            message.nestedMessages (pre ++ [message.name]),
          ∃ entry, HoldsField pair.2 entry field ∧ text = joined 0x2e (pair.1 ++ entry))
  | { name := name, messages := messages, .. }, hpaths => by
      have hname : IsPath 0x2e (pre ++ [name]) := hpaths _ List.mem_cons_self
      have hnested : ∀ pair ∈ declaredMessages (pre ++ [name]) messages, IsPath 0x2e pair.1 := by
        intro pair hp
        exact hpaths pair (List.mem_cons_of_mem _ (by
          rw [MessageDescriptor.nestedMessages]
          exact hp))
      rw [fieldsOfMessage, MessageDescriptor.nestedMessages, joinScope_joined hpre,
        List.exists_mem_cons_iff, ← mem_fieldsOfMessages_iff hname messages hnested,
        holdsField_iff hname]
      simp only [List.mem_append]
      tauto

end

/-- The fields that are written for a file, each with the scope it is written in. -/
theorem mem_writtenFields_iff {file : FileDescriptor} (hf : file.WellNamed) :
    (text, field) ∈ writtenFields file ↔
      ∃ around entry, WrittenAt file around entry field ∧ text = joined 0x2e (around ++ entry) := by
  have hnil : IsPath 0x2e ([] : List Bytes) := by simp [IsPath]
  have hpaths : ∀ pair ∈ declaredMessages [] file.messages, IsPath 0x2e pair.1 := by
    intro pair hp
    have hfull := (isPath_scope hf (mem_file_declaredMessages hp)).1
    exact hfull.sublist (List.sublist_append_right _ _)
  rw [writtenFields, List.mem_append, ← joined_nil,
    mem_fieldsOfMessages_iff hnil file.messages hpaths]
  constructor
  · rintro (⟨⟨around, message⟩, hm, entry, hholds, htext⟩ | hmem)
    · exact ⟨around, entry, .inside hm hholds, htext⟩
    · obtain ⟨other, hother, hpair⟩ := List.mem_map.mp hmem
      obtain ⟨rfl, rfl⟩ := Prod.mk.inj hpair
      exact ⟨[], [], .beside hother, rfl⟩
  · rintro ⟨around, entry, hwritten, rfl⟩
    cases hwritten with
    | inside hm hholds => exact .inl ⟨_, hm, entry, hholds, rfl⟩
    | beside h => exact .inr (List.mem_map.mpr ⟨field, h, rfl⟩)

end

/-! ## Names and kinds -/

/-- The type name in a kind. -/
def referencedName : FieldKind → Option Bytes
  | .message name | .group name | .enumeration name => some name
  | .scalar _ | .map _ _ => none

/-- The type number goes with the kind of a type. -/
def tellsKind (number : Nat) : TypeRef → Bool
  | .message _ => number == 10 || number == 11
  | .enumeration _ => number == 14

/-- A name written in a scope designates the type with this full name. -/
def DesignatesAt (types : List (List Bytes × TypeRef)) (scope : List Bytes) (name : Bytes)
    (path : List Bytes) (type : TypeRef) : Prop :=
  ∃ longer shorter, namesInScope scope name = longer ++ path :: shorter ∧ (path, type) ∈ types ∧
    ∀ other ∈ longer, ¬ IsNamed types other

theorem toUpper_ne_dot {c : UInt8} (h : c ≠ 0x2e) : toUpper c ≠ 0x2e := by
  rw [toUpper]
  split
  · next hlower =>
    have hle : (0x20 : UInt8) ≤ c :=
      UInt8.le_trans (by decide : (0x20 : UInt8) ≤ 0x61) hlower.1
    have hlow := UInt8.le_iff_toNat_le.mp hlower.1
    intro hc
    have hval := congrArg UInt8.toNat hc
    rw [UInt8.toNat_sub_of_le _ _ hle] at hval
    simp at hlow hval
    omega
  · exact h

theorem notMem_defaultJsonNameFrom {name : Bytes} (h : 0x2e ∉ name) (upperNext : Bool) :
    0x2e ∉ defaultJsonNameFrom upperNext name := by
  induction name generalizing upperNext with
  | nil => simp [defaultJsonNameFrom]
  | cons c rest ih =>
      rw [List.mem_cons, not_or] at h
      rw [defaultJsonNameFrom]
      split
      · exact ih h.2 true
      · rw [List.mem_cons, not_or]
        refine ⟨?_, ih h.2 false⟩
        split
        · exact (toUpper_ne_dot (Ne.symm h.1)).symm
        · exact h.1

theorem isPart_mapEntryName {name : Bytes} (h : 0x2e ∉ name) : IsPart 0x2e (mapEntryName name) := by
  refine ⟨by simp [mapEntryName, ascii], ?_⟩
  rw [mapEntryName, List.mem_append, not_or]
  exact ⟨notMem_defaultJsonNameFrom h true, by decide⟩

theorem WrittenAt.isPath {file : FileDescriptor} {around entry : List Bytes}
    {field : FieldDescriptor} (hf : file.WellNamed)
    (hnames : ∀ pair ∈ file.declaredMessages, ∀ field ∈ pair.2.fields, 0x2e ∉ field.name)
    (h : WrittenAt file around entry field) : IsPath 0x2e (around ++ entry) := by
  cases h with
  | beside h => simp [IsPath]
  | inside hm hholds =>
      have hmem := mem_file_declaredMessages hm
      have haround := (isPath_scope hf hmem).1.sublist
        (List.sublist_append_right file.packagePath _)
      refine haround.append ?_
      cases hholds with
      | field h => simp [IsPath]
      | extension h => simp [IsPath]
      | entry hmap hkind h =>
          intro part hp
          rw [List.mem_singleton.mp hp]
          exact isPart_mapEntryName (hnames _ hmem _ hmap)

/-! ## A field that is written -/

/-- A field of one of some files, which is written with a registry of these files or without one.
Names are identifiers, and references to types are such with dots between. -/
structure WrittenField where
  files : Registry
  file : FileDescriptor
  around : List Bytes
  entry : List Bytes
  field : FieldDescriptor
  hasRegistry : Bool
  described : Described files
  mem : file ∈ files.files
  writtenAt : WrittenAt file around entry field
  fieldNames : ∀ pair ∈ file.declaredMessages, ∀ field ∈ pair.2.fields, 0x2e ∉ field.name
  references : ∀ name, referencedName field.kind = some name → IsTypeName name
  extendees : ∀ name, field.extendee = some name → IsTypeName name
  fullNames : ∀ name, field.fullName = some name → IsTypeName name

namespace WrittenField

variable (w : WrittenField)

def scope : List Bytes := w.around ++ w.entry

def registry : Option Registry := if w.hasRegistry then some w.files else none

def written : FieldTypes := writeFieldDescriptor w.file w.registry (joined 0x2e w.scope) w.field

/-- A name in the field designates a type that the file sees; without a registry the type is one
of the file itself. -/
def Designates (name : Bytes) (path : List Bytes) (type : TypeRef) : Prop :=
  DesignatesAt (typesOf (w.files.visibleFrom w.file)) (w.file.packagePath ++ w.around) name path
      type ∧
    (w.hasRegistry = true ∨ (path, type) ∈ w.file.declaredTypes)

/-- The full names of the designated types are written, and the number of the kind of the type. -/
def NamesRight : Prop :=
  (∀ name, referencedName w.field.kind = some name → ∀ path type, w.Designates name path type →
    w.written.typeName = some (0x2e :: joined 0x2e path) ∧
      tellsKind w.written.type type = true) ∧
  ∀ name, w.field.extendee = some name → ∀ path type, w.Designates name path type →
    w.written.extendee = some (0x2e :: joined 0x2e path)

/-! ### Where the search leads -/

def inRegistry (scope : List Bytes) (name : Bytes) (kind : DescriptorTypeKind) :
    Option (List Bytes) :=
  w.registry.bind (fun files => metNameOf files w.file (effectiveScope w.file scope) name kind)

def inFile (name : Bytes) (kind : DescriptorTypeKind) : Option (List Bytes) :=
  (namesInFile w.scope name).find? (takesType w.file kind)

/-- The name that is met first in the registry is written as this full name; if none is met there,
then the one that is met first in the file; if none is met at all, then the name itself. -/
def LeadsTo (scope : List Bytes) (name : Bytes) (kind : DescriptorTypeKind) (path : List Bytes) :
    Prop :=
  (∀ met, w.inRegistry scope name kind = some met → spelledIn w.files met = path) ∧
  (w.inRegistry scope name kind = none →
    (∀ met, w.inFile name kind = some met → spelled w.file met = path) ∧
    (w.inFile name kind = none → spelled w.file (components name) = path))

/-- The registry has an enum for the name, or some enum of the file bears its last part. -/
def PicksEnum (name : Bytes) : Prop :=
  w.inRegistry w.scope name .enumeration ≠ none ∨
    searchesFile w.file name = true ∧
      ∃ enumeration ∈ w.file.enums ++ nestedEnums w.file.messages,
        enumeration.name = leafName name

/-- The kind of type for which the name in a field is looked up. -/
def LooksUp : FieldKind → DescriptorTypeKind → Prop
  | .message name, .message => ¬ w.PicksEnum name
  | .message name, .enumeration => w.PicksEnum name
  | .group _, .message => True
  | .enumeration _, .enumeration => True
  | _, _ => False

def kindOf : TypeRef → DescriptorTypeKind
  | .message _ => .message
  | .enumeration _ => .enumeration

/-- The scope in which the registry looks for an extended message. -/
def extensionScope : List Bytes :=
  match w.field.fullName with
  | some fullName => (components fullName).dropLast
  | none => w.file.packagePath ++ w.scope

/-- The search for a designated type leads to its full name. -/
def SearchLeads : Prop :=
  (∀ name, referencedName w.field.kind = some name → ∀ path type, w.Designates name path type →
    w.LooksUp w.field.kind (kindOf type) ∧
      (isAbsolute name = true ∨ w.LeadsTo w.scope name (kindOf type) path)) ∧
  ∀ name, w.field.extendee = some name → ∀ path type, w.Designates name path type →
    isAbsolute name = true ∨
      if Parser.isCustomOptionExtendee name then components name = path
      else w.LeadsTo w.extensionScope name .message path

/-! ### What is written -/

theorem wellNamed : w.file.WellNamed := w.described.wellNamed w.file w.mem

theorem isPath_scope : IsPath 0x2e w.scope := w.writtenAt.isPath w.wellNamed w.fieldNames

theorem isPath_of_designates {name : Bytes} {path : List Bytes} {type : TypeRef}
    (h : w.Designates name path type) : IsPath 0x2e path := by
  obtain ⟨⟨_, _, -, hmem, -⟩, -⟩ := h
  obtain ⟨file, hf, hdeclared⟩ := List.mem_flatMap.mp hmem
  have hfile := (List.mem_filter.mp hf).1
  exact isPath_of_mem_declaredTypes (w.described.wellNamed file hfile) hdeclared

theorem eq_of_absolute {name : Bytes} {path : List Bytes} {type : TypeRef}
    (h : w.Designates name path type) (ha : isAbsolute name = true) :
    name = 0x2e :: joined 0x2e path := by
  obtain ⟨⟨longer, shorter, hnames, -, -⟩, -⟩ := h
  rw [namesInScope, if_pos ha] at hnames
  have hpath : path = components name := by
    have hmem : path ∈ [components name] := by
      rw [hnames]
      simp
    exact List.mem_singleton.mp hmem
  cases name with
  | nil => simp [isAbsolute] at ha
  | cons b rest =>
      have hb : b = 0x2e := by simpa [isAbsolute] using ha
      rw [hpath, joined_components, hb]
      rfl

/-- The full name that the search leads to. -/
def found (scope : List Bytes) (name : Bytes) (kind : DescriptorTypeKind) : List Bytes :=
  ((w.inRegistry scope name kind).map (spelledIn w.files)).getD
    (spelled w.file ((w.inFile name kind).getD (components name)))

section

variable {name : Bytes} {scope path : List Bytes} {kind : DescriptorTypeKind}

theorem found_eq_iff : w.found scope name kind = path ↔ w.LeadsTo scope name kind path := by
  rw [found, LeadsTo]
  cases w.inRegistry scope name kind with
  | some met => simp
  | none => cases w.inFile name kind <;> simp

theorem metName_path (hs : IsPath 0x2e scope) (hn : IsTypeName name)
    (h : w.inRegistry scope name kind = some path) : IsPath 0x2e path := by
  obtain ⟨files, -, hmet⟩ := Option.bind_eq_some_iff.mp h
  obtain ⟨hfirst, -⟩ := Option.filter_eq_some_iff.mp hmet
  exact isPath_of_mem_namesInScope (isPath_effectiveScope w.wellNamed hs) hn
    (List.mem_filter.mp (List.mem_of_find?_eq_some hfirst)).1

theorem isPath_spelledIn (hp : IsPath 0x2e path) : IsPath 0x2e (spelledIn w.files path) := by
  rw [spelledIn]
  cases hfind : w.files.files.find? (fun file => (file.typeNamed path).isSome) with
  | none => exact hp
  | some file =>
      exact isPath_spelled (w.described.wellNamed file (List.mem_of_find?_eq_some hfind))
        (hp.sublist (List.drop_sublist _ _))

theorem isPath_found (hs : IsPath 0x2e scope) (hn : IsTypeName name) :
    IsPath 0x2e (w.found scope name kind) := by
  rw [found]
  cases hmet : w.inRegistry scope name kind with
  | some met => exact w.isPath_spelledIn (w.metName_path hs hn hmet)
  | none =>
      refine isPath_spelled w.wellNamed ?_
      cases hfile : w.inFile name kind with
      | none => exact hn.isPath
      | some met =>
          exact isPath_of_mem_namesInFile w.isPath_scope hn (List.mem_of_find?_eq_some hfile)

/-- The search writes the name that it leads to. -/
theorem getD_resolveInFile (ha : isAbsolute name = false) (hs : IsPath 0x2e scope)
    (hn : IsTypeName name) :
    (w.registry.bind (fun registry =>
        visibleFullName registry w.file name (scopeText scope) kind)).getD
      (resolveInFile w.file (joined 0x2e w.scope) name kind)
      = 0x2e :: joined 0x2e (w.found scope name kind) := by
  have hfile := resolveInFile_joined w.wellNamed ha hn w.isPath_scope kind
  rw [found, inRegistry, registry, hfile]
  cases w.hasRegistry with
  | false => rfl
  | true =>
      simp only [if_true, Option.bind_some, visibleFullName_eq w.described w.mem hs hn kind]
      cases metNameOf w.files w.file (effectiveScope w.file scope) name kind <;> rfl

/-- The written name is the one with this path exactly when the search leads to it. -/
theorem written_eq_iff (hs : IsPath 0x2e scope) (hn : IsTypeName name) (hp : IsPath 0x2e path) :
    0x2e :: joined 0x2e (w.found scope name kind) = 0x2e :: joined 0x2e path ↔
      w.LeadsTo scope name kind path := by
  rw [List.cons_inj_right, ← found_eq_iff]
  exact ⟨joined_injective (w.isPath_found hs hn) hp, fun h => by rw [h]⟩

end

section

variable {name : Bytes} {path : List Bytes} {type : TypeRef} {kind : DescriptorTypeKind}

theorem effectiveScope_twice (file : FileDescriptor) (scope : List Bytes) :
    effectiveScope file (effectiveScope file scope) = effectiveScope file scope := by
  rw [effectiveScope, ite_eq_right_iff]
  intro hempty
  rw [effectiveScope] at hempty ⊢
  split
  · rfl
  · next hne =>
    rw [if_neg hne] at hempty
    exact absurd hempty hne

theorem descriptorScopeName_joined :
    descriptorScopeName w.file (joined 0x2e w.scope)
      = scopeText (effectiveScope w.file w.scope) := by
  rw [descriptorScopeName, effectiveScope]
  by_cases hne : w.scope = []
  · rw [hne, joined_nil, List.isEmpty_nil, if_pos rfl, if_pos rfl, packageScope_eq]
  · have hempty : (joined 0x2e w.scope).isEmpty = false := by
      simpa using joined_ne_nil w.isPath_scope hne
    rw [hempty, if_neg Bool.false_ne_true, if_neg hne, scopeText, if_neg hne]

theorem descriptorExtensionScope_joined :
    descriptorExtensionScope w.file (joined 0x2e w.scope) w.field
      = scopeText w.extensionScope := by
  rw [descriptorExtensionScope, extensionScope]
  cases hfull : w.field.fullName with
  | some fullName =>
      have hpath := (w.fullNames fullName hfull).isPath
      obtain ⟨front, last, hsplit⟩ :=
        (List.eq_nil_or_concat' (components fullName)).resolve_left (components_ne_nil fullName)
      have hlast : IsPart 0x2e last := hpath last (by rw [hsplit]; simp)
      simp only [← joined_components, hsplit, List.dropLast_concat]
      rw [beforeLastDot_joined hlast, scopeText]
  | none =>
      by_cases hne : w.scope = []
      · simp [hne, packageScope_eq]
      · have hempty : (joined 0x2e w.scope).isEmpty = false := by
          simpa using joined_ne_nil w.isPath_scope hne
        have hboth : w.file.packagePath ++ w.scope ≠ [] := by simp [hne]
        simp only [hempty, Bool.not_false, if_true]
        rw [scopeText, if_neg hboth]
        by_cases hpackage : w.file.package.isEmpty = true
        · rw [if_pos hpackage, FileDescriptor.packagePath, if_pos hpackage, List.nil_append]
        · obtain ⟨hne', htext⟩ := packagePath_eq (by simpa using hpackage)
          rw [if_neg hpackage, joined_append hne' hne, htext]

theorem isPath_extensionScope : IsPath 0x2e w.extensionScope := by
  rw [extensionScope]
  cases hfull : w.field.fullName with
  | some fullName =>
      exact (w.fullNames fullName hfull).isPath.sublist (List.dropLast_sublist _)
  | none => exact w.wellNamed.package.append w.isPath_scope

/-- The written type name. -/
theorem resolveDescriptorTypeName_eq_iff (hn : IsTypeName name) (h : w.Designates name path type) :
    resolveDescriptorTypeName w.file w.registry (joined 0x2e w.scope) name kind
        = 0x2e :: joined 0x2e path ↔
      isAbsolute name = true ∨ w.LeadsTo w.scope name kind path := by
  have hp := w.isPath_of_designates h
  rw [resolveDescriptorTypeName]
  by_cases ha : isAbsolute name = true
  · rw [if_pos ha]
    exact ⟨fun _ => .inl ha, fun _ => w.eq_of_absolute h ha⟩
  · have hscope := isPath_effectiveScope w.wellNamed w.isPath_scope
    have hsame : w.LeadsTo (effectiveScope w.file w.scope) name kind path ↔
        w.LeadsTo w.scope name kind path := by
      rw [LeadsTo, LeadsTo, inRegistry, inRegistry, effectiveScope_twice]
    rw [if_neg ha, w.descriptorScopeName_joined,
      w.getD_resolveInFile (by simpa using ha) hscope hn, w.written_eq_iff hscope hn hp, hsame]
    exact ⟨.inr, fun h => h.resolve_left ha⟩

/-- The written name of an extended message. -/
theorem resolveDescriptorExtendeeName_eq_iff (hn : IsTypeName name)
    (h : w.Designates name path type) :
    resolveDescriptorExtendeeName w.file w.registry (joined 0x2e w.scope) w.field name
        = 0x2e :: joined 0x2e path ↔
      isAbsolute name = true ∨
        if Parser.isCustomOptionExtendee name then components name = path
        else w.LeadsTo w.extensionScope name .message path := by
  have hp := w.isPath_of_designates h
  rw [resolveDescriptorExtendeeName]
  by_cases ha : isAbsolute name = true
  · rw [if_pos ha]
    exact ⟨fun _ => .inl ha, fun _ => w.eq_of_absolute h ha⟩
  · have hright : ∀ p : Prop, isAbsolute name = true ∨ p ↔ p := fun p => by simp [ha]
    rw [if_neg ha, hright]
    by_cases hcustom : Parser.isCustomOptionExtendee name = true
    · rw [if_pos hcustom, if_pos hcustom, ← joined_components, List.cons_inj_right]
      exact ⟨joined_injective hn.isPath hp, fun h => by rw [h]⟩
    · rw [if_neg hcustom, if_neg hcustom, w.descriptorExtensionScope_joined,
        w.getD_resolveInFile (by simpa using ha) w.isPath_extensionScope hn,
        w.written_eq_iff w.isPath_extensionScope hn hp]

/-- The enum that turns a reference into one to an enum. -/
theorem descriptorEnumVisible_isSome_iff (hn : IsTypeName name) :
    (descriptorEnumVisible w.file w.registry (joined 0x2e w.scope) name).isSome = true ↔
      w.PicksEnum name := by
  have hscope := isPath_effectiveScope w.wellNamed w.isPath_scope
  have hregistry : (w.registry.bind (fun registry => registry.findEnumVisible w.file name
      (descriptorScopeName w.file (joined 0x2e w.scope)))).isSome
        = (w.inRegistry w.scope name .enumeration).isSome := by
    rw [inRegistry, registry, w.descriptorScopeName_joined]
    cases w.hasRegistry with
    | false => rfl
    | true =>
        simp only [if_true, Option.bind_some]
        rw [findEnumVisible_isSome w.described w.mem hscope hn, effectiveScope_twice]
  rw [descriptorEnumVisible, Option.isSome_or, hregistry, Bool.or_eq_true, PicksEnum,
    findEnumDeep_file_eq w.wellNamed hn, Option.isSome_iff_ne_none]
  refine or_congr_right ?_
  cases searchesFile w.file name with
  | false => simp
  | true => simp only [if_true, List.find?_isSome, enumBears, beq_iff_eq, true_and]

/-- The number that is written goes with the type if the name is looked up as one of its kind. -/
theorem tellsKind_iff (hname : referencedName w.field.kind = some name) :
    tellsKind w.written.type type = true ↔ w.LooksUp w.field.kind (kindOf type) := by
  have henum := w.descriptorEnumVisible_isSome_iff (w.references name hname)
  rw [written, writeFieldDescriptor]
  cases hkind : w.field.kind with
  | scalar scalar => simp [referencedName, hkind] at hname
  | map key value => simp [referencedName, hkind] at hname
  | group other =>
      cases type <;> simp [descriptorFieldKind, typeNumber, tellsKind, LooksUp, kindOf]
  | enumeration other =>
      cases type <;> simp [descriptorFieldKind, typeNumber, tellsKind, LooksUp, kindOf]
  | message other =>
      obtain rfl : other = name := by simpa [referencedName, hkind] using hname
      by_cases hpicks : w.PicksEnum other
      · have hsome := henum.mpr hpicks
        cases type <;>
          simp [descriptorFieldKind, hsome, typeNumber, tellsKind, LooksUp, kindOf, hpicks]
      · have hnone := Bool.not_eq_true _ ▸ mt henum.mp hpicks
        cases type <;>
          simp [descriptorFieldKind, hnone, typeNumber, tellsKind, LooksUp, kindOf, hpicks]

/-- Then the name is looked up as one of a type of this kind. -/
theorem written_typeName_eq (hname : referencedName w.field.kind = some name)
    (hlooks : w.LooksUp w.field.kind kind) :
    w.written.typeName = some
      (resolveDescriptorTypeName w.file w.registry (joined 0x2e w.scope) name kind) := by
  have henum := w.descriptorEnumVisible_isSome_iff (w.references name hname)
  rw [written, writeFieldDescriptor]
  cases hkind : w.field.kind with
  | scalar scalar => simp [referencedName, hkind] at hname
  | map key value => simp [referencedName, hkind] at hname
  | group other =>
      obtain rfl : other = name := by simpa [referencedName, hkind] using hname
      rw [hkind] at hlooks
      cases kind with
      | message => rfl
      | enumeration => exact absurd hlooks (by simp [LooksUp])
  | enumeration other =>
      obtain rfl : other = name := by simpa [referencedName, hkind] using hname
      rw [hkind] at hlooks
      cases kind with
      | message => exact absurd hlooks (by simp [LooksUp])
      | enumeration => rfl
  | message other =>
      obtain rfl : other = name := by simpa [referencedName, hkind] using hname
      rw [hkind] at hlooks
      cases kind with
      | message =>
          have hnone := Bool.not_eq_true _ ▸ mt henum.mp hlooks
          simp [descriptorFieldKind, hnone]
      | enumeration =>
          have hsome := henum.mpr hlooks
          simp [descriptorFieldKind, hsome]

end

/-- The full names of the designated types are written, with the numbers of their kinds, exactly
when the searches for them lead to them. -/
theorem names_iff : w.NamesRight ↔ w.SearchLeads := by
  rw [NamesRight, SearchLeads]
  refine and_congr ?_ ?_
  · refine forall_congr' (fun name => forall_congr' (fun hname => ?_))
    refine forall_congr' (fun path => forall_congr' (fun type => forall_congr' (fun h => ?_)))
    have hn := w.references name hname
    rw [and_comm, w.tellsKind_iff hname]
    refine and_congr_right (fun hlooks => ?_)
    rw [w.written_typeName_eq hname hlooks, Option.some.injEq]
    exact w.resolveDescriptorTypeName_eq_iff hn h
  · refine forall_congr' (fun name => forall_congr' (fun hname => ?_))
    refine forall_congr' (fun path => forall_congr' (fun type => forall_congr' (fun h => ?_)))
    have hn := w.extendees name hname
    rw [written, writeFieldDescriptor, hname, Option.map_some, Option.some.injEq]
    exact w.resolveDescriptorExtendeeName_eq_iff hn h

end WrittenField

/-! ## A type name that begins with the text of the package -/

def abMessage : MessageDescriptor := { name := ascii "ab", address := 1 }

/-- `optional ab x = 1;` -/
def abField : FieldDescriptor :=
  { name := ascii "x", number := 1, cardinality := .optional, kind := .message (ascii "ab") }

def holderMessage : MessageDescriptor :=
  { name := ascii "M", fields := [abField], address := 2 }

/-- A file of the package `a` with a message `ab`, and a message `M` with a field of this type. -/
def abFile : FileDescriptor :=
  { package := ascii "a", messages := [abMessage, holderMessage] }

theorem abFile_wellNamed : abFile.WellNamed where
  package := by decide
  messages := fun scope message h =>
    (by decide : ∀ pair ∈ abFile.declaredMessages, IsPart 0x2e pair.2.name) (scope, message) h
  nestedEnums := fun scope message h =>
    (by decide : ∀ pair ∈ abFile.declaredMessages, ∀ e ∈ pair.2.enums, IsPart 0x2e e.name)
      (scope, message) h
  enums := by decide

theorem described_abFile : Described { files := [abFile] } where
  wellNamed := by
    intro file hf
    rw [List.mem_singleton.mp hf]
    exact abFile_wellNamed
  distinct := by
    rw [DistinctNames]
    decide
  pointers := by
    rw [PointersToOne]
    decide

def abWritten (hasRegistry : Bool) : WrittenField where
  files := { files := [abFile] }
  file := abFile
  around := [ascii "M"]
  entry := []
  field := abField
  hasRegistry := hasRegistry
  described := described_abFile
  mem := List.mem_singleton_self _
  writtenAt := .inside (List.mem_cons_of_mem _ List.mem_cons_self) (.field List.mem_cons_self)
  fieldNames := by decide
  references := by
    intro name h
    rw [← Option.some.inj h]
    decide
  extendees := by
    intro name h
    cases h
  fullNames := by
    intro name h
    cases h

/-- `ab` in `M` designates `a.ab`. -/
theorem designates_ab (hasRegistry : Bool) :
    (abWritten hasRegistry).Designates (ascii "ab") [ascii "a", ascii "ab"]
      (.message abMessage) := by
  have hnames : namesInScope [ascii "a", ascii "M"] (ascii "ab")
      = [[ascii "a", ascii "M", ascii "ab"]]
          ++ [ascii "a", ascii "ab"] :: [[ascii "ab"]] := by decide
  refine ⟨⟨_, _, hnames, ?_, ?_⟩, .inr List.mem_cons_self⟩
  · exact List.mem_cons_self
  · rintro other hother ⟨type, hmem⟩
    rw [List.mem_singleton.mp hother] at hmem
    have hpath := List.mem_map_of_mem (f := Prod.fst) hmem
    revert hpath
    exact (by decide : ¬ [ascii "a", ascii "M", ascii "ab"]
      ∈ (typesOf (Registry.visibleFrom { files := [abFile] } abFile)).map Prod.fst)

/-- It is written as `.ab`, with the registry and without it. -/
theorem exists_names_wrong :
    ¬ (abWritten true).NamesRight ∧ ¬ (abWritten false).NamesRight := by
  have hwrong : ∀ hasRegistry, ¬ (abWritten hasRegistry).NamesRight := by
    intro hasRegistry hright
    have hname := (hright.1 (ascii "ab") rfl _ _ (designates_ab hasRegistry)).1
    revert hname
    cases hasRegistry <;> decide
  exact ⟨hwrong true, hwrong false⟩

end Descriptor

end Pbz
