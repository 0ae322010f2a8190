import Pbz.AddFile
import Pbz.TypeLookup

set_option autoImplicit false

/-! # The symbols of the loaded files

`addFile` compares the texts of the full names. Here they are paths: the full names of the types
stand among the symbols of a file, so no two types of a registry have the same one.
-/

namespace Pbz

open Dotted

namespace Registry

variable {scope : List Bytes}

theorem normalizeName_part {name : Bytes} (h : IsPart 0x2e name) : normalizeName name = name := by
  have hnormal := normalizeName_joined h.isPath
  rwa [joined_singleton] at hnormal

/-- The full name of what is declared under a simple name. -/
theorem qualifiedSymbolName_joined (hs : IsPath 0x2e scope) {name : Bytes} (hn : IsPart 0x2e name) :
    qualifiedSymbolName (joined 0x2e scope) name = joined 0x2e (scope ++ [name]) := by
  have hdot : name.contains 0x2e = false := by
    rw [← Bool.not_eq_true, List.contains_iff_mem]
    exact hn.2
  unfold qualifiedSymbolName qualifiedTypeName
  rw [normalizeName_part hn, hdot, Bool.or_false]
  by_cases hempty : scope = []
  · rw [hempty, joined_nil, if_pos List.isEmpty_nil, List.nil_append, joined_singleton]
  · have hne : ¬ (joined 0x2e scope).isEmpty = true := by
      rw [List.isEmpty_iff]
      exact joined_ne_nil hs hempty
    rw [if_neg hne, if_neg hne, joined_append hempty (List.cons_ne_nil _ _), joined_singleton]

theorem isPath_concat (hs : IsPath 0x2e scope) {name : Bytes} (hn : IsPart 0x2e name) :
    IsPath 0x2e (scope ++ [name]) :=
  hs.append (fun _ hpart => List.mem_singleton.mp hpart ▸ hn)

/-- The full names of some types, as texts. -/
def typeNames (types : List (List Bytes × TypeRef)) : List Bytes :=
  types.map (fun pair => joined 0x2e pair.1)

theorem typeNames_enumTypes (hs : IsPath 0x2e scope) {enums : List EnumDescriptor}
    (he : ∀ enumeration ∈ enums, IsPart 0x2e enumeration.name) :
    (typeNames (enumTypes scope enums)).Sublist
      (enums.flatMap (enumSymbols (joined 0x2e scope))) := by
  induction enums with
  | nil => exact .slnil
  | cons enumeration rest ih =>
      have hfirst := qualifiedSymbolName_joined hs (he enumeration List.mem_cons_self)
      have hrest := ih (fun other hother => he other (List.mem_cons_of_mem _ hother))
      rw [List.flatMap_cons, enumSymbols, hfirst, List.cons_append]
      exact (hrest.trans (List.sublist_append_right _ _)).cons_cons _

/-- The messages below a scope and the enums in them have simple names. -/
def NamedBelow (scope : List Bytes) (messages : List MessageDescriptor) : Prop :=
  ∀ pair ∈ declaredMessages scope messages, IsPart 0x2e pair.2.name ∧
    ∀ enumeration ∈ pair.2.enums, IsPart 0x2e enumeration.name

mutual

theorem typeNames_declaredTypes (scope : List Bytes) (hs : IsPath 0x2e scope) :
    (messages : List MessageDescriptor) → NamedBelow scope messages →
      (typeNames (declaredTypes scope messages)).Sublist
        (messagesSymbols (joined 0x2e scope) messages)
  | [], _ => .slnil
  | message :: rest, h => by
      rw [NamedBelow, declaredMessages, List.forall_mem_cons, List.forall_mem_append] at h
      obtain ⟨⟨hname, henums⟩, hnested, hrest⟩ := h
      have hmessage := typeNames_nestedTypes scope hs message hname henums hnested
      rw [declaredTypes, messagesSymbols, typeNames, List.map_cons, List.map_append,
        ← List.cons_append]
      exact hmessage.append (typeNames_declaredTypes scope hs rest hrest)

/-- A message and the types in it stand among its symbols. -/
theorem typeNames_nestedTypes (scope : List Bytes) (hs : IsPath 0x2e scope) :
    (message : MessageDescriptor) → IsPart 0x2e message.name →
    (∀ enumeration ∈ message.enums, IsPart 0x2e enumeration.name) →
    (∀ pair ∈ message.nestedMessages (scope ++ [message.name]), IsPart 0x2e pair.2.name ∧
      ∀ enumeration ∈ pair.2.enums, IsPart 0x2e enumeration.name) →
      (joined 0x2e (scope ++ [message.name])
        :: typeNames (message.nestedTypes (scope ++ [message.name]))).Sublist
          (messageSymbols (joined 0x2e scope) message)
  | { name, messages, enums, .. }, hname, henums, hnested => by
      have hpath := isPath_concat hs hname
      have hbelow := typeNames_declaredTypes _ hpath messages hnested
      have hbeside := typeNames_enumTypes hpath henums
      rw [messageSymbols, MessageDescriptor.nestedTypes, typeNames, List.map_append]
      dsimp only at hname hpath hbelow hbeside ⊢
      rw [qualifiedSymbolName_joined hs hname]
      refine List.Sublist.cons_cons _ ?_
      refine (hbelow.append hbeside).trans ?_
      rw [← List.append_assoc, ← List.append_assoc, ← List.append_assoc, List.append_assoc]
      exact List.sublist_append_right _ _

end

theorem joined_packagePath (file : FileDescriptor) : joined 0x2e file.packagePath = file.package := by
  by_cases hempty : file.package.isEmpty = true
  · rw [FileDescriptor.packagePath, if_pos hempty, joined_nil, List.isEmpty_iff.mp hempty]
  · exact (packagePath_eq (by simpa using hempty)).2

/-- The types of a file stand among its symbols. -/
theorem typeNames_file {file : FileDescriptor} (hf : file.WellNamed) :
    (typeNames file.declaredTypes).Sublist (fileSymbols file) := by
  have hbelow : NamedBelow file.packagePath file.messages := fun pair hpair =>
    ⟨hf.messages pair.1 pair.2 hpair, hf.nestedEnums pair.1 pair.2 hpair⟩
  have hmessages := typeNames_declaredTypes _ hf.package file.messages hbelow
  have henums := typeNames_enumTypes hf.package hf.enums
  rw [joined_packagePath] at hmessages henums
  rw [FileDescriptor.declaredTypes, fileSymbols, typeNames, List.map_append]
  exact hmessages.append (henums.trans (List.sublist_append_left _ _))

theorem typeNames_files (files : List FileDescriptor) (hf : ∀ file ∈ files, file.WellNamed) :
    (typeNames (typesOf files)).Sublist (files.flatMap fileSymbols) := by
  induction files with
  | nil => exact .slnil
  | cons file rest ih =>
      rw [typesOf, typeNames, List.flatMap_cons, List.flatMap_cons, List.map_append]
      exact (typeNames_file (hf file List.mem_cons_self)).append
        (ih (fun other hother => hf other (List.mem_cons_of_mem _ hother)))

/-- Types of files without a common symbol have different full names. -/
theorem distinctNames_of_nodup {registry : Registry} (hr : ∀ file ∈ registry.files, file.WellNamed)
    (h : registry.loadedSymbols.Nodup) : DistinctNames (typesOf registry.files) := by
  have hnodup : (typeNames (typesOf registry.files)).Nodup :=
    h.sublist (typeNames_files registry.files hr)
  have hnames : typeNames (typesOf registry.files)
      = ((typesOf registry.files).map Prod.fst).map (joined 0x2e) := by
    rw [List.map_map]
    rfl
  rw [hnames] at hnodup
  exact hnodup.of_map

end Registry

end Pbz
