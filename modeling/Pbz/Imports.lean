import Mathlib.Logic.Relation
import Pbz.Registry

set_option autoImplicit false

/-! # Chains of imports

What the searches for a chain of imports find: an import that leads to the target, followed by
public imports only.
-/

namespace Pbz

namespace Registry

variable {registry : Registry} {target source : FileDescriptor} {n m : Nat} {skip : Import → Bool}

/-- The loop that `importChain` and `publicImportChainFrom` share. -/
def chainThrough (registry : Registry) (target : FileDescriptor) (skip : Import → Bool) (n : Nat)
    (source : FileDescriptor) : Option (List Bytes) :=
  (source.imports.findSome? fun entry =>
    if skip entry then none
    else match registry.findFile entry.path with
      | none => none
      | some imported =>
          if sameFile imported target then some (some [entry.path])
          else (registry.publicImportChainFrom target n imported).map
            (prependImportPath entry.path)).join

def notPublic (entry : Import) : Bool := entry.kind != .public

def isOptionImport (entry : Import) : Bool := entry.kind == .option

theorem publicImportChainFrom_succ :
    registry.publicImportChainFrom target (n + 1) source
      = registry.chainThrough target notPublic n source := rfl

theorem importChain_eq :
    registry.importChain source target
      = if sameFile source target then some []
        else registry.chainThrough target isOptionImport (maxImportChainDepth - 1) source := rfl

/-- Some import of `source` that is not skipped leads to the target, by public imports behind it. -/
def Leads (registry : Registry) (target : FileDescriptor) (skip : Import → Bool) (n : Nat)
    (source : FileDescriptor) : Prop :=
  ∃ entry ∈ source.imports, skip entry = false ∧
    ∃ imported, registry.findFile entry.path = some imported ∧
      (sameFile imported target = true ∨
        (registry.publicImportChainFrom target n imported).isSome = true)

/-- An entry of the loop either does not lead to the target or gives the chain. -/
theorem chainThrough_eq_some {chain : List Bytes}
    (h : registry.chainThrough target skip n source = some chain) :
    ∃ entry ∈ source.imports, skip entry = false ∧
      ∃ imported, registry.findFile entry.path = some imported ∧
        ((sameFile imported target = true ∧ chain = [entry.path]) ∨
          ∃ tail, registry.publicImportChainFrom target n imported = some tail ∧
            chain = entry.path :: tail) := by
  obtain ⟨entry, hmem, hentry⟩ := List.exists_of_findSome?_eq_some (Option.join_eq_some_iff.mp h)
  cases hskip : skip entry with
  | true => simp [hskip] at hentry
  | false =>
      cases hfound : registry.findFile entry.path with
      | none => simp [hskip, hfound] at hentry
      | some imported =>
          refine ⟨entry, hmem, hskip, imported, hfound, ?_⟩
          simp only [hskip, hfound, Bool.false_eq_true, if_false] at hentry
          split at hentry
          case isTrue hsame => exact .inl ⟨hsame, by simpa using hentry.symm⟩
          case isFalse =>
            obtain ⟨tail, htail, hchain⟩ := Option.map_eq_some_iff.mp hentry
            unfold prependImportPath at hchain
            split at hchain
            · cases hchain
            · exact .inr ⟨tail, htail, by simpa using hchain.symm⟩

theorem length_publicImportChainFrom {chain : List Bytes}
    (h : registry.publicImportChainFrom target n source = some chain) : chain.length ≤ n := by
  induction n generalizing source chain with
  | zero => cases h
  | succ n ih =>
      rw [publicImportChainFrom_succ] at h
      obtain ⟨entry, -, -, imported, -, ⟨-, rfl⟩ | ⟨tail, htail, rfl⟩⟩ := chainThrough_eq_some h
      · simp
      · simpa using ih htail

/-- A chain that short has room for one more path. -/
theorem prependImportPath_of_length {path : Bytes} {chain : List Bytes} (hn : n < maxImportChainDepth)
    (h : chain.length ≤ n) : prependImportPath path chain = some (path :: chain) := by
  unfold prependImportPath
  rw [if_neg (by omega)]

theorem chainThrough_isSome_iff (hn : n < maxImportChainDepth) :
    (registry.chainThrough target skip n source).isSome = true ↔
      registry.Leads target skip n source := by
  unfold chainThrough
  constructor
  · intro h
    obtain ⟨chain, hchain⟩ := Option.isSome_iff_exists.mp h
    obtain ⟨entry, hmem, hentry⟩ :=
      List.exists_of_findSome?_eq_some (Option.join_eq_some_iff.mp hchain)
    cases hskip : skip entry with
    | true => simp [hskip] at hentry
    | false =>
        cases hfound : registry.findFile entry.path with
        | none => simp [hskip, hfound] at hentry
        | some imported =>
            refine ⟨entry, hmem, hskip, imported, hfound, ?_⟩
            cases hsame : sameFile imported target with
            | true => exact .inl rfl
            | false =>
                simp only [hskip, hfound, hsame, Bool.false_eq_true, if_false] at hentry
                obtain ⟨tail, htail, -⟩ := Option.map_eq_some_iff.mp hentry
                exact .inr (Option.isSome_iff_exists.mpr ⟨tail, htail⟩)
  · rintro ⟨entry, hmem, hskip, imported, hfound, hleads⟩
    cases hfirst : source.imports.findSome? _ with
    | none =>
        have hnone := List.findSome?_eq_none_iff.mp hfirst entry hmem
        simp only [hskip, hfound, Bool.false_eq_true, if_false] at hnone
        rcases hleads with hsame | hreach
        · simp [hsame] at hnone
        · obtain ⟨tail, htail⟩ := Option.isSome_iff_exists.mp hreach
          split at hnone <;> simp [htail] at hnone
    | some result =>
        obtain ⟨first, -, hgives⟩ := List.exists_of_findSome?_eq_some hfirst
        -- no entry gives `some none`, as the chain behind it is short enough
        cases result with
        | some chain => rfl
        | none =>
            split at hgives
            · cases hgives
            · cases hfirstFound : registry.findFile first.path with
              | none => simp [hfirstFound] at hgives
              | some imported =>
                  simp only [hfirstFound] at hgives
                  split at hgives
                  · cases hgives
                  · obtain ⟨tail, htail, hpath⟩ := Option.map_eq_some_iff.mp hgives
                    rw [prependImportPath_of_length hn (length_publicImportChainFrom htail)] at hpath
                    cases hpath

theorem publicImportChainFrom_isSome_iff (hn : n < maxImportChainDepth) :
    (registry.publicImportChainFrom target (n + 1) source).isSome = true ↔
      registry.Leads target notPublic n source := by
  rw [publicImportChainFrom_succ]
  exact chainThrough_isSome_iff hn

theorem fileCanSee_iff : registry.fileCanSee source target = true ↔
    sameFile source target = true ∨
      registry.Leads target isOptionImport (maxImportChainDepth - 1) source := by
  unfold fileCanSee
  rw [importChain_eq]
  cases hsame : sameFile source target with
  | true => simp
  | false => simp [chainThrough_isSome_iff (show maxImportChainDepth - 1 < maxImportChainDepth by decide)]

/-- More steps reach no less. -/
theorem publicImportChainFrom_mono (hnm : n ≤ m) (hm : m ≤ maxImportChainDepth)
    (h : (registry.publicImportChainFrom target n source).isSome = true) :
    (registry.publicImportChainFrom target m source).isSome = true := by
  induction n generalizing m source with
  | zero => cases h
  | succ n ih =>
      obtain ⟨m, rfl⟩ : ∃ k, m = k + 1 := ⟨m - 1, by omega⟩
      rw [publicImportChainFrom_isSome_iff (by omega)] at h ⊢
      obtain ⟨entry, hmem, hskip, imported, hfound, hleads⟩ := h
      exact ⟨entry, hmem, hskip, imported, hfound, hleads.imp_right (ih (by omega) (by omega))⟩

theorem leads_of_publicImportChainFrom (hn : n < maxImportChainDepth)
    (h : (registry.publicImportChainFrom target n source).isSome = true) :
    registry.Leads target isOptionImport (maxImportChainDepth - 1) source := by
  cases n with
  | zero => cases h
  | succ n =>
      rw [publicImportChainFrom_isSome_iff (by omega)] at h
      obtain ⟨entry, hmem, hskip, imported, hfound, hleads⟩ := h
      have hkind : isOptionImport entry = false := by
        have hpublic : entry.kind = .public := by simpa [notPublic] using hskip
        rw [isOptionImport, hpublic]
        rfl
      exact ⟨entry, hmem, hkind, imported, hfound,
        hleads.imp_right (publicImportChainFrom_mono (by omega) (by decide))⟩

end Registry

/-! ## Acyclic imports -/

open Relation

/-- One of the files has the first name and imports the second. -/
def ImportsPath (files : List FileDescriptor) (name path : Bytes) : Prop :=
  ∃ file ∈ files, file.name = name ∧ ∃ entry ∈ file.imports, entry.path = path

def AcyclicImports (files : List FileDescriptor) : Prop :=
  ∀ name, ¬ TransGen (ImportsPath files) name name

/-- Where an import of a file leads, its name reaches the name of the target. -/
theorem Registry.Leads.transGen {registry : Registry} {target source : FileDescriptor} {n : Nat}
    {skip : Import → Bool} {files : List FileDescriptor} (hfiles : registry.files ⊆ files)
    (hnames : ∀ file ∈ registry.files, sameFile file target = true → file.name = target.name)
    (hn : n < maxImportChainDepth) (hsource : source ∈ files)
    (h : registry.Leads target skip n source) :
    TransGen (ImportsPath files) source.name target.name := by
  induction n generalizing source skip with
  | zero =>
      obtain ⟨entry, hentry, -, imported, hfound, hsame | hreach⟩ := h
      · have hpath : imported.name = entry.path := by
          simpa using List.find?_some hfound
        refine .single ⟨source, hsource, rfl, entry, hentry, ?_⟩
        rw [← hnames imported (List.mem_of_find?_eq_some hfound) hsame, hpath]
      · cases hreach
  | succ n ih =>
      obtain ⟨entry, hentry, -, imported, hfound, hleads⟩ := h
      have himported : imported ∈ registry.files := List.mem_of_find?_eq_some hfound
      have hpath : imported.name = entry.path := by
        simpa using List.find?_some hfound
      have hstep : ImportsPath files source.name imported.name :=
        ⟨source, hsource, rfl, entry, hentry, hpath.symm⟩
      rcases hleads with hsame | hreach
      · rw [← hnames imported himported hsame]
        exact .single hstep
      · rw [Registry.publicImportChainFrom_isSome_iff (by omega)] at hreach
        exact .head hstep (ih (by omega) (hfiles himported) hreach)

end Pbz
