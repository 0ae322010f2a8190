import Pbz.Imports

set_option autoImplicit false

/-! # What a file sees

A file sees itself, the files it imports other than by an option import, and what these import
publicly. `importChain` finds the paths of such imports, as far as there are at most
`max_import_chain_depth` of them.
-/

namespace Pbz

namespace Registry

/-- The files have different names; they are different objects. -/
structure DistinctFiles (registry : Registry) : Prop where
  names : (registry.files.map FileDescriptor.name).Nodup
  addresses : (registry.files.map FileDescriptor.address).Nodup

/-- An import of `source`, other than those that are skipped, of a file of the registry. -/
structure ImportsFile (registry : Registry) (skip : Import → Bool) (source : FileDescriptor)
    (path : Bytes) (imported : FileDescriptor) : Prop where
  loaded : imported ∈ registry.files
  name : imported.name = path
  entry : ∃ entry ∈ source.imports, skip entry = false ∧ entry.path = path

/-- The paths of public imports in a row that lead from one file to another. -/
inductive PublicImports (registry : Registry) : FileDescriptor → List Bytes → FileDescriptor → Prop
  | nil (file : FileDescriptor) : PublicImports registry file [] file
  | cons {source imported target : FileDescriptor} {path : Bytes} {paths : List Bytes}
      (himport : ImportsFile registry notPublic source path imported)
      (hrest : PublicImports registry imported paths target) :
      PublicImports registry source (path :: paths) target

/-- The paths by which one file sees another: none for itself, else that of an import other than an
option import and those of public imports behind it. -/
inductive SeesBy (registry : Registry) : FileDescriptor → List Bytes → FileDescriptor → Prop
  | itself (file : FileDescriptor) : SeesBy registry file [] file
  | imports {source imported target : FileDescriptor} {path : Bytes} {paths : List Bytes}
      (himport : ImportsFile registry isOptionImport source path imported)
      (hrest : PublicImports registry imported paths target) :
      SeesBy registry source (path :: paths) target

variable {registry : Registry} {source target imported : FileDescriptor} {path : Bytes}
  {paths : List Bytes} {skip : Import → Bool} {n : Nat}

namespace DistinctFiles

theorem sameFile_iff (h : registry.DistinctFiles) (hsource : source ∈ registry.files)
    (htarget : target ∈ registry.files) : sameFile source target = true ↔ source = target := by
  constructor
  · intro hsame
    simp only [sameFile, Bool.or_eq_true, Bool.and_eq_true, beq_iff_eq] at hsame
    rcases hsame with haddress | ⟨-, hname⟩
    · exact List.inj_on_of_nodup_map h.addresses hsource htarget haddress
    · exact List.inj_on_of_nodup_map h.names hsource htarget hname
  · rintro rfl
    simp [sameFile]

theorem findFile_eq_some_iff (h : registry.DistinctFiles) :
    registry.findFile path = some imported ↔ imported ∈ registry.files ∧ imported.name = path := by
  constructor
  · intro hfound
    have hname := List.find?_some hfound
    exact ⟨List.mem_of_find?_eq_some hfound, by simpa using hname⟩
  · rintro ⟨hmem, rfl⟩
    cases hfound : registry.findFile imported.name with
    | none =>
        have hnone := List.find?_eq_none.mp hfound imported hmem
        simp at hnone
    | some other =>
        have hname : other.name = imported.name := by simpa using List.find?_some hfound
        rw [List.inj_on_of_nodup_map h.names (List.mem_of_find?_eq_some hfound) hmem hname]

/-- What the loop of the two searches finds: an import that is not skipped, and the rest of the
chain behind it. -/
theorem of_chainThrough (h : registry.DistinctFiles) (htarget : target ∈ registry.files)
    (hchain : registry.chainThrough target skip n source = some paths) :
    ∃ path rest imported, paths = path :: rest ∧ ImportsFile registry skip source path imported ∧
      (rest = [] ∧ imported = target ∨
        registry.publicImportChainFrom target n imported = some rest) := by
  obtain ⟨entry, hmem, hskip, imported, hfound, hrest⟩ := chainThrough_eq_some hchain
  obtain ⟨hloaded, hname⟩ := h.findFile_eq_some_iff.mp hfound
  have himport : ImportsFile registry skip source entry.path imported :=
    ⟨hloaded, hname, entry, hmem, hskip, rfl⟩
  rcases hrest with ⟨hsame, rfl⟩ | ⟨tail, htail, rfl⟩
  · exact ⟨_, _, imported, rfl, himport, .inl ⟨rfl, (h.sameFile_iff hloaded htarget).mp hsame⟩⟩
  · exact ⟨_, _, imported, rfl, himport, .inr htail⟩

theorem publicImports_of_chain (h : registry.DistinctFiles) (htarget : target ∈ registry.files)
    (hchain : registry.publicImportChainFrom target n source = some paths) :
    PublicImports registry source paths target := by
  induction n generalizing source paths with
  | zero => cases hchain
  | succ n ih =>
      rw [publicImportChainFrom_succ] at hchain
      obtain ⟨path, rest, imported, rfl, himport, ⟨rfl, rfl⟩ | hrest⟩ :=
        h.of_chainThrough htarget hchain
      · exact .cons himport (.nil _)
      · exact .cons himport (ih hrest)

/-- An import that is not skipped and public imports behind it make the loop find a chain. -/
theorem leads (h : registry.DistinctFiles) (himport : ImportsFile registry skip source path imported)
    (hrest : imported = target ∨
      (registry.publicImportChainFrom target n imported).isSome = true) :
    registry.Leads target skip n source := by
  obtain ⟨entry, hmem, hskip, rfl⟩ := himport.entry
  refine ⟨entry, hmem, hskip, imported,
    h.findFile_eq_some_iff.mpr ⟨himport.loaded, himport.name⟩, hrest.imp_left ?_⟩
  rintro rfl
  exact (h.sameFile_iff himport.loaded himport.loaded).mpr rfl

theorem chain_of_publicImports (h : registry.DistinctFiles)
    (hpublic : PublicImports registry source paths target) (hlength : paths.length ≤ n)
    (hn : n ≤ maxImportChainDepth) :
    source = target ∨ (registry.publicImportChainFrom target n source).isSome = true := by
  induction hpublic generalizing n with
  | nil => exact .inl rfl
  | cons himport _ ih =>
      obtain ⟨n, rfl⟩ : ∃ k, n = k + 1 := ⟨n - 1, by simp at hlength; omega⟩
      rw [publicImportChainFrom_isSome_iff (by omega)]
      exact .inr (h.leads himport (ih (by simpa using hlength) (by omega)))

end DistinctFiles

theorem length_chainThrough (h : registry.chainThrough target skip n source = some paths) :
    paths.length ≤ n + 1 := by
  obtain ⟨entry, -, -, imported, -, ⟨-, rfl⟩ | ⟨tail, htail, rfl⟩⟩ := chainThrough_eq_some h
  · simp
  · simpa using length_publicImportChainFrom htail

/-- `importChain` gives the paths by which a file sees another if they are 32 or fewer, and gives
nothing if there are no such paths; `fileCanSee` says whether there are. -/
theorem importChain_exact (h : registry.DistinctFiles) (hsource : source ∈ registry.files)
    (htarget : target ∈ registry.files) :
    (∀ paths, registry.importChain source target = some paths →
      SeesBy registry source paths target ∧ paths.length ≤ maxImportChainDepth) ∧
    ((registry.importChain source target).isSome = true ↔
      ∃ paths, SeesBy registry source paths target ∧ paths.length ≤ maxImportChainDepth) ∧
    registry.fileCanSee source target = (registry.importChain source target).isSome := by
  have hsound : ∀ paths, registry.importChain source target = some paths →
      SeesBy registry source paths target ∧ paths.length ≤ maxImportChainDepth := by
    intro paths hchain
    rw [importChain_eq] at hchain
    by_cases hsame : sameFile source target = true
    · rw [if_pos hsame] at hchain
      obtain rfl := (h.sameFile_iff hsource htarget).mp hsame
      obtain rfl : [] = paths := by simpa using hchain
      exact ⟨.itself _, by simp⟩
    · rw [if_neg hsame] at hchain
      have hlength := length_chainThrough hchain
      refine ⟨?_, hlength.trans (by decide)⟩
      obtain ⟨path, rest, imported, rfl, himport, ⟨rfl, rfl⟩ | hrest⟩ :=
        h.of_chainThrough htarget hchain
      · exact .imports himport (.nil _)
      · exact .imports himport (h.publicImports_of_chain htarget hrest)
  have hcomplete : (∃ paths, SeesBy registry source paths target ∧
      paths.length ≤ maxImportChainDepth) →
      (registry.importChain source target).isSome = true := by
    rintro ⟨paths, hsees, hlength⟩
    rw [importChain_eq]
    by_cases hsame : sameFile source target = true
    · rw [if_pos hsame]
      rfl
    · rw [if_neg hsame, chainThrough_isSome_iff (by decide)]
      cases hsees with
      | itself => exact absurd (by simp [sameFile]) hsame
      | imports himport hrest =>
          refine h.leads himport (h.chain_of_publicImports hrest ?_ (by decide))
          simp only [List.length_cons] at hlength
          omega
  refine ⟨hsound, ⟨fun hsome => ?_, hcomplete⟩, ?_⟩
  · obtain ⟨paths, hpaths⟩ := Option.isSome_iff_exists.mp hsome
    exact ⟨paths, hsound paths hpaths⟩
  · unfold fileCanSee
    cases hsame : sameFile source target with
    | true => simp [importChain_eq, hsame]
    | false => rfl

/-- A file that imports another one. -/
def importingFile (address : Nat) (name path : Bytes) (kind : ImportKind) : FileDescriptor :=
  { name := name, imports := [{ path := path, kind := kind }], address := address }

/-- Three files that import each other in a ring. -/
def ring : Registry where
  files :=
    [importingFile 0 (ascii "a") (ascii "b") .normal,
     importingFile 1 (ascii "b") (ascii "c") .public,
     importingFile 2 (ascii "c") (ascii "a") .public]

theorem importChain_exact_ring :
    (∃ paths, SeesBy ring (importingFile 0 (ascii "a") (ascii "b") .normal) paths
      (importingFile 2 (ascii "c") (ascii "a") .public) ∧ paths.length ≤ maxImportChainDepth) ∧
    ¬ ∃ paths, SeesBy ring (importingFile 2 (ascii "c") (ascii "a") .public) paths
      (importingFile 1 (ascii "b") (ascii "c") .public) ∧ paths.length ≤ maxImportChainDepth := by
  have hring : ring.DistinctFiles := ⟨by decide, by decide⟩
  have hexact := fun source target => @importChain_exact ring source target hring
  constructor
  · exact ((hexact _ _ (by simp [ring]) (by simp [ring])).2.1).mp (by decide)
  · rw [← (hexact _ _ (by simp [ring]) (by simp [ring])).2.1]
    decide

end Registry

end Pbz
