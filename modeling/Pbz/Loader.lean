import Pbz.Lib.PostOrder
import Pbz.Parser.Declarations
import Pbz.Parser.Outcome

set_option autoImplicit false

/-! # The loader

`loadMemory` of `loader.zig` reads a file and the files it imports, depth first. What the registry
does with the files in the end is a parameter: it can only make the load fail.
-/

namespace Pbz

open Relation PostOrder

/-- The sources by path; of two entries for one path the first counts. -/
structure MemorySourceTree where
  files : List (Bytes × Bytes) := []

namespace MemorySourceTree

def get (tree : MemorySourceTree) (path : Bytes) : Option Bytes := tree.files.lookup path

def paths (tree : MemorySourceTree) : List Bytes := tree.files.map Prod.fst

end MemorySourceTree

inductive LoadError (ε : Type) where
  | fileNotFound
  | importCycle
  | parse (stop : Stop)
  | registry (e : ε)
  | fuel
  deriving DecidableEq

/-- The part of the load that its steps change: the files in the result and the set `loaded`. -/
structure LoadResult where
  files : List FileDescriptor := []
  loaded : List Bytes := []

namespace Loader

variable {ε : Type}

/-- The loop over the imports of a file. What a failing import has loaded so far stays. -/
def loadImports (load : Bytes → LoadResult → LoadResult × Except (LoadError ε) Unit) :
    List Import → List Bytes → LoadResult → LoadResult × Except (LoadError ε) (List Bytes)
  | [], missing, result => (result, .ok missing)
  | item :: rest, missing, result =>
      match load item.path result with
      | (result, .ok ()) => loadImports load rest missing result
      | (result, .error .fileNotFound) =>
          if item.kind == .weak then loadImports load rest (missing ++ [item.path]) result
          else (result, .error .fileNotFound)
      | (result, .error e) => (result, .error e)

variable [FloatConversions]

/-- `loading` are the paths of the calls that this one is part of: each call takes its own path
out of the set again. -/
def loadOne (tree : MemorySourceTree) :
    Nat → List Bytes → Bytes → LoadResult → LoadResult × Except (LoadError ε) Unit
  | 0, _, _, result => (result, .error .fuel)
  | rounds + 1, loading, path, result =>
      if result.loaded.contains path then (result, .ok ())
      else if loading.contains path then (result, .error .importCycle)
      else
        match tree.get path with
        | none => (result, .error .fileNotFound)
        | some source =>
            match Parser.parse source with
            | .error stop => (result, .error (.parse stop))
            | .ok file =>
                match loadImports (loadOne tree rounds (path :: loading)) file.imports [] result with
                | (result, .error e) => (result, .error e)
                | (result, .ok missing) =>
                    ({ files := result.files ++
                        [{ file with name := path, missingWeakImports := missing }],
                       loaded := path :: result.loaded }, .ok ())

/-- The files that `loadMemory` hands to the registry. There are no more calls in one another than
the tree has paths, but for the last one. -/
def loadFiles (tree : MemorySourceTree) (rootPath : Bytes) :
    Except (LoadError ε) (List FileDescriptor) :=
  match loadOne tree (tree.paths.length + 1) [] rootPath {} with
  | (_, .error e) => .error e
  | (result, .ok ()) => .ok result.files

/-- `register` adds the files to the registry and validates their references. -/
def loadMemory (register : List FileDescriptor → Except ε Unit) (tree : MemorySourceTree)
    (rootPath : Bytes) : Except (LoadError ε) (List FileDescriptor) := do
  let files ← loadFiles tree rootPath
  (register files).mapError LoadError.registry
  return files

end Loader

/-! ## The import graph -/

namespace MemorySourceTree

variable [FloatConversions]

/-- The file at a path, if it has a source that the parser accepts. -/
def fileAt (tree : MemorySourceTree) (path : Bytes) : Option FileDescriptor :=
  (tree.get path).bind (fun source => (Parser.parse source).toOption)

/-- The file at `path` imports `other`. -/
def Imports (tree : MemorySourceTree) (path other : Bytes) : Prop :=
  ∃ file, tree.fileAt path = some file ∧ ∃ item ∈ file.imports, item.path = other

/-- `other` is reached from `path` through imports. -/
def Reaches (tree : MemorySourceTree) : Bytes → Bytes → Prop := ReflTransGen tree.Imports

/-- There is no source at the path, or the file there leads to such a path through imports that
are not weak. -/
inductive LacksFile (tree : MemorySourceTree) : Bytes → Prop where
  | missing {path : Bytes} (h : tree.get path = none) : LacksFile tree path
  | imports {path : Bytes} {file : FileDescriptor} {item : Import}
      (hfile : tree.fileAt path = some file) (hitem : item ∈ file.imports)
      (hkind : item.kind ≠ .weak) (h : LacksFile tree item.path) : LacksFile tree path

/-- A file that is reached imports a missing file, and not weakly. -/
def StrongMissing (tree : MemorySourceTree) (root : Bytes) : Prop :=
  ∃ path file item, tree.Reaches root path ∧ tree.fileAt path = some file ∧
    item ∈ file.imports ∧ item.kind ≠ .weak ∧ tree.get item.path = none

/-- A path that is reached lies on a cycle of imports. -/
def HasCycle (tree : MemorySourceTree) (root : Bytes) : Prop :=
  ∃ path, tree.Reaches root path ∧ TransGen tree.Imports path path

/-- A weak import that is reached and has a source does not lack a file. -/
def WeakImportsComplete (tree : MemorySourceTree) (root : Bytes) : Prop :=
  ∀ path file item, tree.Reaches root path → tree.fileAt path = some file →
    item ∈ file.imports → item.kind = .weak → tree.LacksFile item.path →
      tree.get item.path = none

end MemorySourceTree

namespace Loader

open MemorySourceTree

variable [FloatConversions] {ε : Type} {tree : MemorySourceTree} {files : List FileDescriptor}
  {path : Bytes} {file : FileDescriptor} {item : Import}

/-! ## What has been loaded -/

def names (files : List FileDescriptor) : List Bytes := files.map (·.name)

/-- The entry of a file behind the entries of the files in front of it. -/
def entry (files : List FileDescriptor) (path : Bytes) (file : FileDescriptor) : FileDescriptor :=
  { file with
    name := path
    missingWeakImports :=
      (file.imports.filter (fun item => !(names files).contains item.path)).map (·.path) }

/-- Each entry stands behind those of the imports of its file, but for weak imports that lack a
file. -/
inductive Loaded (tree : MemorySourceTree) : List FileDescriptor → Prop where
  | nil : Loaded tree []
  | file {files : List FileDescriptor} {path : Bytes} {file : FileDescriptor}
      (h : Loaded tree files) (hfile : tree.fileAt path = some file) (hnew : path ∉ names files)
      (himports : ∀ item ∈ file.imports,
        item.path ∈ names files ∨ item.kind = .weak ∧ tree.LacksFile item.path) :
      Loaded tree (files ++ [entry files path file])

omit [FloatConversions] in
theorem names_append (files more : List FileDescriptor) :
    names (files ++ more) = names files ++ names more := List.map_append

omit [FloatConversions] in
theorem names_entry : names (files ++ [entry files path file]) = names files ++ [path] :=
  names_append files _

/-- A file that has been loaded lacks none. -/
theorem Loaded.not_lacksFile (h : Loaded tree files) (hmem : path ∈ names files) :
    ¬ tree.LacksFile path := by
  induction h generalizing path with
  | nil => exact absurd hmem (by simp [names])
  | @file files new file h hfile hnew himports ih =>
      rw [names_entry] at hmem
      rcases List.mem_append.mp hmem with hmem | hmem
      · exact ih hmem
      · obtain rfl := List.mem_singleton.mp hmem
        intro hlacks
        cases hlacks with
        | missing hget => simp [fileAt, hget] at hfile
        | @imports _ other item hother hitem hkind hlacks =>
            obtain rfl : file = other := Option.some.inj (hfile.symm.trans hother)
            rcases himports item hitem with hin | ⟨hweak, -⟩
            · exact ih hin hlacks
            · exact hkind hweak

theorem Loaded.nodup (h : Loaded tree files) : (names files).Nodup := by
  induction h with
  | nil => exact List.nodup_nil
  | file h hfile hnew himports ih =>
      rw [names_entry, List.nodup_append]
      refine ⟨ih, List.nodup_singleton _, ?_⟩
      rintro a ha b hb rfl
      exact hnew (List.mem_singleton.mp hb ▸ ha)

/-- The state between two steps. -/
structure Consistent (tree : MemorySourceTree) (result : LoadResult) : Prop where
  loaded : Loaded tree result.files
  mem_loaded : ∀ path, path ∈ result.loaded ↔ path ∈ names result.files

/-- A step keeps what has been loaded and adds files that `reached` holds of. -/
structure Extends (tree : MemorySourceTree) (reached : Bytes → Prop) (before after : LoadResult) :
    Prop where
  consistent : Consistent tree after
  kept : names before.files ⊆ names after.files
  added : ∀ path ∈ names after.files, path ∈ names before.files ∨ reached path

theorem Extends.refl {result : LoadResult} {reached : Bytes → Prop}
    (h : Consistent tree result) : Extends tree reached result result :=
  ⟨h, List.Subset.refl _, fun _ hmem => .inl hmem⟩

theorem Extends.trans {first second third : LoadResult} {reached reached' : Bytes → Prop}
    (h : Extends tree reached first second) (h' : Extends tree reached' second third)
    {both : Bytes → Prop} (hfirst : ∀ path, reached path → both path)
    (hsecond : ∀ path, reached' path → both path) : Extends tree both first third := by
  refine ⟨h'.consistent, List.Subset.trans h.kept h'.kept, fun path hmem => ?_⟩
  rcases h'.added path hmem with hmem | hreached
  · exact (h.added path hmem).imp_right (hfirst path)
  · exact .inr (hsecond path hreached)

/-- What a failed load of `path` has met. -/
def Met (tree : MemorySourceTree) (path : Bytes) : LoadError ε → Prop
  | .fileNotFound => tree.LacksFile path
  | .importCycle => tree.HasCycle path
  | .parse stop => ∃ other source, tree.Reaches path other ∧ tree.get other = some source ∧
      Parser.parse source = .error stop
  | .registry _ | .fuel => False

theorem reaches_item (hfile : tree.fileAt path = some file) (hitem : item ∈ file.imports)
    {other : Bytes} (h : tree.Reaches item.path other) : tree.Reaches path other :=
  .head ⟨file, hfile, item, hitem, rfl⟩ h

/-- What the load of an import has met, the load of the importing file has met. -/
theorem Met.of_item {e : LoadError ε} (h : Met tree item.path e)
    (hfile : tree.fileAt path = some file) (hitem : item ∈ file.imports)
    (hweak : e = .fileNotFound → item.kind ≠ .weak) : Met tree path e := by
  cases e with
  | fileNotFound => exact .imports hfile hitem (hweak rfl) h
  | importCycle =>
      obtain ⟨other, hreaches, hcycle⟩ := h
      exact ⟨other, reaches_item hfile hitem hreaches, hcycle⟩
  | parse stop =>
      obtain ⟨other, source, hreaches, hsource⟩ := h
      exact ⟨other, source, reaches_item hfile hitem hreaches, hsource⟩
  | registry e => exact h
  | fuel => exact h

/-- What a call of `loadOne` does within the calls for the paths in `loading`. -/
structure Loads (tree : MemorySourceTree) (loading : List Bytes) (path : Bytes)
    (before after : LoadResult) (outcome : Except (LoadError ε) Unit) : Prop where
  state : Extends tree (fun other => tree.Reaches path other ∧ other ∉ loading) before after
  ok : outcome = .ok () → path ∈ names after.files
  error : ∀ e, outcome = .error e → Met tree path e

/-- What the loop over the imports of a file does. -/
structure LoadsImports (tree : MemorySourceTree) (loading : List Bytes) (items : List Import)
    (missing : List Bytes) (before after : LoadResult)
    (outcome : Except (LoadError ε) (List Bytes)) : Prop where
  state : Extends tree
    (fun other => (∃ item ∈ items, tree.Reaches item.path other) ∧ other ∉ loading) before after
  imports : ∀ found, outcome = .ok found → ∀ item ∈ items,
    item.path ∈ names after.files ∨ item.kind = .weak ∧ tree.LacksFile item.path
  missing : ∀ found, outcome = .ok found → found = missing ++
    (items.filter (fun item => !(names after.files).contains item.path)).map (·.path)
  error : ∀ e, outcome = .error e →
    ∃ item ∈ items, Met tree item.path e ∧ (e = .fileNotFound → item.kind ≠ .weak)

/-- An import in front of the others has been loaded, or it is weak and lacks a file. -/
theorem LoadsImports.cons {loading : List Bytes} {rest : List Import} {missing missing' : List Bytes}
    {before mid after : LoadResult} {outcome : Except (LoadError ε) (List Bytes)}
    (hitem : Extends tree (fun other => tree.Reaches item.path other ∧ other ∉ loading) before mid)
    (hrest : LoadsImports tree loading rest missing' mid after outcome)
    (hfound : item.path ∈ names mid.files ∧ missing' = missing ∨
      (item.kind = .weak ∧ tree.LacksFile item.path) ∧ missing' = missing ++ [item.path]) :
    LoadsImports tree loading (item :: rest) missing before after outcome := by
  constructor
  case state =>
    refine hitem.trans hrest.state ?_ ?_
    · exact fun path h => ⟨⟨item, List.mem_cons_self, h.1⟩, h.2⟩
    · rintro path ⟨⟨other, hother, hreaches⟩, hout⟩
      exact ⟨⟨other, List.mem_cons_of_mem _ hother, hreaches⟩, hout⟩
  case imports =>
    intro found hok other hother
    rcases List.mem_cons.mp hother with rfl | hother
    · rcases hfound with ⟨hmem, -⟩ | ⟨hlacks, -⟩
      · exact .inl (hrest.state.kept hmem)
      · exact .inr hlacks
    · exact hrest.imports found hok other hother
  case missing =>
    intro found hok
    rw [hrest.missing found hok]
    rcases hfound with ⟨hmem, rfl⟩ | ⟨⟨-, hlacks⟩, rfl⟩
    · have hkept : item.path ∈ names after.files := hrest.state.kept hmem
      simp [hkept]
    · have hout : item.path ∉ names after.files := fun hmem =>
        hrest.state.consistent.loaded.not_lacksFile hmem hlacks
      simp [hout]
  case error =>
    intro e he
    obtain ⟨other, hother, hmet⟩ := hrest.error e he
    exact ⟨other, List.mem_cons_of_mem _ hother, hmet⟩

/-- An import whose load fails, and that is not passed over. -/
theorem LoadsImports.stop {loading : List Bytes} {rest : List Import} {missing : List Bytes}
    {before after : LoadResult} {e : LoadError ε}
    (hitem : Loads tree loading item.path before after (.error e))
    (hkind : e = .fileNotFound → item.kind ≠ .weak) :
    LoadsImports tree loading (item :: rest) missing before after (.error e) := by
  refine ⟨?_, (fun _ h => nomatch h), (fun _ h => nomatch h), ?_⟩
  · refine ⟨hitem.state.consistent, hitem.state.kept, fun path hmem => ?_⟩
    refine (hitem.state.added path hmem).imp_right fun hadded => ?_
    exact ⟨⟨item, List.mem_cons_self, hadded.1⟩, hadded.2⟩
  · rintro _ ⟨⟩
    exact ⟨item, List.mem_cons_self, hitem.error e rfl, hkind⟩

theorem loadImports_spec {loading : List Bytes}
    {load : Bytes → LoadResult → LoadResult × Except (LoadError ε) Unit} {items : List Import}
    (hload : ∀ item ∈ items, ∀ before, Consistent tree before →
      Loads tree loading item.path before (load item.path before).1 (load item.path before).2)
    {before : LoadResult} (hbefore : Consistent tree before) (missing : List Bytes) :
    LoadsImports tree loading items missing before (loadImports load items missing before).1
      (loadImports load items missing before).2 := by
  induction items generalizing before missing with
  | nil =>
      refine ⟨.refl hbefore, by simp, ?_, by simp [loadImports]⟩
      rintro found ⟨⟩
      simp
  | cons item rest ih =>
      have hitem := hload item List.mem_cons_self before hbefore
      have hrest {mid : LoadResult} (hmid : Consistent tree mid) (missing : List Bytes) :=
        ih (fun other hother => hload other (List.mem_cons_of_mem _ hother)) hmid missing
      rw [loadImports]
      generalize load item.path before = call at hitem
      obtain ⟨mid, outcome⟩ := call
      cases outcome with
      | ok u => exact .cons hitem.state (hrest hitem.state.consistent missing) (.inl ⟨hitem.ok rfl, rfl⟩)
      | error e =>
          cases e with
          | fileNotFound =>
              by_cases hkind : item.kind = .weak
              · simp only [hkind, beq_self_eq_true, if_true]
                refine .cons hitem.state (hrest hitem.state.consistent (missing ++ [item.path])) ?_
                exact .inr ⟨⟨hkind, hitem.error _ rfl⟩, rfl⟩
              · simp only [beq_iff_eq, hkind, if_false]
                exact .stop hitem fun _ => hkind
          | importCycle => exact .stop hitem fun h => nomatch h
          | parse stop => exact .stop hitem fun h => nomatch h
          | registry e => exact .stop hitem fun h => nomatch h
          | fuel => exact .stop hitem fun h => nomatch h

/-! ## One call -/

omit [FloatConversions] in
theorem mem_paths_of_get {source : Bytes} (h : tree.get path = some source) :
    path ∈ tree.paths := by
  obtain ⟨before, after, hfiles, -⟩ := List.lookup_eq_some_iff.mp h
  rw [paths, hfiles]
  simp

/-- The calls that a call is part of: each has its own path of the tree, and the imports lead from
it to the path of the call. There are rounds left for the others. -/
structure Within (tree : MemorySourceTree) (loading : List Bytes) (path : Bytes) (rounds : Nat) :
    Prop where
  nodup : loading.Nodup
  paths : loading ⊆ tree.paths
  leads : ∀ outer ∈ loading, TransGen tree.Imports outer path
  rounds : tree.paths.length < rounds + loading.length

theorem Within.inner {loading : List Bytes} {rounds : Nat}
    (h : Within tree loading path (rounds + 1)) (hnew : path ∉ loading)
    (hfile : tree.fileAt path = some file) (hitem : item ∈ file.imports) :
    Within tree (path :: loading) item.path rounds := by
  have hedge : tree.Imports path item.path := ⟨file, hfile, item, hitem, rfl⟩
  obtain ⟨source, hsource, -⟩ := Option.bind_eq_some_iff.mp hfile
  refine ⟨List.nodup_cons.mpr ⟨hnew, h.nodup⟩, ?_, ?_, ?_⟩
  · exact List.cons_subset.mpr ⟨mem_paths_of_get hsource, h.paths⟩
  · intro outer houter
    rcases List.mem_cons.mp houter with rfl | houter
    · exact .single hedge
    · exact (h.leads outer houter).tail hedge
  · have hlt := h.rounds
    rw [List.length_cons]
    omega

theorem Loads.of_imports_error {loading : List Bytes} {before after : LoadResult}
    {e : LoadError ε}
    (h : LoadsImports tree (path :: loading) file.imports [] before after (.error e))
    (hfile : tree.fileAt path = some file) : Loads tree loading path before after (.error e) := by
  refine ⟨?_, (fun h => nomatch h), ?_⟩
  · refine ⟨h.state.consistent, h.state.kept, fun other hmem => ?_⟩
    refine (h.state.added other hmem).imp_right fun hadded => ?_
    obtain ⟨⟨item, hitem, hreaches⟩, hout⟩ := hadded
    exact ⟨reaches_item hfile hitem hreaches, fun hin => hout (List.mem_cons_of_mem _ hin)⟩
  · rintro _ ⟨⟩
    obtain ⟨item, hitem, hmet, hweak⟩ := h.error e rfl
    exact hmet.of_item hfile hitem hweak

/-- Behind its imports a file is added. -/
theorem Loads.of_imports_ok {loading : List Bytes} {before mid : LoadResult} {missing : List Bytes}
    (h : LoadsImports (ε := ε) tree (path :: loading) file.imports [] before mid (.ok missing))
    (hfile : tree.fileAt path = some file) (hnew : path ∉ loading)
    (hbefore : path ∉ names before.files) :
    Loads (ε := ε) tree loading path before
      { files := mid.files ++ [{ file with name := path, missingWeakImports := missing }],
        loaded := path :: mid.loaded } (.ok ()) := by
  have hmid : path ∉ names mid.files := by
    intro hmem
    rcases h.state.added path hmem with hmem | ⟨-, hout⟩
    · exact hbefore hmem
    · exact hout List.mem_cons_self
  have hentry : ({ file with name := path, missingWeakImports := missing } : FileDescriptor)
      = entry mid.files path file := by
    rw [h.missing missing rfl]
    rfl
  rw [hentry]
  have hnames : names (mid.files ++ [entry mid.files path file]) = names mid.files ++ [path] :=
    names_entry
  refine ⟨⟨⟨?_, ?_⟩, ?_, ?_⟩, ?_, fun _ h => nomatch h⟩
  · exact .file h.state.consistent.loaded hfile hmid (h.imports missing rfl)
  · intro other
    rw [hnames, List.mem_cons, h.state.consistent.mem_loaded, List.mem_append,
      List.mem_singleton, or_comm]
  · rw [hnames]
    exact List.subset_append_of_subset_left _ h.state.kept
  · intro other hmem
    rw [hnames] at hmem
    rcases List.mem_append.mp hmem with hmem | hmem
    · refine (h.state.added other hmem).imp_right fun hadded => ?_
      obtain ⟨⟨item, hitem, hreaches⟩, hout⟩ := hadded
      exact ⟨reaches_item hfile hitem hreaches, fun hin => hout (List.mem_cons_of_mem _ hin)⟩
    · obtain rfl := List.mem_singleton.mp hmem
      exact .inr ⟨.refl, hnew⟩
  · intro _
    rw [hnames]
    simp

theorem loadOne_spec {loading : List Bytes} {rounds : Nat} (h : Within tree loading path rounds)
    {before : LoadResult} (hbefore : Consistent tree before) :
    Loads tree loading path before (loadOne (ε := ε) tree rounds loading path before).1
      (loadOne (ε := ε) tree rounds loading path before).2 := by
  induction rounds generalizing loading path before with
  | zero =>
      have hle := (h.nodup.subperm h.paths).length_le
      have hlt := h.rounds
      omega
  | succ rounds ih =>
      rw [loadOne]
      by_cases hloaded : before.loaded.contains path = true
      · rw [if_pos hloaded]
        have hmem := (hbefore.mem_loaded path).mp (by simpa using hloaded)
        exact ⟨.refl hbefore, fun _ => hmem, fun _ h => nomatch h⟩
      rw [if_neg hloaded]
      by_cases hloading : loading.contains path = true
      · rw [if_pos hloading]
        have hcycle := h.leads path (by simpa using hloading)
        refine ⟨.refl hbefore, (fun h => nomatch h), ?_⟩
        rintro _ ⟨⟩
        exact ⟨path, .refl, hcycle⟩
      rw [if_neg hloading]
      have hnew : path ∉ loading := by simpa using hloading
      cases hget : tree.get path with
      | none =>
          refine ⟨.refl hbefore, (fun h => nomatch h), ?_⟩
          rintro _ ⟨⟩
          exact .missing hget
      | some source =>
          cases hparse : Parser.parse source with
          | error stop =>
              simp only [hparse]
              refine ⟨.refl hbefore, (fun h => nomatch h), ?_⟩
              rintro _ ⟨⟩
              exact ⟨path, source, .refl, hget, hparse⟩
          | ok file =>
              have hfile : tree.fileAt path = some file := by
                simp [fileAt, hget, hparse, Except.toOption]
              have himports := loadImports_spec (fun item hitem before hb =>
                ih (h.inner hnew hfile hitem) hb) hbefore []
              simp only [hparse]
              generalize loadImports (loadOne tree rounds (path :: loading)) file.imports [] before
                = call at himports
              obtain ⟨mid, outcome⟩ := call
              cases outcome with
              | error e => exact .of_imports_error himports hfile
              | ok missing =>
                  refine .of_imports_ok himports hfile hnew fun hmem => hloaded ?_
                  simpa using (hbefore.mem_loaded path).mpr hmem

theorem loadFiles_spec (tree : MemorySourceTree) (root : Bytes) :
    ∃ after outcome, Loads (ε := ε) tree [] root {} after outcome ∧
      loadFiles tree root = outcome.map (fun _ => after.files) := by
  have hempty : Consistent tree {} := ⟨.nil, by simp [names]⟩
  have hwithin : Within tree [] root (tree.paths.length + 1) :=
    ⟨List.nodup_nil, List.nil_subset _, by simp, by simp⟩
  have hspec := @loadOne_spec _ ε _ _ _ _ hwithin _ hempty
  refine ⟨_, _, hspec, ?_⟩
  rw [loadFiles]
  generalize loadOne tree (tree.paths.length + 1) [] root {} = call
  obtain ⟨after, outcome⟩ := call
  cases outcome with
  | error e => rfl
  | ok u => rfl

/-! ## Exact loads -/

/-- There is a source at the path. -/
def HasSource (tree : MemorySourceTree) (path : Bytes) : Prop := ∃ source, tree.get path = some source

/-- The files of a load are those that are reached, each once and behind the files it imports, and
the weak imports that it records are those without a source. -/
structure ExactFiles (tree : MemorySourceTree) (root : Bytes) (files : List FileDescriptor) :
    Prop where
  parsed : ∀ file ∈ files, ∃ read, tree.fileAt file.name = some read ∧
    file = { read with name := file.name, missingWeakImports := file.missingWeakImports }
  once : (names files).Nodup
  mem_iff : ∀ path, path ∈ names files ↔ tree.Reaches root path ∧ HasSource tree path
  ordered : ∀ before file after, files = before ++ file :: after → ∀ item ∈ file.imports,
    HasSource tree item.path → item.path ∈ names before
  weak : ∀ file ∈ files, ∀ path, path ∈ file.missingWeakImports ↔
    (∃ item ∈ file.imports, item.path = path ∧ item.kind = .weak) ∧ tree.get path = none

/-- The error tells what is wrong with the files that are reached. -/
def Cause (tree : MemorySourceTree) (root : Bytes) : LoadError ε → Prop
  | .fileNotFound => tree.StrongMissing root ∨ tree.get root = none
  | .importCycle => tree.HasCycle root
  | .parse stop => ∃ path source, tree.Reaches root path ∧ tree.get path = some source ∧
      Parser.parse source = .error stop
  | .registry _ | .fuel => False

/-- A load that succeeds is exact; a missing file that is imported, and not weakly, and a cycle of
imports make it fail with an error that tells one of the causes there are. -/
structure LoadsExactly (tree : MemorySourceTree) (root : Bytes)
    (outcome : Except (LoadError ε) (List FileDescriptor)) : Prop where
  files : ∀ files, outcome = .ok files → ExactFiles tree root files
  fails : tree.StrongMissing root ∨ tree.HasCycle root ∨ tree.get root = none →
    ∃ e, outcome = .error e ∧ Cause tree root e

theorem strongMissing_of_lacksFile (h : tree.LacksFile path) :
    tree.StrongMissing path ∨ tree.get path = none := by
  induction h with
  | missing hget => exact .inr hget
  | @imports path file item hfile hitem hkind h ih =>
      left
      rcases ih with ⟨other, read, found, hreaches, hfound⟩ | hget
      · exact ⟨other, read, found, reaches_item hfile hitem hreaches, hfound⟩
      · exact ⟨path, file, item, .refl, hfile, hitem, hkind, hget⟩

theorem Met.cause {e : LoadError ε} (h : Met tree path e) : Cause tree path e := by
  cases e with
  | fileNotFound => exact strongMissing_of_lacksFile h
  | importCycle => exact h
  | parse stop => exact h
  | registry e => exact h
  | fuel => exact h

theorem hasSource_of_fileAt (h : tree.fileAt path = some file) : HasSource tree path := by
  obtain ⟨source, hsource, -⟩ := Option.bind_eq_some_iff.mp h
  exact ⟨source, hsource⟩

theorem hasSource_of_imports {other : Bytes} (h : tree.Imports path other) :
    HasSource tree path := by
  obtain ⟨file, hfile, -⟩ := h
  exact hasSource_of_fileAt hfile

/-- An entry in its place among the others. -/
theorem Loaded.split (h : Loaded tree files) {before after : List FileDescriptor}
    (hfiles : files = before ++ file :: after) :
    ∃ read, tree.fileAt file.name = some read ∧ file = entry before file.name read ∧
      ∀ item ∈ read.imports,
        item.path ∈ names before ∨ item.kind = .weak ∧ tree.LacksFile item.path := by
  induction h generalizing after with
  | nil => exact absurd hfiles.symm (by simp)
  | @file files path read h hfile hnew himports ih =>
      rcases List.eq_nil_or_concat after with rfl | ⟨front, last, rfl⟩
      · obtain ⟨rfl, hlast⟩ := List.append_inj' hfiles rfl
        obtain rfl : entry files path read = file := by simpa using hlast
        exact ⟨read, hfile, rfl, himports⟩
      · have hsplit : files ++ [entry files path read] = (before ++ file :: front) ++ [last] := by
          simp [hfiles]
        obtain ⟨rfl, -⟩ := List.append_inj' hsplit rfl
        exact ih rfl

/-- The file at a path imports another one, and that one has a source. -/
def Finds (tree : MemorySourceTree) (path other : Bytes) : Prop :=
  tree.Imports path other ∧ HasSource tree other

theorem finds_of_imports {other : Bytes} (h : TransGen tree.Imports path other)
    (hother : HasSource tree other) : TransGen (Finds tree) path other := by
  induction h with
  | single hstep => exact .single ⟨hstep, hother⟩
  | tail hfront hstep ih =>
      exact (ih (hasSource_of_imports hstep)).tail ⟨hstep, hother⟩

section Complete

variable {root : Bytes} (h : Loaded tree files)
  (hreached : ∀ path ∈ names files, tree.Reaches root path)
  (hcomplete : tree.WeakImportsComplete root)

include h hreached hcomplete

/-- Where weak imports are complete the imports with a source stand in front. -/
theorem Loaded.mem_before {before after : List FileDescriptor}
    (hfiles : files = before ++ file :: after) (hitem : item ∈ file.imports) :
    item.path ∈ names before ∨ item.kind = .weak ∧ tree.get item.path = none := by
  obtain ⟨read, hread, hentry, himports⟩ := h.split hfiles
  rw [hentry] at hitem
  refine (himports item hitem).imp_right fun ⟨hkind, hlacks⟩ => ⟨hkind, ?_⟩
  refine hcomplete file.name read item (hreached _ ?_) hread hitem hkind hlacks
  rw [hfiles, names_append]
  simp [names]

theorem Loaded.ordered : Ordered (Finds tree) (names files) := by
  induction h with
  | nil => exact .nil
  | @file files path file h hfile hnew himports ih =>
      rw [names_entry] at hreached ⊢
      refine .snoc (ih fun other hmem => hreached other (List.mem_append_left _ hmem)) ?_
      rintro other ⟨⟨read, hread, item, hitem, rfl⟩, source, hsource⟩
      obtain rfl : file = read := Option.some.inj (hfile.symm.trans hread)
      rcases himports item hitem with hmem | ⟨hkind, hlacks⟩
      · exact hmem
      · have hget := hcomplete path file item (hreached path (by simp)) hfile hitem hkind hlacks
        rw [hget] at hsource
        cases hsource

/-- All that is reached has been loaded. -/
theorem Loaded.mem_of_reaches (hroot : root ∈ names files) {other : Bytes}
    (hreaches : tree.Reaches root other) (hsource : HasSource tree other) :
    other ∈ names files := by
  induction hreaches with
  | refl => exact hroot
  | @tail path other _ hstep ih =>
      have hpath := ih (hasSource_of_imports hstep)
      exact (h.ordered hreached hcomplete).mem_of_edge hpath ⟨hstep, hsource⟩

omit hreached hcomplete in
theorem Loaded.hasSource (hmem : path ∈ names files) : HasSource tree path := by
  obtain ⟨file, hfile, rfl⟩ := List.mem_map.mp hmem
  obtain ⟨before, after, hsplit⟩ := List.append_of_mem hfile
  obtain ⟨read, hread, -⟩ := h.split hsplit
  exact hasSource_of_fileAt hread

theorem Loaded.exactFiles (hroot : root ∈ names files) : ExactFiles tree root files := by
  constructor
  case parsed =>
    intro file hfile
    obtain ⟨before, after, hsplit⟩ := List.append_of_mem hfile
    obtain ⟨read, hread, hentry, -⟩ := h.split hsplit
    refine ⟨read, hread, ?_⟩
    rw [hentry]
    rfl
  case once => exact h.nodup
  case mem_iff =>
    intro path
    constructor
    · exact fun hmem => ⟨hreached path hmem, h.hasSource hmem⟩
    · exact fun hpath => h.mem_of_reaches hreached hcomplete hroot hpath.1 hpath.2
  case ordered =>
    rintro before file after hsplit item hitem ⟨source, hsource⟩
    rcases h.mem_before hreached hcomplete hsplit hitem with hmem | ⟨-, hget⟩
    · exact hmem
    · rw [hget] at hsource
      cases hsource
  case weak =>
    intro file hfile path
    obtain ⟨before, after, hsplit⟩ := List.append_of_mem hfile
    have hbefore {item : Import} (hitem : item ∈ file.imports) :=
      h.mem_before hreached hcomplete hsplit hitem
    obtain ⟨read, hread, hentry, -⟩ := h.split hsplit
    have hmissing : path ∈ file.missingWeakImports ↔
        ∃ item ∈ file.imports, item.path ∉ names before ∧ item.path = path := by
      rw [hentry]
      simp [entry, and_assoc]
    rw [hmissing]
    constructor
    · rintro ⟨item, hitem, hout, rfl⟩
      obtain ⟨hkind, hget⟩ := (hbefore hitem).resolve_left hout
      exact ⟨⟨item, hitem, rfl, hkind⟩, hget⟩
    · rintro ⟨⟨item, hitem, rfl, hkind⟩, hget⟩
      refine ⟨item, hitem, fun hmem => ?_, rfl⟩
      have hin : item.path ∈ names files := by
        rw [hsplit, names_append]
        exact List.mem_append_left _ hmem
      obtain ⟨source, hsource⟩ := h.hasSource hin
      rw [hget] at hsource
      cases hsource

theorem Loaded.not_strongMissing (hroot : root ∈ names files) : ¬ tree.StrongMissing root := by
  rintro ⟨path, read, item, hreaches, hread, hitem, hkind, hget⟩
  have hmem := h.mem_of_reaches hreached hcomplete hroot hreaches (hasSource_of_fileAt hread)
  have hlacks : tree.LacksFile path := .imports hread hitem hkind (.missing hget)
  exact h.not_lacksFile hmem hlacks

theorem Loaded.not_hasCycle (hroot : root ∈ names files) : ¬ tree.HasCycle root := by
  rintro ⟨path, hreaches, hcycle⟩
  obtain ⟨other, hstep, -⟩ := TransGen.head'_iff.mp hcycle
  have hsource := hasSource_of_imports hstep
  have hmem := h.mem_of_reaches hreached hcomplete hroot hreaches hsource
  exact (h.ordered hreached hcomplete).acyclic hmem (finds_of_imports hcycle hsource)

end Complete

/-- A weak import with a source that lacks a file leads to an import that is missing. -/
theorem weakImportsComplete_of_not_strongMissing {root : Bytes}
    (h : ¬ tree.StrongMissing root) : tree.WeakImportsComplete root := by
  intro path file item hreaches hfile hitem _ hlacks
  refine (strongMissing_of_lacksFile hlacks).resolve_left ?_
  rintro ⟨other, read, found, hother, hfound⟩
  exact h ⟨other, read, found, hreaches.trans (reaches_item hfile hitem hother), hfound⟩

omit [FloatConversions] in
theorem bind_mapError {register : List FileDescriptor → Except ε Unit} (files : List FileDescriptor) :
    ((register files).mapError LoadError.registry >>= fun _ => pure files) = .ok files ∨
      ∃ e, ((register files).mapError LoadError.registry >>= fun _ => pure files) =
        .error (.registry e) := by
  cases register files with
  | ok u => exact .inl rfl
  | error e => exact .inr ⟨e, rfl⟩

/-- The registry takes the files or makes the load fail. -/
theorem loadMemory_of_ok {register : List FileDescriptor → Except ε Unit} {root : Bytes}
    (h : loadFiles (ε := ε) tree root = .ok files) :
    loadMemory register tree root = .ok files ∨
      ∃ e, loadMemory register tree root = .error (.registry e) := by
  rw [loadMemory, h]
  exact bind_mapError files

theorem loadMemory_of_error {register : List FileDescriptor → Except ε Unit} {root : Bytes}
    {e : LoadError ε} (h : loadFiles tree root = .error e) :
    loadMemory register tree root = .error e := by
  rw [loadMemory, h]
  rfl

/-- A load whose imports fail is as it should be; one whose imports can all be read is so if and
only if no weak import that has a source lacks a file. -/
theorem loadMemory_exact_iff (register : List FileDescriptor → Except ε Unit)
    (tree : MemorySourceTree) (root : Bytes) :
    (∀ e, loadFiles (ε := ε) tree root = .error e →
        LoadsExactly tree root (loadMemory register tree root)) ∧
      ∀ files, loadFiles (ε := ε) tree root = .ok files →
        (LoadsExactly tree root (loadMemory register tree root) ↔ tree.WeakImportsComplete root) := by
  obtain ⟨after, outcome, hloads, hfiles⟩ := @loadFiles_spec _ ε tree root
  constructor
  · intro e he
    rw [loadMemory_of_error he]
    rw [hfiles] at he
    cases outcome with
    | ok u => cases he
    | error met =>
        cases he
        exact ⟨(fun _ h => nomatch h), fun _ => ⟨e, rfl, (hloads.error e rfl).cause⟩⟩
  intro files hok
  have hresult := @loadMemory_of_ok _ ε tree files register root hok
  rw [hfiles] at hok
  cases outcome with
  | error e => cases hok
  | ok u =>
      obtain rfl : after.files = files := Except.ok.inj hok
      have hroot := hloads.ok rfl
      have hloaded := hloads.state.consistent.loaded
      have hreached (path : Bytes) (hmem : path ∈ names after.files) : tree.Reaches root path := by
        rcases hloads.state.added path hmem with hmem | hadded
        · exact absurd hmem (by simp [names])
        · exact hadded.1
      constructor
      · intro hexact
        refine weakImportsComplete_of_not_strongMissing fun hmissing => ?_
        obtain ⟨e, he, hcause⟩ := hexact.fails (.inl hmissing)
        rcases hresult with hresult | ⟨e', hresult⟩
        · rw [hresult] at he
          cases he
        · rw [hresult] at he
          cases he
          exact hcause
      · intro hcomplete
        constructor
        · intro loaded hloads
          rcases hresult with hresult | ⟨e', hresult⟩
          · rw [hresult] at hloads
            cases hloads
            exact hloaded.exactFiles hreached hcomplete hroot
          · rw [hresult] at hloads
            cases hloads
        · rintro (hmissing | hcycle | hget)
          · exact absurd hmissing (hloaded.not_strongMissing hreached hcomplete hroot)
          · exact absurd hcycle (hloaded.not_hasCycle hreached hcomplete hroot)
          · obtain ⟨source, hsource⟩ := hloaded.hasSource hroot
            rw [hget] at hsource
            cases hsource

end Loader

namespace Loader

/-- The file `mid.proto` has a source; what is missing is the file that it imports. -/
theorem exists_not_loadsExactly :
    ∃ tree root files, @loadMemory Unit ⟨fun _ => none, fun _ => 0⟩ (fun _ => .ok ()) tree root
        = .ok files ∧
      ¬ @LoadsExactly ⟨fun _ => none, fun _ => 0⟩ Unit tree root (.ok files) := by
  let _ : FloatConversions := ⟨fun _ => none, fun _ => 0⟩
  let tree : MemorySourceTree := ⟨[(ascii "root.proto", ascii "import weak \"mid.proto\";"),
    (ascii "mid.proto", ascii "import \"missing.proto\";")]⟩
  have hnames : (@loadMemory Unit ⟨fun _ => none, fun _ => 0⟩ (fun _ => .ok ()) tree
      (ascii "root.proto")).toOption.map names = some [ascii "root.proto"] := by
    decide +kernel
  have himports : (@MemorySourceTree.fileAt ⟨fun _ => none, fun _ => 0⟩ tree
      (ascii "root.proto")).map (fun file => file.imports.map (·.path)) = some [ascii "mid.proto"] := by
    decide +kernel
  cases hload : @loadMemory Unit ⟨fun _ => none, fun _ => 0⟩ (fun _ => .ok ()) tree
      (ascii "root.proto") with
  | error e =>
      rw [hload] at hnames
      cases hnames
  | ok files =>
      refine ⟨tree, ascii "root.proto", files, hload, fun hexact => ?_⟩
      rw [hload] at hnames
      have hnames : names files = [ascii "root.proto"] := Option.some.inj hnames
      obtain ⟨file, hfile, hpaths⟩ := Option.map_eq_some_iff.mp himports
      obtain ⟨item, hitem, hpath⟩ := List.map_eq_singleton_iff.mp hpaths
      have hstep : @MemorySourceTree.Imports ⟨fun _ => none, fun _ => 0⟩ tree (ascii "root.proto")
          (ascii "mid.proto") := ⟨file, hfile, item, by simp [hitem], hpath⟩
      have hmem := ((hexact.files files rfl).mem_iff (ascii "mid.proto")).mpr
        ⟨.single hstep, ascii "import \"missing.proto\";", by decide +kernel⟩
      rw [hnames] at hmem
      exact absurd hmem (by decide +kernel)

end Loader

end Pbz
