import Mathlib.Data.List.Induction
import RepoAtlas.Extraction
import RepoAtlas.Proofs.Catalog
import RepoAtlas.Proofs.Log
import RepoAtlas.Proofs.Pool
import RepoAtlas.Proofs.Python.Names

/-!
Catalogs as extraction leaves them: every component under its own id, the last one of each id, and
no links yet. Messages and lanes leave no trace in the result: it is a function of the tree and of
the list of files.
-/
namespace RepoAtlas
open Python

structure Table.Unlinked (t : Table Component) : Prop where
  keys_nodup : t.keys.Nodup
  id_eq : ∀ k s, (k, s) ∈ t.entries → s.id = k
  dependsOn : ∀ k s, (k, s) ∈ t.entries → s.dependsOn = []

theorem Table.Unlinked.insert {t : Table Component} (h : t.Unlinked) {s : Component}
    (hs : s.dependsOn = []) : (t.insert s.id s).Unlinked := by
  have old : ∀ k u, (k, u) ∈ (t.insert s.id s).entries → (k, u) ∈ t.entries ∨
      (k = s.id ∧ u = s) := by
    intro k u hm
    rcases Table.mem_insertEntry hm with heq | hm
    · exact Or.inr (Prod.mk.inj heq)
    · exact Or.inl hm
  constructor
  · exact Table.insert_keys_nodup h.keys_nodup s.id s
  · intro k u hm
    rcases old k u hm with hm | ⟨rfl, rfl⟩
    · exact h.id_eq k u hm
    · rfl
  · intro k u hm
    rcases old k u hm with hm | ⟨rfl, rfl⟩
    · exact h.dependsOn k u hm
    · exact hs

theorem Table.Unlinked.wellLinked {t : Table Component} (h : t.Unlinked) :
    Catalog.WellLinked ⟨t⟩ where
  keys_nodup := h.keys_nodup
  id_eq := h.id_eq
  nodup := by
    intro k s hm
    simp [h.dependsOn k s hm]
  known := by
    intro k s hm
    simp [h.dependsOn k s hm]
  irreflexive := by
    intro k s hm
    simp [h.dependsOn k s hm]

theorem Table.Unlinked.links_eq {t : Table Component} (h : t.Unlinked) :
    Catalog.links ⟨t⟩ = [] := by
  refine List.flatMap_eq_nil_iff.mpr ?_
  rintro ⟨k, s⟩ hm
  simp [h.dependsOn k s hm]

theorem Component.mem_ofFile {site : Component.Site} {f : SourceFile} {s : Component}
    (h : s ∈ Component.ofFile site f) :
    ∃ id kind headerEnd d, id ≠ "" ∧
      s = Component.ofDefinition site f.text id kind headerEnd d := by
  obtain ⟨d, _, hs⟩ := List.mem_flatMap.mp h
  rw [Component.ofTopLevel] at hs
  split at hs
  · exact ⟨_, _, _, d, by simp, List.mem_singleton.mp hs⟩
  · rcases List.mem_cons.mp hs with hs | hs
    · exact ⟨_, _, _, d, by simp, hs⟩
    · obtain ⟨m, _, rfl⟩ := List.mem_map.mp hs
      exact ⟨_, _, _, m, by simp, rfl⟩

theorem Component.ofFile_unlinked {site : Component.Site} {f : SourceFile} {s : Component}
    (h : s ∈ Component.ofFile site f) : s.dependsOn = [] := by
  obtain ⟨_, _, _, _, _, rfl⟩ := Component.mem_ofFile h
  rfl

namespace Extraction

theorem addComponent_components (verbose : Bool) (path : String) (e : Extraction) (s : Component)
    (log : List Log.Entry) :
    ((addComponent verbose path e s).value log).components = e.components.insert s.id s := by
  rw [addComponent]
  split <;> rfl

theorem addFile_unlinked {e : Extraction} (h : e.components.Unlinked) (verbose : Bool)
    (loaded : String × Except LoadError SourceFile) (log : List Log.Entry) :
    ((addFile verbose e loaded).value log).components.Unlinked := by
  obtain ⟨path, result⟩ := loaded
  cases result with
  | error error => exact h
  | ok file =>
    rw [addFile]
    apply Logged.foldlM_keeps (P := fun e : Extraction => e.components.Unlinked)
    · intro e he s hs log
      rw [addComponent_components]
      exact he.insert (Component.ofFile_unlinked hs)
    · exact h

theorem run_unlinked [Text.Collator] {tree : FileTree} {rootDir : String} {files : List String}
    {lanes : Float} {verbose : Bool} {log : List Log.Entry} {e : Extraction}
    (h : (run tree rootDir files lanes verbose).value log = .ok e) : e.components.Unlinked := by
  rw [run] at h
  simp only [Logged.value_bind] at h
  split at h
  · cases h
  · simp only [Logged.value_bind, Logged.value_pure, Except.ok.injEq] at h
    subst h
    apply Logged.foldlM_keeps (P := fun e : Extraction => e.components.Unlinked)
    · intro e he loaded _ log
      exact addFile_unlinked he verbose loaded log
    · exact ⟨.nil, by simp [start, Table.empty], by simp [start, Table.empty]⟩

/-! The result as a function of the tree and of the files, in the order in which they are taken. -/

def catalogued (ss : List Component) : Table Component :=
  ss.foldl (fun t s => t.insert s.id s) Table.empty

theorem catalogued_append (ss us : List Component) :
    catalogued (ss ++ us) = us.foldl (fun t s => t.insert s.id s) (catalogued ss) :=
      List.foldl_append

/-- The last component of an id stays. -/
theorem get?_catalogued (ss : List Component) (k : String) :
    (catalogued ss).get? k = (ss.filter fun s => s.id == k).getLast? := by
  induction ss using List.reverseRecOn with
  | nil => rfl
  | append_singleton ss s ih =>
    rw [catalogued_append, List.foldl_cons, List.foldl_nil, Table.get?_insert, ih,
      List.filter_append]
    by_cases h : s.id = k
    · rw [if_pos h.symm, List.filter_cons_of_pos (by simpa using h), List.filter_nil,
        List.getLast?_concat]
    · rw [if_neg (Ne.symm h), List.filter_cons_of_neg (by simpa using h), List.filter_nil,
        List.append_nil]

theorem mem_of_mem_keys_catalogued {ss : List Component} {k : String}
    (h : k ∈ (catalogued ss).keys) :
    ∃ s ∈ ss, s.id = k := by
  obtain ⟨s, hs⟩ := Option.isSome_iff_exists.mp (Table.contains_iff.mpr h)
  rw [get?_catalogued] at hs
  obtain ⟨hm, hid⟩ := List.mem_filter.mp (List.mem_of_getLast? hs)
  exact ⟨s, hm, by simpa using hid⟩

def site (index : ModuleIndex) (path : String) : Component.Site :=
  ⟨path, index.relative path, index.nameOf path⟩

def yielded (tree : FileTree) (index : ModuleIndex) (path : String) : List Component :=
  (load tree path).toOption.toList.flatMap (Component.ofFile (site index path))

def gathered (tree : FileTree) (index : ModuleIndex) (paths : List String) : Extraction where
  components := catalogued (paths.flatMap (yielded tree index))
  index := index
  cache := paths.foldl (fun c path => c.add path (load tree path).toOption) Cache.empty
  parsedFiles := paths.filter fun path => (load tree path).toOption.isSome
  failedFiles := paths.filter fun path => (load tree path).toOption.isNone

theorem addComponent_value (verbose : Bool) (path : String) (e : Extraction) (s : Component)
    (log : List Log.Entry) :
    (addComponent verbose path e s).value log =
      { e with components := e.components.insert s.id s } := by
  rw [addComponent]
  split <;> rfl

theorem addComponents_value (verbose : Bool) (path : String) (ss : List Component) (e : Extraction)
    (log : List Log.Entry) :
    (ss.foldlM (addComponent verbose path) e).value log =
      { e with components := ss.foldl (fun t s => t.insert s.id s) e.components } := by
  induction ss generalizing e log with
  | nil => rfl
  | cons s ss ih =>
    rw [List.foldlM_cons, Logged.value_bind, addComponent_value, ih, List.foldl_cons]

theorem addFile_error (verbose : Bool) (e : Extraction) (path : String) (error : LoadError)
    (log : List Log.Entry) :
    (addFile verbose e (path, .error error)).value log =
      { e with cache := e.cache.markFailed path, failedFiles := e.failedFiles ++ [path] } := rfl

theorem addFile_ok (verbose : Bool) (e : Extraction) (path : String) (source : SourceFile)
    (log : List Log.Entry) :
    (addFile verbose e (path, .ok source)).value log =
      { e with
        components := (Component.ofFile (site e.index path) source).foldl
          (fun t s => t.insert s.id s) e.components
        cache := e.cache.insert source
        parsedFiles := e.parsedFiles ++ [path] } := by
  rw [addFile]
  exact addComponents_value ..

theorem addFile_gathered (tree : FileTree) (index : ModuleIndex) (verbose : Bool)
    (taken : List String) (path : String) (log : List Log.Entry) :
    (addFile verbose (gathered tree index taken) (path, load tree path)).value log =
      gathered tree index (taken ++ [path]) := by
  cases hload : load tree path with
  | error error =>
    have unread : (load tree path).toOption = none := by
      rw [hload]
      rfl
    rw [addFile_error]
    simp [gathered, yielded, unread, Cache.markFailed]
  | ok source =>
    have read : (load tree path).toOption = some source := by
      rw [hload]
      rfl
    obtain ⟨hpath, _⟩ := load_inversion hload
    rw [addFile_ok]
    simp [gathered, yielded, read, Cache.insert, hpath, catalogued_append]

theorem addFiles_gathered (tree : FileTree) (index : ModuleIndex) (verbose : Bool)
    (rest taken : List String) (log : List Log.Entry) :
    ((rest.map fun path => (path, load tree path)).foldlM (addFile verbose)
      (gathered tree index taken)).value log = gathered tree index (taken ++ rest) := by
  induction rest generalizing taken log with
  | nil => rw [List.append_nil]; rfl
  | cons path rest ih =>
    rw [List.map_cons, List.foldlM_cons, Logged.value_bind, addFile_gathered, ih, List.append_assoc]
    rfl

def indexOf [Text.Collator] (rootDir : String) (files : List String) : ModuleIndex :=
  .ofFiles (Path.resolve "/" rootDir) (candidates (Path.resolve "/" rootDir) files)

def takenBy [Text.Collator] (limit : Nat) (rootDir : String) (files : List String) : List String :=
  if limit = 0 then [] else candidates (Path.resolve "/" rootDir) files

theorem run_of_lanes [Text.Collator] {lanes : Float} {limit : Nat}
    (h : Number.toPositive? lanes = some limit) (tree : FileTree) (rootDir : String)
    (files : List String) (verbose : Bool) (log : List Log.Entry) :
    (run tree rootDir files lanes verbose).value log =
      .ok (gathered tree (indexOf rootDir files) (takenBy limit rootDir files)) := by
  rw [run]
  simp only [Logged.value_bind, h, Logged.value_pure, Pool.map_eq_map, Except.ok.injEq]
  exact addFiles_gathered tree (indexOf rootDir files) verbose (takenBy limit rootDir files) [] _

theorem run_of_no_lanes [Text.Collator] {lanes : Float} (h : Number.toPositive? lanes = none)
    (tree : FileTree) (rootDir : String) (files : List String) (verbose : Bool)
    (log : List Log.Entry) : (run tree rootDir files lanes verbose).value log = .error ⟨lanes⟩ := by
  rw [run]
  simp only [Logged.value_bind, h, Logged.value_pure]

theorem candidates_singleton [Text.Collator] (root file : String) :
    candidates root [file] = [Path.toAbsolute root file] := by
  have once : ([file].map (Path.toAbsolute root)).eraseDups = [Path.toAbsolute root file] := by
    simp [List.eraseDups_cons]
  rw [candidates, once]
  exact List.perm_singleton.mp (Text.Collation.sortBy_perm ..)

theorem gathered_named (tree : FileTree) (index : ModuleIndex) (paths : List String) :
    (gathered tree index paths).components.get? "" = none := by
  rw [gathered, get?_catalogued, List.getLast?_eq_none_iff, List.filter_eq_nil_iff]
  intro s hs empty
  obtain ⟨path, _, hs⟩ := List.mem_flatMap.mp hs
  obtain ⟨source, _, hs⟩ := List.mem_flatMap.mp hs
  obtain ⟨id, _, _, _, named, rfl⟩ := Component.mem_ofFile hs
  exact named (by simpa [Component.ofDefinition] using empty)

theorem run_gathered [Text.Collator] {tree : FileTree} {rootDir : String} {files : List String}
    {lanes : Float} {verbose : Bool} {log : List Log.Entry} {e : Extraction}
    (h : (run tree rootDir files lanes verbose).value log = .ok e) :
    ∃ index paths, e = gathered tree index paths := by
  cases hl : Number.toPositive? lanes with
  | none =>
    rw [run_of_no_lanes hl] at h
    cases h
  | some limit =>
    rw [run_of_lanes hl, Except.ok.injEq] at h
    exact ⟨_, _, h.symm⟩

end Extraction

end RepoAtlas
