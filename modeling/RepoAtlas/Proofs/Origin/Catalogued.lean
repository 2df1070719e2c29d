import RepoAtlas.Proofs.Extraction
import RepoAtlas.Proofs.Origin
import RepoAtlas.Text.Alphabet

/-!
Origins and components bear the same ids. What resolution finds in a file that was read is a
component of that file, and the component that extraction keeps under its id is of the same kind:
for a function or a class the last definition of the name counts on both sides, and no name of a
top-level definition is that of a method, since it holds no dot.
-/
namespace RepoAtlas
open Python

namespace Component
variable {site : Site} {t : SourceText} {d : Definition} {n : String}

theorem name_of_id {m a b : String} (h : m ++ "." ++ a = m ++ "." ++ b) : a = b := by
  simpa using h

theorem ofTopLevel_eq_cons (site : Site) (t : SourceText) (d : Definition) :
    ∃ s rest, ofTopLevel site t d = s :: rest ∧ s.id = site.moduleName ++ "." ++ d.name ∧
      s.kind.word = (Origin.Kind.ofDefinition d.kind).word ∧
      ∀ u ∈ rest, u.kind = .method ∧ ∃ m, u.id = site.moduleName ++ "." ++
        (d.name ++ "." ++ m) := by
  cases hk : d.kind with
  | function =>
    refine ⟨_, [], by rw [ofTopLevel, hk], rfl, rfl, ?_⟩
    intro u hu
    cases hu
  | classDef =>
    refine ⟨_, _, by rw [ofTopLevel, hk], rfl, rfl, ?_⟩
    intro u hu
    obtain ⟨m, _, rfl⟩ := List.mem_map.mp hu
    exact ⟨rfl, m.name, by simp [ofDefinition, String.append_assoc]⟩

theorem ofFile_filePath {f : SourceFile} {s : Component} (h : s ∈ ofFile site f) :
    s.filePath = site.filePath := by
  obtain ⟨_, _, _, _, _, rfl⟩ := mem_ofFile h
  rfl

/-- A name without dots is not that of a method. -/
theorem not_method_id (plain : '.' ∉ n.toList) {m : String} : d.name ++ "." ++ m ≠ n := by
  rintro rfl
  exact plain (by simp)

/-- Among the components of a definition at most the first has the id of a name without dots. -/
theorem filter_ofTopLevel (site : Site) (t : SourceText) (d : Definition) (plain : '.' ∉ n.toList) :
    ∃ s, s.kind.word = (Origin.Kind.ofDefinition d.kind).word ∧
      ((ofTopLevel site t d).filter fun s => s.id == site.moduleName ++ "." ++ n) =
        if d.name = n then [s] else [] := by
  obtain ⟨s, rest, heq, hid, hkind, hrest⟩ := ofTopLevel_eq_cons site t d
  have methods : (rest.filter fun s => s.id == site.moduleName ++ "." ++ n) = [] := by
    rw [List.filter_eq_nil_iff]
    intro u hu same
    obtain ⟨_, m, hm⟩ := hrest u hu
    exact not_method_id plain (name_of_id (hm.symm.trans (beq_iff_eq.mp same)))
  refine ⟨s, hkind, ?_⟩
  rw [heq]
  by_cases own : d.name = n
  · rw [List.filter_cons_of_pos (by simp [hid, own]), methods, if_pos own]
  · rw [List.filter_cons_of_neg, methods, if_neg own]
    exact fun same => own (name_of_id (hid.symm.trans (beq_iff_eq.mp same)))

/-- Under the id of a function or class the last definition of the name comes last. -/
theorem getLast?_ofFile_own {f : SourceFile} (plain : '.' ∉ n.toList)
    (last : LastSuch (fun d => d.name = n) f.definitions d) :
    ∃ s, ((ofFile site f).filter fun s => s.id == site.moduleName ++ "." ++ n).getLast? = some s ∧
      s.kind.word = (Origin.Kind.ofDefinition d.kind).word := by
  obtain ⟨before, after, heq, own, later⟩ := last
  obtain ⟨s, hkind, hs⟩ := filter_ofTopLevel site f.text d plain
  rw [if_pos own] at hs
  have none : ((after.flatMap (ofTopLevel site f.text)).filter fun s =>
      s.id == site.moduleName ++ "." ++ n) = [] := by
    rw [List.filter_flatMap, List.flatMap_eq_nil_iff]
    intro e he
    obtain ⟨_, _, nothing⟩ := filter_ofTopLevel site f.text e plain
    rw [nothing, if_neg (later e he)]
  refine ⟨s, ?_, hkind⟩
  rw [ofFile, heq, List.flatMap_append, List.flatMap_cons, List.filter_append, List.filter_append,
    hs, none, List.append_nil, List.getLast?_concat]

/-- Under the id of a method there are methods only. -/
theorem getLast?_ofFile_method (site : Site) {f : SourceFile}
    (plain : ∀ d ∈ f.definitions, '.' ∉ d.name.toList) {c m : Definition} (hc : c ∈ f.definitions)
    (isClass : c.kind = .classDef) (hm : m ∈ c.methods) :
    ∃ s, ((ofFile site f).filter fun s =>
        s.id == site.moduleName ++ "." ++ (c.name ++ "." ++ m.name)).getLast? = some s ∧
      s.kind = .method := by
  let found := ofDefinition site f.text (site.moduleName ++ "." ++ c.name ++ "." ++ m.name) .method
    (headerLineOf f.text m) m
  have present : found ∈ ofFile site f := by
    refine List.mem_flatMap.mpr ⟨c, hc, ?_⟩
    rw [ofTopLevel, isClass]
    exact List.mem_cons_of_mem _ (List.mem_map.mpr ⟨m, hm, rfl⟩)
  have kept : found ∈ (ofFile site f).filter fun s =>
      s.id == site.moduleName ++ "." ++ (c.name ++ "." ++ m.name) :=
    List.mem_filter.mpr ⟨present, by simp [found, ofDefinition, String.append_assoc]⟩
  cases hlast : ((ofFile site f).filter fun s =>
      s.id == site.moduleName ++ "." ++ (c.name ++ "." ++ m.name)).getLast? with
  | none =>
    rw [List.getLast?_eq_none_iff.mp hlast] at kept
    cases kept
  | some u =>
    refine ⟨u, rfl, ?_⟩
    obtain ⟨hu, same⟩ := List.mem_filter.mp (List.mem_of_getLast? hlast)
    obtain ⟨d, hd, hu⟩ := List.mem_flatMap.mp hu
    obtain ⟨own, rest, heq, hown, _, hrest⟩ := ofTopLevel_eq_cons site f.text d
    rw [heq] at hu
    rcases List.mem_cons.mp hu with rfl | hu
    · have clash := name_of_id (hown.symm.trans (beq_iff_eq.mp same))
      exact absurd clash.symm (not_method_id (plain d hd))
    · exact (hrest u hu).1

end Component

namespace Python

theorem Cache.agrees_foldl_add (tree : FileTree) (paths : List String) {c : Cache}
    (h : c.Agrees tree) :
    (paths.foldl (fun c path => c.add path (load tree path).toOption) c).Agrees tree := by
  induction paths generalizing c with
  | nil => exact h
  | cons path paths ih => exact ih (agrees_add h path)

theorem Cache.agrees_foldl_touch (tree : FileTree) (paths : List String) {c : Cache}
    (h : c.Agrees tree) : (paths.foldl (fun c path => c.touch tree path) c).Agrees tree := by
  induction paths generalizing c with
  | nil => exact h
  | cons path paths ih => exact ih (agrees_touch h path)

theorem Definition.method_of_stmt {c : Definition} {header : Header} {body : List Stmt}
    (h : Stmt.definition header body ∈ c.body) (isFunction : header.kind = .function) :
    ⟨header, body⟩ ∈ c.methods :=
  List.mem_filter.mpr ⟨List.mem_filterMap.mpr ⟨_, h, rfl⟩, beq_iff_eq.mpr isFunction⟩

end Python

namespace Extraction
variable {tree : FileTree} {index : ModuleIndex}

theorem yielded_of_load {path : String} {source : SourceFile} (h : load tree path = .ok source) :
    yielded tree index path = Component.ofFile (site index path) source := by
  rw [yielded, h]
  exact List.flatMap_singleton ..

variable {o : Origin}

theorem componentId_eq (placed : index.nameOf o.filePath ≠ "") (inside : o.qualifiedName ≠ "")
    (kind : o.kind ≠ .module) :
    o.componentId index = (site index o.filePath).moduleName ++ "." ++ o.qualifiedName := by
  rw [Origin.componentId, Origin.below, if_neg (by simp [kind, inside]),
    if_neg (by simpa using placed), site]

/-- The last component of a file with the id of an origin is of the origin's kind. -/
def Agree (tree : FileTree) (index : ModuleIndex) (o : Origin) : Prop :=
  ∃ s,
    ((yielded tree index o.filePath).filter fun s => s.id == o.componentId index).getLast? =
      some s ∧ s.kind.word = o.kind.word

theorem agree_own {source : SourceFile} {d : Definition} (placed : index.nameOf o.filePath ≠ "")
    (kind : o.kind = .ofDefinition d.kind) (whole : o.qualifiedName = o.name)
    (loaded : load tree o.filePath = .ok source)
    (last : LastSuch (fun d => d.name = o.name) source.definitions d) : Agree tree index o := by
  have named : Text.isIdentifier o.name = true := by
    obtain ⟨before, after, heq, own, _⟩ := last
    rw [← own]
    exact load_named loaded d (by simp [heq])
  have inside : o.qualifiedName ≠ "" := whole ▸ Text.isIdentifier_ne_empty named
  have outside : o.kind ≠ .module := by
    rw [kind]
    cases d.kind <;> exact nofun
  rw [Agree, componentId_eq placed inside outside, yielded_of_load loaded, whole, kind]
  exact Component.getLast?_ofFile_own (Text.isIdentifier_no_dot named) last

theorem agree_method {source : SourceFile} {c m : Definition}
    (placed : index.nameOf o.filePath ≠ "") (kind : o.kind = .method)
    (whole : o.qualifiedName = c.name ++ "." ++ m.name) (loaded : load tree o.filePath = .ok source)
    (hc : c ∈ source.definitions) (isClass : c.kind = .classDef) (hm : m ∈ c.methods) :
    Agree tree index o := by
  have plain : ∀ d ∈ source.definitions, '.' ∉ d.name.toList := fun d hd =>
    Text.isIdentifier_no_dot (load_named loaded d hd)
  have inside : o.qualifiedName ≠ "" := by simp [whole]
  obtain ⟨s, hs, hmethod⟩ := Component.getLast?_ofFile_method
    (site index o.filePath) plain hc isClass hm
  rw [Agree, componentId_eq placed inside (by simp [kind]), yielded_of_load loaded, whole, kind]
  exact ⟨s, hs, by rw [hmethod]; rfl⟩

theorem agree_of_genuine (genuine : o.Genuine tree) (kind : o.kind ≠ .variable ∧ o.kind ≠ .module)
    (placed : index.nameOf o.filePath ≠ "") : Agree tree index o := by
  rw [Origin.Genuine] at genuine
  split at genuine
  · obtain ⟨whole, source, d, loaded, last, hkind⟩ := genuine
    exact agree_own placed hkind whole loaded last
  · obtain ⟨whole, source, d, loaded, last, hkind⟩ := genuine
    exact agree_own placed hkind whole loaded last
  · rename_i isVariable
    exact absurd isVariable kind.1
  · rename_i isMethod
    obtain ⟨source, c, loaded, last, whole, header, body, hbody, hfunction, hheader⟩ := genuine
    obtain ⟨before, after, heq, ⟨_, isClass⟩, _⟩ := last
    rw [← hheader] at whole
    exact agree_method placed isMethod whole loaded (by simp [heq]) isClass
      (Definition.method_of_stmt hbody hfunction)
  · rename_i isModule
    exact absurd isModule kind.2

def Defines (tree : FileTree) (index : ModuleIndex) (path id : String) : Prop :=
  ∃ s ∈ yielded tree index path, s.id = id

theorem getLast?_flatMap {α β : Type} {f : α → List β} {xs : List α} {x : α} (hx : x ∈ xs)
    (others : ∀ y ∈ xs, y ≠ x → f y = []) : (xs.flatMap f).getLast? = (f x).getLast? := by
  induction xs with
  | nil => cases hx
  | cons y xs ih =>
    have later : ∀ z ∈ xs, z ≠ x → f z = [] := fun z hz => others z (List.mem_cons_of_mem _ hz)
    rw [List.flatMap_cons, List.getLast?_append]
    by_cases hm : x ∈ xs
    · rw [ih hm later]
      by_cases hy : y = x
      · rw [hy, Option.or_self]
      · rw [others y (List.mem_cons_self ..) hy, List.getLast?_nil, Option.or_none]
    · have none : xs.flatMap f = [] :=
        List.flatMap_eq_nil_iff.mpr fun z hz => later z hz fun heq => hm (heq ▸ hz)
      obtain rfl := (List.mem_cons.mp hx).resolve_right hm
      rw [none, List.getLast?_nil, Option.none_or]

theorem mem_keys_gathered {paths : List String} {path id : String} (hp : path ∈ paths)
    (defined : Defines tree index path id) : id ∈ (gathered tree index paths).components.keys := by
  obtain ⟨s, hs, hid⟩ := defined
  have kept : s ∈ (paths.flatMap (yielded tree index)).filter fun s => s.id == id :=
    List.mem_filter.mpr ⟨List.mem_flatMap.mpr ⟨path, hp, hs⟩, by simpa using hid⟩
  rw [← Table.contains_iff, Table.contains, gathered, get?_catalogued, List.getLast?_isSome]
  exact List.ne_nil_of_mem kept

theorem get?_gathered {paths : List String} {path id : String} (hp : path ∈ paths)
    (alone : ∀ p ∈ (gathered tree index paths).parsedFiles, p ≠ path → ¬ Defines tree index p id) :
    (gathered tree index paths).components.get? id =
      ((yielded tree index path).filter fun s => s.id == id).getLast? := by
  rw [gathered, get?_catalogued, List.filter_flatMap]
  apply getLast?_flatMap hp
  intro p hmem other
  rw [List.filter_eq_nil_iff]
  intro s hs same
  -- a file that yields a component was read
  have parsed : p ∈ (gathered tree index paths).parsedFiles := by
    refine List.mem_filter.mpr ⟨hmem, ?_⟩
    cases hload : (load tree p).toOption with
    | none => simp [yielded, hload] at hs
    | some source => rfl
  exact alone p parsed other ⟨s, hs, by simpa using same⟩

end Extraction

def Extraction.world (e : Extraction) (tree : FileTree) (opened : List String) : World :=
  .ofTree e.index tree (opened.foldl (fun c path => c.touch tree path) e.cache)

theorem Extraction.gathered_agrees (tree : FileTree) (index : ModuleIndex)
    (paths opened : List String) :
    (opened.foldl (fun c path => c.touch tree path) (gathered tree index paths).cache).Agrees
      tree :=
  Cache.agrees_foldl_touch tree opened (Cache.agrees_foldl_add tree paths (Cache.agrees_empty tree))

/-- Whatever resolution finds in a file that was read, a function, a class or a method, is a
component under the same id, of the same file and kind unless another file has a component of that
id. It does not matter which files were opened in between. -/
theorem origins_are_catalogued [Text.Collator] (tree : FileTree) (rootDir : String)
    (files : List String) (lanes : Float) (verbose : Bool) (log : List Log.Entry) (e : Extraction)
    (extracted : (Extraction.run tree rootDir files lanes verbose).value log = .ok e)
    (opened : List String) (steps : Nat) (file name : String) (o : Origin)
    (found : ((e.world tree opened).resolve steps name file).origin = some o ∨
      ((e.world tree opened).trueOrigin steps file name).origin = some o)
    (kind : o.kind ≠ .variable ∧ o.kind ≠ .module) (parsed : o.filePath ∈ e.parsedFiles)
    (placed : e.index.nameOf o.filePath ≠ "") :
    o.componentId e.index ∈ e.components.keys ∧
      ((∀ path ∈ e.parsedFiles, path ≠ o.filePath →
          ¬ Extraction.Defines tree e.index path (o.componentId e.index)) →
        ∃ s, e.components.get? (o.componentId e.index) = some s ∧ s.filePath = o.filePath ∧
          s.kind.word = o.kind.word) := by
  obtain ⟨index, paths, rfl⟩ := Extraction.run_gathered extracted
  have reads : ((Extraction.gathered tree index paths).world tree opened).Reads tree :=
    World.ofTree_reads (Extraction.gathered_agrees tree index paths opened)
  have genuine : o.Genuine tree := by
    rcases found with found | found
    · exact World.resolve_genuine reads found
    · exact World.trueOrigin_genuine reads found
  obtain ⟨s, hs, hkind⟩ := Extraction.agree_of_genuine genuine kind placed
  have hp : o.filePath ∈ paths := (List.mem_filter.mp parsed).1
  obtain ⟨hyield, hid⟩ := List.mem_filter.mp (List.mem_of_getLast? hs)
  constructor
  · exact Extraction.mem_keys_gathered hp ⟨s, hyield, by simpa using hid⟩
  · intro alone
    refine ⟨s, (Extraction.get?_gathered hp alone).trans hs, ?_, hkind⟩
    obtain ⟨source, _, hs⟩ := List.mem_flatMap.mp hyield
    exact Component.ofFile_filePath hs

section
set_option maxRecDepth 100000

open scoped Text.Alphabet

def aliasExtraction : Extraction :=
  .gathered aliasTree (Extraction.indexOf "/r" ["a.py", "b.py"])
    (Extraction.takenBy 4 "/r" ["a.py", "b.py"])

theorem mem_alias_files {path : String} :
    path ∈ Extraction.takenBy 4 "/r" ["a.py", "b.py"] ↔ path ∈ ["/r/a.py", "/r/b.py"] := by
  have listed : ((["a.py", "b.py"].map (Path.toAbsolute (Path.resolve "/" "/r"))).eraseDups) =
      ["/r/a.py", "/r/b.py"] := by decide +kernel
  rw [Extraction.takenBy, if_neg (by decide), Extraction.candidates, listed]
  exact (Text.Collation.sortBy_perm _ _).mem_iff

theorem alias_origin_catalogued :
    (Extraction.run aliasTree "/r" ["a.py", "b.py"] 4 false).value [] = .ok aliasExtraction ∧
      ((aliasExtraction.world aliasTree ["/r/a.py"]).resolve 65 "D.m" "a.py").origin =
        some ⟨"/r/b.py", "m", "C.m", .method⟩ ∧
      "b.C.m" ∈ aliasExtraction.components.keys ∧
      ∃ s, aliasExtraction.components.get? "b.C.m" = some s ∧ s.filePath = "/r/b.py" ∧
        s.kind.word = "method" := by
  have lanes : Number.toPositive? 4 = some 4 := by decide +kernel
  have run : (Extraction.run aliasTree "/r" ["a.py", "b.py"] 4 false).value [] =
      .ok aliasExtraction :=
    Extraction.run_of_lanes lanes ..
  have found : ((aliasExtraction.world aliasTree ["/r/a.py"]).resolve 65 "D.m" "a.py").origin =
      some ⟨"/r/b.py", "m", "C.m", .method⟩ := by
    rw [Extraction.world, aliasExtraction, World.ofTree_of_agrees
      (Extraction.gathered_agrees _ _ _ _)]
    decide +kernel
  have parsed : "/r/b.py" ∈ aliasExtraction.parsedFiles :=
    List.mem_filter.mpr ⟨mem_alias_files.mpr (by simp), by decide +kernel⟩
  have placed : aliasExtraction.index.nameOf "/r/b.py" ≠ "" := by decide +kernel
  have id : Origin.componentId aliasExtraction.index ⟨"/r/b.py", "m", "C.m", .method⟩ =
      "b.C.m" := by
    decide +kernel
  have alone : ∀ path ∈ aliasExtraction.parsedFiles, path ≠ "/r/b.py" →
      ¬ Extraction.Defines aliasTree aliasExtraction.index path "b.C.m" := by
    rintro path hpath other ⟨s, hs, _⟩
    have listed := mem_alias_files.mp (List.mem_filter.mp hpath).1
    obtain rfl : path = "/r/a.py" := by simpa [other] using listed
    have nothing : Extraction.yielded aliasTree aliasExtraction.index "/r/a.py" = [] := by
      decide +kernel
    rw [nothing] at hs
    cases hs
  have result := origins_are_catalogued aliasTree "/r" ["a.py", "b.py"] 4 false
    [] aliasExtraction run ["/r/a.py"] 65 "a.py" "D.m" _ (Or.inl found) (by decide) parsed placed
  rw [id] at result
  exact ⟨run, found, result.1, result.2 alone⟩

end

end RepoAtlas
