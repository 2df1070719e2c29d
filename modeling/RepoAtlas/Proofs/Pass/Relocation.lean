import RepoAtlas.Pass.Structure
import RepoAtlas.Proofs.Extraction.Isolation
import RepoAtlas.Proofs.Origin.Catalogued
import RepoAtlas.Text.Alphabet

/-!
Finding a definition again. A component holds no reference to the definition that it was made from;
the definition is looked up by name in the file, a method in the last class of its name. Since the
component that extraction keeps is the last one with its id, the look-up leads back to where it came
from. Only a method whose class is defined once more, without it, is not found.
-/
namespace RepoAtlas
open Text Python

structure Component.Trace where
  component : Component
  definition : Definition
  /-- The class of a method. -/
  owner : Option Definition
  /-- What the file defines at its top level after the definition or, for a method, after its
  class. -/
  later : List Definition

namespace Component
variable {site : Site} {t : SourceText} {d : Definition} {later : List Definition}

def sources (d : Definition) : List (Definition × Option Definition) :=
  (d, none) :: if d.kind = .classDef then d.methods.map fun m => (m, some d) else []

def traceTopLevel (site : Site) (t : SourceText) (d : Definition) (later : List Definition) :
    List Trace :=
  List.zipWith (fun s source => ⟨s, source.1, source.2, later⟩) (ofTopLevel site t d) (sources d)

def traces (site : Site) (t : SourceText) : List Definition → List Trace
  | [] => []
  | d :: later => traceTopLevel site t d later ++ traces site t later

def ownTrace (site : Site) (t : SourceText) (d : Definition) (later : List Definition) (kind : Kind)
    (headerEnd : Nat) : Trace :=
  ⟨ofDefinition site t (site.moduleName ++ "." ++ d.name) kind headerEnd d, d, none, later⟩

def methodTrace (site : Site) (t : SourceText) (d : Definition) (later : List Definition)
    (m : Definition) : Trace :=
  ⟨ofDefinition site t (site.moduleName ++ "." ++ d.name ++ "." ++ m.name) .method
    (headerLineOf t m) m, m, some d, later⟩

theorem traceTopLevel_function (h : d.kind = .function) :
    traceTopLevel site t d later = [ownTrace site t d later .function (headerLineOf t d)] := by
  rw [traceTopLevel, ofTopLevel, h, sources, if_neg (by simp [h])]
  rfl

theorem traceTopLevel_class (h : d.kind = .classDef) :
    traceTopLevel site t d later =
      [ownTrace site t d later .classDef (outlineEnd t d)] ++
        d.methods.map (methodTrace site t d later) := by
  rw [traceTopLevel, ofTopLevel, h, sources, if_pos h]
  simp [List.zipWith_map, ownTrace, methodTrace]

theorem traceTopLevel_component :
    (traceTopLevel site t d later).map (·.component) = ofTopLevel site t d := by
  cases h : d.kind with
  | function =>
    rw [traceTopLevel_function h, ofTopLevel, h]
    rfl
  | classDef =>
    rw [traceTopLevel_class h, ofTopLevel, h]
    simp [ownTrace, methodTrace]

theorem traces_component (ds : List Definition) :
    (traces site t ds).map (·.component) = ds.flatMap (ofTopLevel site t) := by
  induction ds with
  | nil => rfl
  | cons d later ih => rw [traces, List.map_append, traceTopLevel_component, ih, List.flatMap_cons]

/-- How the last component of an id arises from a definition. -/
inductive Stems (site : Site) (t : SourceText) (d : Definition) (later : List Definition) :
    Trace → Prop where
  | function : d.kind = .function →
      Stems site t d later (ownTrace site t d later .function (headerLineOf t d))
  | classDef : d.kind = .classDef →
      Stems site t d later (ownTrace site t d later .classDef (outlineEnd t d))
  | method {m : Definition} : d.kind = .classDef → Structure.lastMethod? d m.name = some m →
      Stems site t d later (methodTrace site t d later m)

theorem stems_of_last {id : String} {y : Trace}
    (h : ((traceTopLevel site t d later).filter fun y => y.component.id == id).getLast? = some y) :
    Stems site t d later y := by
  have own := (List.mem_filter.mp (List.mem_of_getLast? h)).2
  cases hk : d.kind with
  | function =>
    rw [traceTopLevel_function hk] at h
    obtain rfl := List.mem_singleton.mp (List.mem_filter.mp (List.mem_of_getLast? h)).1
    exact .function hk
  | classDef =>
    rw [traceTopLevel_class hk, List.filter_append, List.getLast?_append, List.filter_map,
      List.getLast?_map] at h
    cases hlast : (d.methods.filter ((fun y => y.component.id == id) ∘
        methodTrace site t d later)).getLast? with
    | none =>
      rw [hlast, Option.map_none, Option.none_or] at h
      obtain rfl := List.mem_singleton.mp (List.mem_filter.mp (List.mem_of_getLast? h)).1
      exact .classDef hk
    | some m =>
      rw [hlast, Option.map_some, Option.some_or, Option.some.injEq] at h
      subst h
      refine .method hk ?_
      -- methods of one class share an id exactly if they share a name
      rw [Structure.lastMethod?, ← hlast]
      obtain rfl := beq_iff_eq.mp own
      congr 2
      funext u
      rw [Bool.eq_iff_iff]
      simp [methodTrace, ofDefinition]

theorem last_of_traces {p : Trace → Bool} {ds : List Definition} {y : Trace}
    (h : ((traces site t ds).filter p).getLast? = some y) :
    ∃ before d later, ds = before ++ d :: later ∧
      ((traceTopLevel site t d later).filter p).getLast? = some y ∧
      (traces site t later).filter p = [] := by
  induction ds with
  | nil => cases h
  | cons d later ih =>
    rw [traces, List.filter_append, List.getLast?_append] at h
    cases hlast : ((traces site t later).filter p).getLast? with
    | none =>
      rw [hlast, Option.none_or] at h
      exact ⟨[], d, later, rfl, h, List.getLast?_eq_none_iff.mp hlast⟩
    | some u =>
      rw [hlast, Option.some_or, Option.some.injEq] at h
      subst h
      obtain ⟨before, e, rest, rfl, found, free⟩ := ih hlast
      exact ⟨d :: before, e, rest, rfl, found, free⟩

structure Trace.Describes (y : Trace) (t : SourceText) : Prop where
  startLine : y.component.startLine = startLineOf t y.definition
  endLine : y.component.endLine = endLineOf t y.definition
  sourceCode : y.component.sourceCode = t.text y.definition.header.span

theorem Stems.describes {y : Trace} (h : Stems site t d later y) : y.Describes t := by
  cases h <;> exact ⟨rfl, rfl, rfl⟩

theorem Stems.filePath {y : Trace} (h : Stems site t d later y) :
    y.component.filePath = site.filePath := by
  cases h <;> rfl

def Absent (site : Site) (t : SourceText) (ds : List Definition) (id : String) : Prop :=
  ∀ d ∈ ds, ∀ s ∈ ofTopLevel site t d, s.id ≠ id

theorem absent_of_traces {ds : List Definition} {id : String}
    (h : ((traces site t ds).filter fun y => y.component.id == id) = []) : Absent site t ds id := by
  intro d hd s hs same
  have made : s ∈ (traces site t ds).map (·.component) := by
    rw [traces_component]
    exact List.mem_flatMap.mpr ⟨d, hd, hs⟩
  obtain ⟨y, hy, rfl⟩ := List.mem_map.mp made
  exact List.filter_eq_nil_iff.mp h y hy (beq_iff_eq.mpr same)

theorem Absent.own {n : String} (absent : Absent site t later (site.moduleName ++ "." ++ n)) :
    ∀ e ∈ later, e.name ≠ n := by
  rintro e he rfl
  obtain ⟨s, rest, heq, hid, _⟩ := ofTopLevel_eq_cons site t e
  exact absent e he s (by simp [heq]) hid

theorem Absent.method {n m : String}
    (absent : Absent site t later (site.moduleName ++ "." ++ n ++ "." ++ m)) :
    ∀ e ∈ later, e.kind = .classDef → e.name = n → ∀ u ∈ e.methods, u.name ≠ m := by
  rintro e he isClass rfl u hu rfl
  refine absent e he (methodTrace site t e later u).component ?_ rfl
  rw [ofTopLevel, isClass]
  exact List.mem_cons_of_mem _ (List.mem_map.mpr ⟨u, hu, rfl⟩)

/-- The class of the method is defined once more, without the method. -/
def Trace.Replaced (y : Trace) : Prop :=
  ∃ owner, y.owner = some owner ∧ ∃ d ∈ y.later, d.kind = .classDef ∧ d.name = owner.name ∧
    ∀ m ∈ d.methods, m.name ≠ y.definition.name

end Component

namespace Python

def Definition.alike (d : Definition) (ds : List Definition) : List Definition :=
  ds.filter fun e => e.name == d.name && d.kind == e.kind

theorem Definition.mem_alike {d e : Definition} {ds : List Definition} :
    e ∈ d.alike ds ↔ e ∈ ds ∧ e.name = d.name ∧ d.kind = e.kind := by
  rw [alike, List.mem_filter, Bool.and_eq_true, beq_iff_eq, beq_iff_eq]

/-- The last definition of a name and kind, seen from one of them. -/
theorem SourceFile.find?_from {f : SourceFile} {before later : List Definition} {d : Definition}
    (heq : f.definitions = before ++ d :: later) :
    f.find? d.name (some d.kind) = (d.alike later).getLast?.or (some d) := by
  have searched : f.find? d.name (some d.kind) = (d.alike f.definitions).getLast? := rfl
  rw [searched, Definition.alike, heq, List.filter_append, List.getLast?_append,
    List.filter_cons_of_pos (by simp), List.getLast?_cons, Option.some_or, ← Definition.alike]
  cases (d.alike later).getLast? <;> rfl

end Python

namespace Structure
open Component

section
variable {c : Component} {m n : String}

theorem localName_below (hid : c.id = m ++ "." ++ n) (free : '.' ∉ n.toList) : localName c = n := by
  rw [localName, lastSegment, hid, segments_append_free m free, List.getLastD_concat]

theorem ownerId_below (hid : c.id = m ++ "." ++ n) (free : '.' ∉ n.toList) : ownerId c = m := by
  rw [ownerId, hid, segments_append_free m free, List.dropLast_concat]
  exact joinWith_segments '.' m

variable {catalog : Catalog} {world : World} {source : SourceFile}

theorem definitionOf_function (hview : world.view c.filePath = some source)
    (hk : c.kind = .function) :
    definitionOf catalog world c = source.find? (localName c) (some .function) := by
  simp [definitionOf, hview, hk]

theorem definitionOf_class (hview : world.view c.filePath = some source) (hk : c.kind = .classDef) :
    definitionOf catalog world c = source.find? (localName c) (some .classDef) := by
  simp [definitionOf, hview, hk]

theorem definitionOf_method (hview : world.view c.filePath = some source) (hk : c.kind = .method)
    {owner : Component} (known : catalog.get? (ownerId c) = some owner) :
    definitionOf catalog world c =
      (source.find? (localName owner) (some .classDef)).bind fun d => lastMethod? d
        (localName c) := by
  simp [definitionOf, hview, hk, known]

end

section
variable {catalog : Catalog} {world : World} {source : SourceFile} {site : Site}
  {before later : List Definition} {d : Definition} {y : Trace}

theorem find?_last (heq : source.definitions = before ++ d :: later)
    (absent : Absent site source.text later (site.moduleName ++ "." ++ d.name)) :
    source.find? d.name (some d.kind) = some d := by
  have none : d.alike later = [] := by
    rw [List.eq_nil_iff_forall_not_mem]
    intro e again
    obtain ⟨he, same, _⟩ := Definition.mem_alike.mp again
    exact absent.own e he same
  rw [SourceFile.find?_from heq, none, List.getLast?_nil, Option.none_or]

theorem ownerId_stems (plain_methods : ∀ m ∈ d.methods, '.' ∉ m.name.toList)
    (stems : Stems site source.text d later y) (hk : y.component.kind = .method) :
    ownerId y.component = site.moduleName ++ "." ++ d.name := by
  cases stems with
  | function => cases hk
  | classDef => cases hk
  | @method m _ last =>
    have plain_m := plain_methods m (List.mem_filter.mp (List.mem_of_getLast? last)).1
    exact ownerId_below rfl plain_m

variable (hview : world.view site.filePath = some source)
variable (heq : source.definitions = before ++ d :: later) (plain : '.' ∉ d.name.toList)
variable {owner : Component} (known : catalog.get? (site.moduleName ++ "." ++ d.name) = some owner)
variable (hid : owner.id = site.moduleName ++ "." ++ d.name)
include hview heq plain known hid

/-- What the look-up of a method finds hangs on what comes after its class. -/
theorem definitionOf_last_method {m : Definition} (plain_m : '.' ∉ m.name.toList)
    (hk : d.kind = .classDef) (last : lastMethod? d m.name = some m)
    (absent : Absent site source.text later (site.moduleName ++ "." ++ d.name ++ "." ++ m.name)) :
    let y := methodTrace site source.text d later m
    (definitionOf catalog world y.component = some m ∧ ¬ y.Replaced) ∨
      (definitionOf catalog world y.component = none ∧ y.Replaced) := by
  intro y
  have name : localName y.component = m.name := localName_below rfl plain_m
  have owned : ownerId y.component = site.moduleName ++ "." ++ d.name := ownerId_below rfl plain_m
  rw [definitionOf_method hview rfl (owned ▸ known), localName_below hid plain, name,
    ← hk, SourceFile.find?_from heq]
  cases hlast : (d.alike later).getLast? with
  | none =>
    refine .inl ⟨last, ?_⟩
    rintro ⟨_, ⟨⟩, e, he, isClass, same, _⟩
    have again : e ∈ d.alike later := Definition.mem_alike.mpr ⟨he, same, hk.trans isClass.symm⟩
    rw [List.getLast?_eq_none_iff.mp hlast] at again
    cases again
  | some e =>
    obtain ⟨he, same, alike⟩ := Definition.mem_alike.mp (List.mem_of_getLast? hlast)
    have isClass : e.kind = .classDef := alike.symm.trans hk
    have without := absent.method e he isClass same
    refine .inr ⟨?_, d, rfl, e, he, isClass, same, without⟩
    refine List.getLast?_eq_none_iff.mpr (List.filter_eq_nil_iff.mpr ?_)
    intro u hu own
    exact without u hu (beq_iff_eq.mp own)

/-- The last component of its id in a file is found again, unless its class was replaced. -/
theorem definitionOf_stems (plain_methods : ∀ m ∈ d.methods, '.' ∉ m.name.toList)
    (stems : Stems site source.text d later y)
    (absent : Absent site source.text later y.component.id) :
    (definitionOf catalog world y.component = some y.definition ∧ ¬ y.Replaced) ∨
      (definitionOf catalog world y.component = none ∧ y.component.kind = .method ∧
        y.Replaced) := by
  cases stems with
  | function hk =>
    left
    constructor
    · rw [definitionOf_function hview rfl, localName_below rfl plain, ← hk]
      exact find?_last heq absent
    · rintro ⟨_, ⟨⟩, _⟩
  | classDef hk =>
    left
    constructor
    · rw [definitionOf_class hview rfl, localName_below rfl plain, ← hk]
      exact find?_last heq absent
    · rintro ⟨_, ⟨⟩, _⟩
  | @method m hk last =>
    have plain_m := plain_methods m (List.mem_filter.mp (List.mem_of_getLast? last)).1
    rcases definitionOf_last_method hview heq plain known hid plain_m hk last
      absent with found | lost
    · exact .inl found
    · exact .inr ⟨lost.1, rfl, lost.2⟩

end

end Structure

namespace Extraction
variable {tree : FileTree}

def traces (tree : FileTree) (e : Extraction) : List Component.Trace :=
  e.parsedFiles.flatMap fun path => (load tree path).toOption.toList.flatMap fun source =>
    Component.traces (site e.index path) source.text source.definitions

theorem traces_component (tree : FileTree) (e : Extraction) :
    (e.traces tree).map (·.component) = e.collected tree := by
  simp only [traces, collected, List.map_flatMap, Component.traces_component]
  rfl

theorem exists_of_getLast?_flatMap {α β : Type} {f : α → List β} {p : β → Bool} {xs : List α}
    {y : β} (h : ((xs.flatMap f).filter p).getLast? = some y) :
    ∃ x ∈ xs, ((f x).filter p).getLast? = some y := by
  induction xs with
  | nil => cases h
  | cons x xs ih =>
    rw [List.flatMap_cons, List.filter_append, List.getLast?_append] at h
    cases hlast : ((xs.flatMap f).filter p).getLast? with
    | none =>
      rw [hlast, Option.none_or] at h
      exact ⟨x, List.mem_cons_self .., h⟩
    | some u =>
      rw [hlast, Option.some_or] at h
      obtain ⟨z, hz, found⟩ := ih (hlast.trans h)
      exact ⟨z, List.mem_cons_of_mem _ hz, found⟩

theorem last_of_traces {e : Extraction} {p : Component.Trace → Bool} {y : Component.Trace}
    (h : ((e.traces tree).filter p).getLast? = some y) :
    ∃ path ∈ e.parsedFiles, ∃ source, load tree path = .ok source ∧
      ((Component.traces (site e.index path) source.text source.definitions).filter p).getLast? =
        some y := by
  obtain ⟨path, parsed, found⟩ := exists_of_getLast?_flatMap h
  obtain ⟨source, loaded, found⟩ := exists_of_getLast?_flatMap found
  refine ⟨path, parsed, source, ?_, found⟩
  cases hload : load tree path with
  | error e => simp [hload, Except.toOption] at loaded
  | ok f => simpa [hload, Except.toOption, eq_comm] using loaded

theorem get?_gathered_traces {index : ModuleIndex} {paths : List String} (id : String) :
    (gathered tree index paths).components.get? id =
      ((((gathered tree index paths).traces tree).filter fun y => y.component.id ==
        id).getLast?).map (·.component) := by
  rw [← List.getLast?_map, ← Function.comp_def (fun s : Component => s.id == id), ← List.filter_map,
    traces_component, collected_gathered]
  exact get?_catalogued _ id

/-- A definition of a file that was read is kept under its id, or another one is. -/
theorem definition_kept {index : ModuleIndex} {paths : List String} {path : String}
    {source : SourceFile} (parsed : path ∈ (gathered tree index paths).parsedFiles)
    (loaded : load tree path = .ok source) {d : Definition} (hd : d ∈ source.definitions) :
    ∃ s, (gathered tree index paths).components.get?
      ((site index path).moduleName ++ "." ++ d.name) =
        some s ∧ s.id = (site index path).moduleName ++ "." ++ d.name := by
  obtain ⟨own, rest, heq, hid, _⟩ := Component.ofTopLevel_eq_cons (site index path) source.text d
  have made : own ∈ yielded tree index path := by
    rw [yielded_of_load loaded]
    exact List.mem_flatMap.mpr ⟨d, hd, by simp [heq]⟩
  have key := mem_keys_gathered (List.mem_filter.mp parsed).1 ⟨own, made, hid⟩
  obtain ⟨s, hs⟩ := Option.isSome_iff_exists.mp (Table.contains_iff.mpr key)
  refine ⟨s, hs, ?_⟩
  rw [gathered, get?_catalogued] at hs
  exact beq_iff_eq.mp (List.mem_filter.mp (List.mem_of_getLast? hs)).2

end Extraction

/-- Every component that extraction keeps is found again, by name, as the definition that it was
made from, however many others bear its name or id; only a method whose class is replaced by a later
one that lacks it is not. -/
theorem definitions_found_again [Collator] (tree : FileTree) (rootDir : String)
    (files : List String) (lanes : Float) (verbose : Bool) (log : List Log.Entry) (e : Extraction)
    (extracted : (Extraction.run tree rootDir files lanes verbose).value log = .ok e)
    (opened : List String) (id : String) (c : Component) (kept : e.components.get? id = some c) :
    (e.traces tree).map (·.component) = e.collected tree ∧
    ∃ source y, load tree c.filePath = .ok source ∧
      ((e.traces tree).filter fun y => y.component.id == id).getLast? = some y ∧
      y.component = c ∧ y.Describes source.text ∧
      ((Structure.definitionOf ⟨e.components⟩ (e.world tree opened) c = some y.definition ∧
          ¬ y.Replaced) ∨
        (Structure.definitionOf ⟨e.components⟩ (e.world tree opened) c = none ∧ c.kind = .method ∧
          y.Replaced)) ∧
      (c.kind = .method → Structure.ownerId c ∈ e.components.keys) := by
  obtain ⟨index, paths, rfl⟩ := Extraction.run_gathered extracted
  refine ⟨Extraction.traces_component tree _, ?_⟩
  rw [Extraction.get?_gathered_traces] at kept
  obtain ⟨y, last, rfl⟩ := Option.map_eq_some_iff.mp kept
  obtain ⟨path, parsed, source, loaded, found⟩ := Extraction.last_of_traces last
  obtain ⟨before, d, later, heq, found, free⟩ := Component.last_of_traces found
  have hid : y.component.id = id := beq_iff_eq.mp (List.mem_filter.mp (List.mem_of_getLast? last)).2
  have stems := Component.stems_of_last found
  have absent := Component.absent_of_traces (hid ▸ free)
  have hd : d ∈ source.definitions := by simp [heq]
  have plain := isIdentifier_no_dot (load_named loaded d hd)
  have plain_methods : ∀ m ∈ d.methods, '.' ∉ m.name.toList := fun m hm =>
    isIdentifier_no_dot (load_methods_named loaded d hd m hm)
  obtain ⟨owner, known, owner_id⟩ := Extraction.definition_kept parsed loaded hd
  have hview : ((Extraction.gathered tree index paths).world tree opened).view path =
      some source := by
    have seen := Cache.view_of_agrees (Extraction.gathered_agrees tree index paths opened) path
    rw [loaded] at seen
    exact seen
  refine ⟨source, y, ?_, last, rfl, stems.describes, ?_, ?_⟩
  · rw [stems.filePath]
    exact loaded
  · exact Structure.definitionOf_stems hview heq plain known owner_id plain_methods stems absent
  · intro hk
    rw [Structure.ownerId_stems plain_methods stems hk, ← Table.contains_iff]
    exact Option.isSome_iff_exists.mpr ⟨owner, known⟩

section
set_option maxRecDepth 100000

open scoped Text.Alphabet

def recastTree : FileTree :=
  FileTree.empty.write "/r/a.py"
    (.file "class C:\n def m(s): 0\n def k(s): 0\nclass C:\n def k(s): 1\n".toUTF8)

def recastRead : Extraction :=
  .gathered recastTree (Extraction.indexOf "/r" ["a.py"]) ["/r/a.py"]

theorem run_recast : (Extraction.run recastTree "/r" ["a.py"] 4 false).value [] = .ok recastRead :=
  Extraction.run_singleton _ _ (by decide +kernel)

theorem recast_definitions_found_again :
    (Extraction.run recastTree "/r" ["a.py"] 4 false).value [] = .ok recastRead ∧
    (∃ y : Component.Trace, recastRead.components.get? "a.C.k" = some y.component ∧
      y.component.startLine = 5 ∧
      Structure.definitionOf ⟨recastRead.components⟩ (recastRead.world recastTree []) y.component =
        some y.definition) ∧
    ∃ y : Component.Trace, recastRead.components.get? "a.C.m" = some y.component ∧
      y.component.startLine = 2 ∧
      Structure.definitionOf ⟨recastRead.components⟩ (recastRead.world recastTree []) y.component =
        none ∧
      y.Replaced ∧ Structure.ownerId y.component ∈ recastRead.components.keys := by
  have kept : (recastRead.components.get? "a.C.k").any (fun c => c.startLine == 5 &&
      (Structure.definitionOf ⟨recastRead.components⟩
        (recastRead.world recastTree []) c).isSome) := by
    decide +kernel
  have lost : (recastRead.components.get? "a.C.m").any (fun c => c.startLine == 2 &&
      (Structure.definitionOf ⟨recastRead.components⟩
        (recastRead.world recastTree []) c).isNone) := by
    decide +kernel
  refine ⟨run_recast, ?_, ?_⟩
  · obtain ⟨c, hc, test⟩ := (Option.any_eq_true _ _).mp kept
    obtain ⟨line, seen⟩ := Bool.and_eq_true_iff.mp test
    obtain ⟨_, _, y, _, _, rfl, _, result, _⟩ :=
      definitions_found_again recastTree "/r" ["a.py"] 4 false [] recastRead run_recast
        [] "a.C.k" c hc
    rcases result with ⟨found, _⟩ | ⟨unseen, _⟩
    · exact ⟨y, hc, beq_iff_eq.mp line, found⟩
    · rw [unseen] at seen
      cases seen
  · obtain ⟨c, hc, test⟩ := (Option.any_eq_true _ _).mp lost
    obtain ⟨line, unseen⟩ := Bool.and_eq_true_iff.mp test
    obtain ⟨_, _, y, _, _, rfl, _, result, owned⟩ :=
      definitions_found_again recastTree "/r" ["a.py"] 4 false [] recastRead run_recast
        [] "a.C.m" c hc
    rcases result with ⟨found, _⟩ | ⟨missing, method, replaced⟩
    · rw [found] at unseen
      cases unseen
    · exact ⟨y, hc, beq_iff_eq.mp line, missing, replaced, owned method⟩

end

end RepoAtlas
