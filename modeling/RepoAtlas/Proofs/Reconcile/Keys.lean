import RepoAtlas.Proofs.Pass.CallSites
import RepoAtlas.Proofs.Pass.Relocation
import RepoAtlas.Proofs.Reconcile.Spelling
import RepoAtlas.Text.Alphabet

/-!
Call-site keys tell components apart. A key is put together from a path and an id by counting the
segments of the one and dropping as many of the other. As long as no segment of the path holds a
separator of its own, the name inside the file is what is left, and the key spells the id; so no two
components share a key, and a call site is attributed to the component whose key it is before
anything is stripped from it.
-/
namespace RepoAtlas

namespace Text

theorem isIdentifier_free {s : String} (h : isIdentifier s = true) {c : Char}
    (start : isIdentStart c = false) (part : isIdentPart c = false) : c ∉ s.toList := by
  rw [isIdentifier] at h
  split at h
  · rename_i first rest heq
    obtain ⟨hfirst, hrest⟩ := Bool.and_eq_true_iff.mp h
    rw [heq, List.mem_cons]
    rintro (rfl | hc)
    · rw [hfirst] at start
      cases start
    · rw [List.all_eq_true.mp hrest c hc] at part
      cases part
  · cases h

theorem isIdentifier_unseparated {s : String} (h : isIdentifier s = true) : Unseparated s :=
  unseparated_of_not_mem (isIdentifier_no_dot h) (isIdentifier_free h (by decide) (by decide))
    (isIdentifier_free h (by decide) (by decide))

/-- Segments joined by any one separator are the pieces of the whole. -/
theorem pieces_joinWith (sep : Char) (separates : isSeparator sep = true) {parts : List String}
    (plain : ∀ part ∈ parts, part ≠ "" ∧ Unseparated part) :
    (pieces (joinWith (String.singleton sep) parts).toList).map String.ofList = parts := by
  induction parts with
  | nil => rfl
  | cons part rest ih =>
    obtain ⟨⟨nonempty, own⟩, others⟩ := List.forall_mem_cons.mp plain
    have first : (pieces part.toList).map String.ofList = [part] := by
      rw [pieces_unseparated own, List.filter_cons_of_pos (by simpa using nonempty),
        List.filter_nil]
    cases rest with
    | nil =>
      rw [show joinWith (String.singleton sep) [part] = part by simp [joinWith]]
      exact first
    | cons next rest =>
      rw [joinWith, String.intercalate_cons_cons, String.append_assoc, String.toList_append,
        String.toList_append, String.toList_singleton, List.singleton_append,
        pieces_append_cons _ _ separates, List.map_append, first]
      exact congrArg (part :: ·) (ih others)

end Text

open Text Python

/-- The segments of a path, its extension apart, are not empty and hold neither dots nor
backslashes. -/
def Module.PlainPath (relativePath : String) : Prop :=
  ∀ part ∈ segments '/' (withoutSuffix Module.extension relativePath),
    part ≠ "" ∧ '.' ∉ part.toList ∧ '\\' ∉ part.toList

instance (relativePath : String) : Decidable (Module.PlainPath relativePath) :=
  inferInstanceAs (Decidable (∀ part ∈ segments '/' (withoutSuffix Module.extension relativePath),
    part ≠ "" ∧ '.' ∉ part.toList ∧ '\\' ∉ part.toList))

namespace Module.PlainPath
variable {relativePath inside : String}

theorem properSegments_eq (plain : PlainPath relativePath) :
    properSegments '/' (withoutSuffix extension relativePath) =
      segments '/' (withoutSuffix extension relativePath) := by
  rw [properSegments, List.filter_eq_self]
  intro part hp
  simpa using (plain part hp).1

theorem unseparated (plain : PlainPath relativePath) :
    ∀ part ∈ segments '/' (withoutSuffix extension relativePath), part ≠ "" ∧ Unseparated part := by
  intro part hp
  obtain ⟨nonempty, dot, backslash⟩ := plain part hp
  exact ⟨nonempty, unseparated_of_not_mem dot (not_mem_of_mem_segments hp) backslash⟩

/-- Below the name of a file there are the segments of its path and those of the name inside it. -/
theorem segments_below (plain : PlainPath relativePath) (inside : String) :
    segments '.' (nameOfFile relativePath ++ "." ++ inside) =
      segments '/' (withoutSuffix extension relativePath) ++ segments '.' inside := by
  have file : segments '.' (nameOfFile relativePath) =
      segments '/' (withoutSuffix extension relativePath) := by
    rw [nameOfFile, plain.properSegments_eq]
    exact segments_joinWith (segments_ne_nil _ _) fun part hp => (plain part hp).2.1
  rw [← file]
  exact segments_append_sep ..

/-- Dropping as many segments as the path has leaves the name inside the file. -/
theorem callSiteKey_below (plain : PlainPath relativePath) (named : inside ≠ "") :
    Reconcile.callSiteKey (nameOfFile relativePath ++ "." ++ inside) relativePath =
      withoutSuffix extension relativePath ++ "." ++ inside := by
  have left : dotted (segments '.' inside) = inside := joinWith_segments '.' inside
  simp only [Reconcile.callSiteKey, plain.segments_below, plain.properSegments_eq, List.drop_left,
    left, if_neg named]

theorem normalizeSeparators_key (plain : PlainPath relativePath)
    (spelled : ∀ part ∈ segments '.' inside, part ≠ "" ∧ Unseparated part) :
    normalizeSeparators (withoutSuffix extension relativePath ++ "." ++ inside) =
      nameOfFile relativePath ++ "." ++ inside := by
  have path := pieces_joinWith '/' (by decide) plain.unseparated
  have name := pieces_joinWith '.' (by decide) spelled
  rw [joinWith_segments] at path name
  rw [normalizeSeparators_eq, String.toList_append, String.toList_append, List.append_assoc,
    show ".".toList = ['.'] from rfl, List.singleton_append, pieces_append_cons _ _ (by decide),
    List.map_append, path, name, ← plain.segments_below]
  exact joinWith_segments '.' _

end Module.PlainPath

/-! What the id of a kept component is made of. -/

namespace Component

def Trace.inside (y : Trace) : String :=
  y.owner.elim y.definition.name fun owner => owner.name ++ "." ++ y.definition.name

section
variable {site : Site} {t : SourceText} {d : Definition} {later : List Definition} {y : Trace}

theorem Stems.relativePath (h : Stems site t d later y) :
    y.component.relativePath = site.relativePath := by
  cases h <;> rfl

theorem Stems.id (h : Stems site t d later y) :
    y.component.id = site.moduleName ++ "." ++ y.inside := by
  cases h with
  | function => rfl
  | classDef => rfl
  | method => simp [methodTrace, ofDefinition, Trace.inside, String.append_assoc]

/-- The name inside a file is made of identifiers. -/
theorem Stems.segments_inside (h : Stems site t d later y) (named : isIdentifier d.name = true)
    (methods : ∀ m ∈ d.methods, isIdentifier m.name = true) :
    ∀ part ∈ segments '.' y.inside, isIdentifier part = true := by
  have own : ∀ part ∈ segments '.' d.name, isIdentifier part = true := by
    rw [segments_free (isIdentifier_no_dot named)]
    simpa using named
  cases h with
  | function => exact own
  | classDef => exact own
  | @method m _ last =>
    have hm := methods m (List.mem_filter.mp (List.mem_of_getLast? last)).1
    have parts : segments '.' (methodTrace site t d later m).inside =
        segments '.' d.name ++ [m.name] :=
      segments_append_free d.name (isIdentifier_no_dot hm)
    rw [parts, List.forall_mem_append]
    exact ⟨own, by simpa using hm⟩

end

end Component

namespace Extraction
variable {tree : FileTree} {rootDir : String} {files : List String}

theorem site_candidate [Collator] (index : ModuleIndex) {root path : String}
    (h : path ∈ candidates root files) :
    (site index path).moduleName = Module.nameOfFile (site index path).relativePath := by
  simp only [site, ModuleIndex.nameOf, ModuleIndex.absolute, resolve_candidate h,
    ModuleIndex.relative, Path.relativeTo, Path.absoluteParts_ofParts
      (Path.absoluteParts_plain path)]

theorem eq_whole [Collator] {lanes : Float} {verbose : Bool} {log : List Log.Entry} {e : Extraction}
    (h : (run tree rootDir files lanes verbose).value log = .ok e) :
    e = whole tree rootDir files := by
  cases allowed : Number.toPositive? lanes with
  | none =>
    rw [run_of_no_lanes allowed] at h
    cases h
  | some limit =>
    rw [run_whole _ _ _ allowed, Except.ok.injEq] at h
    exact h.symm

theorem site_moduleName (index : ModuleIndex) (path : String) :
    (site index path).moduleName = index.nameOf path := by
  rw [site]

/-- A kept component bears the name of its module and the name inside its file. -/
theorem kept_below {index : ModuleIndex} {paths : List String} {id : String} {c : Component}
    (kept : (gathered tree index paths).components.get? id = some c) :
    ∃ y ∈ (gathered tree index paths).traces tree, y.component = c ∧ c.filePath ∈ paths ∧
      c.relativePath = (site index c.filePath).relativePath ∧
      c.id = index.nameOf c.filePath ++ "." ++ y.inside ∧
      ∀ part ∈ segments '.' y.inside, isIdentifier part = true := by
  rw [get?_gathered_traces] at kept
  obtain ⟨y, last, rfl⟩ := Option.map_eq_some_iff.mp kept
  obtain ⟨path, parsed, source, loaded, found⟩ := last_of_traces last
  obtain ⟨before, d, later, heq, found, _⟩ := Component.last_of_traces found
  have stems := Component.stems_of_last found
  have hd : d ∈ source.definitions := by simp [heq]
  have file : y.component.filePath = path := stems.filePath
  rw [file]
  refine ⟨y, (List.mem_filter.mp (List.mem_of_getLast? last)).1, rfl, (List.mem_filter.mp parsed).1,
    stems.relativePath, ?_, ?_⟩
  · rw [stems.id]
    exact congrArg (· ++ "." ++ y.inside) (site_moduleName index path)
  · exact stems.segments_inside (load_named loaded d hd) (load_methods_named loaded d hd)

/-- A kept component bears the name of its file and the name inside it. -/
theorem kept_id [Collator] {id : String} {c : Component}
    (kept : (whole tree rootDir files).components.get? id = some c) :
    ∃ y ∈ (whole tree rootDir files).traces tree, y.component = c ∧
      c.id = Module.nameOfFile c.relativePath ++ "." ++ y.inside ∧
      ∀ part ∈ segments '.' y.inside, isIdentifier part = true := by
  obtain ⟨y, hy, same, listed, relative, hid, named⟩ := kept_below kept
  refine ⟨y, hy, same, ?_, named⟩
  rw [hid, relative, ← site_moduleName, site_candidate _ listed]

theorem kept_relativePath {index : ModuleIndex} {paths : List String} {id : String} {c : Component}
    (kept : (gathered tree index paths).components.get? id = some c) :
    ∃ path ∈ paths, c.relativePath = index.relative path := by
  rw [gathered, get?_catalogued] at kept
  obtain ⟨path, listed, made⟩ :=
    List.mem_flatMap.mp (List.mem_filter.mp (List.mem_of_getLast? kept)).1
  obtain ⟨source, _, made⟩ := List.mem_flatMap.mp made
  obtain ⟨_, _, _, _, _, rfl⟩ := Component.mem_ofFile made
  exact ⟨path, listed, rfl⟩

end Extraction

namespace Reconcile
open RepoAtlas.Module CallGraph

def keyOf (c : Component) : String := callSiteKey c.id c.relativePath

/-- Where keys lead back to ids, the index leads from the key of a component to its id. -/
theorem lookup_callerIndex [Collator] {c : Catalog}
    (normal : ∀ s ∈ c.values, normalizeSeparators (keyOf s) = s.id) {s : Component}
    (hs : s ∈ c.values) : (callerIndex c).lookup (keyOf s) = some s.id := by
  have listed : (keyOf s, s.id) ∈ callerIndex c :=
    List.mem_reverse.mpr (List.mem_map.mpr ⟨s, hs, rfl⟩)
  cases found : (callerIndex c).lookup (keyOf s) with
  | none =>
    have other := List.lookup_eq_none_iff.mp found _ listed
    simp at other
  | some id =>
    obtain ⟨before, after, heq, _⟩ := List.lookup_eq_some_iff.mp found
    have entry : (keyOf s, id) ∈ callerIndex c := by
      rw [heq]
      simp
    obtain ⟨u, hu, same⟩ := List.mem_map.mp (List.mem_reverse.mp entry)
    obtain ⟨key, rfl⟩ := Prod.mk.inj same
    rw [← normal u hu, ← normal s hs]
    exact congrArg (fun key => some (normalizeSeparators key)) key

/-- What keys are good for in the catalog of an extraction, whatever dependencies were recorded
since. -/
structure KeysIdentify [Collator] (tree : FileTree) (e : Extraction) : Prop where
  spelled : ∀ id c, e.components.get? id = some c → ∃ y ∈ e.traces tree, y.component = c ∧
    keyOf c = withoutSuffix Module.extension c.relativePath ++ "." ++ y.inside
  normalized : ∀ id c, e.components.get? id = some c → normalizeSeparators (keyOf c) = c.id
  distinct : ∀ id c id' c', e.components.get? id = some c → e.components.get? id' = some c' →
    keyOf c = keyOf c' → c = c'
  attributed : ∀ earlier (w : Workspace), w.catalog = Catalog.addAll ⟨e.components⟩ earlier →
    ∀ id c, w.catalog.get? id = some c →
      callerOf w.catalog (callerIndex w.catalog) w.index.rootPackage (keyOf c) = some c
  /-- Whatever a fact under the key of a component calls becomes a dependency of that component. -/
  recorded : ∀ earlier (w : Workspace), w.catalog = Catalog.addAll ⟨e.components⟩ earlier →
    ∀ id c, w.catalog.get? id = some c → ∀ (facts : Facts) callees, (keyOf c, callees) ∈ facts →
      ∀ callee ∈ callees, isBuiltin callee = false → ∀ t, placed w c callee = some t → t ≠ c.id →
        ∀ r log, ∃ c', ((run r w Strategy.all facts).value log).1.catalog.get? id = some c' ∧
          t ∈ c'.dependsOn

theorem keyOf_plain {c : Component} (plain : PlainPath c.relativePath) {inside : String}
    (hid : c.id = nameOfFile c.relativePath ++ "." ++ inside)
    (named : ∀ part ∈ segments '.' inside, isIdentifier part = true) :
    keyOf c = withoutSuffix Module.extension c.relativePath ++ "." ++ inside ∧
      normalizeSeparators (keyOf c) = c.id := by
  have nonempty : inside ≠ "" := by
    rintro rfl
    exact absurd (named "" (by decide)) (by decide)
  have key : keyOf c = withoutSuffix Module.extension c.relativePath ++ "." ++ inside := by
    rw [keyOf, hid, plain.callSiteKey_below nonempty]
  refine ⟨key, ?_⟩
  rw [key, hid]
  apply plain.normalizeSeparators_key
  intro part hp
  exact ⟨isIdentifier_ne_empty (named part hp), isIdentifier_unseparated (named part hp)⟩

/-- A component has the key that it had before dependencies were recorded. -/
theorem keyOf_of_addAll {c : Catalog} (linked : c.WellLinked) {earlier : List (String × String)}
    {id : String} {s : Component} (hs : (c.addAll earlier).get? id = some s) :
    ∃ u, c.get? id = some u ∧ u.id = s.id ∧ keyOf u = keyOf s := by
  have after : (id, s) ∈ (c.addAll earlier).components.entries := Table.mem_of_get? hs
  have outlined : (id, s.unlinked) ∈ (c.addAll earlier).outline := List.mem_map.mpr ⟨_, after, rfl⟩
  rw [Catalog.addAll_outline linked] at outlined
  obtain ⟨⟨k, u⟩, before, same⟩ := List.mem_map.mp outlined
  obtain ⟨rfl, bare⟩ := Prod.mk.inj same
  have name : u.unlinked.id = s.unlinked.id := congrArg Component.id bare
  have path : u.unlinked.relativePath = s.unlinked.relativePath :=
    congrArg Component.relativePath bare
  exact ⟨u, linked.get?_iff.mpr before, name, congrArg₂ callSiteKey name path⟩

/-- A call site that is the key of a component is attributed to it. -/
theorem callerOf_key [Collator] {c : Catalog} (linked : c.WellLinked)
    (normal : ∀ id s, c.get? id = some s → normalizeSeparators (keyOf s) = s.id) {w : Workspace}
    {earlier : List (String × String)} (recorded : w.catalog = c.addAll earlier)
    (named : w.catalog.get? "" = none) {id : String} {s : Component}
    (hs : w.catalog.get? id = some s) :
    callerOf w.catalog (callerIndex w.catalog) w.index.rootPackage (keyOf s) = some s := by
  have linked' : w.catalog.WellLinked := recorded ▸ Catalog.addAll_wellLinked linked earlier
  have normal' : ∀ s ∈ w.catalog.values, normalizeSeparators (keyOf s) = s.id := by
    intro s hs
    obtain ⟨u, hu, hid, key⟩ :=
      keyOf_of_addAll linked (recorded ▸ (Catalog.mem_values linked').mp hs)
    rw [← key, ← hid]
    exact normal s.id u hu
  have own : w.catalog.get? s.id = some s := by
    rwa [linked'.id_eq id s (linked'.get?_iff.mp hs)]
  rw [callerOf_eq named, caller?, lookup_callerIndex normal' ((Catalog.mem_values linked').mpr own),
    Option.some_or, Option.bind_some, own]

theorem calls_of_listed [Collator] {w : Workspace} {facts : Facts} {site callee t : String}
    {callees : List String} {c : Component} (attributed : caller? w site = some c)
    (listed : (site, callees) ∈ facts) (called : callee ∈ callees)
    (outside : isBuiltin callee = false) (hplace : placed w c callee = some t) :
    Calls w facts c t := by
  refine ⟨callee, List.mem_flatMap.mpr ⟨_, listed, ?_⟩, outside, hplace⟩
  rw [attributed]
  simpa using called

open scoped Text.Alphabet

def homonymTree : FileTree :=
  FileTree.empty.write "/r/r/a.py" (.file "class C:\n def m(s): 0\n".toUTF8)

def homonymRead : Extraction := .whole homonymTree "/r" ["r/a.py"]

end Reconcile

end RepoAtlas
