import RepoAtlas.Module.Index
import RepoAtlas.Proofs.Path.Relative

/-!
Names of modules lead back to their files. A path is folded into a dotted name by one function and
the name is searched for by another; they are inverse to each other, except for names that start
with the name of the root folder, where the search drops a segment that naming had kept.
-/
namespace RepoAtlas.Path
open Text

theorem absoluteParts_joinWith (p : String) {parts : List String} (h : ∀ q ∈ parts, Plain q) :
    absoluteParts (joinWith "/" (p :: parts)) = absoluteParts p ++ parts := by
  cases parts with
  | nil => simp [joinWith]
  | cons q rest =>
    have text : joinWith "/" (p :: q :: rest) =
        p ++ String.singleton '/' ++ joinWith (String.singleton '/') (q :: rest) := by
      rw [joinWith, String.intercalate_cons_cons]
      rfl
    rw [absoluteParts, text, segments_append_sep,
      segments_joinWith (by simp) fun part hp => (h part hp).no_slash, settle_append,
      settle_of_plain h, List.reverse_reverse]
    rfl

/-- A path that ends in the name of an entry does not end in a slash. -/
theorem joinWith_no_trailing_slash (init : List String) {last : String} (h : Plain last) :
    (joinWith "/" (init ++ [last])).toList.getLast? ≠ some '/' := by
  have text : joinWith "/" (init ++ [last]) = joinWith "/" (init ++ [""]) ++ last := by
    rw [← joinWith_concat_append, String.empty_append]
  have nonempty : last.toList ≠ [] := by simpa using h.ne_empty
  rw [text, String.toList_append, List.getLast?_append_of_ne_nil _ nonempty]
  intro slash
  exact h.no_slash (List.mem_of_getLast? slash)

theorem normalize_of_no_trailing_slash {p : String} (h : isAbsolute p = true)
    (ending : p.toList.getLast? ≠ some '/') : normalize p = ofParts (absoluteParts p) := by
  have no_slash : (p.toList.getLast? == some '/') = false := by simpa using ending
  simp only [normalize, h, no_slash, ↓reduceIte, Bool.false_and, Bool.false_eq_true]
  split
  case isTrue empty => rw [ofParts, absoluteParts, empty]
  case isFalse => rfl

theorem join_ofParts {base parts : List String} (hb : ∀ p ∈ base, Plain p)
    (hp : ∀ p ∈ parts, Plain p) (hne : base ++ parts ≠ []) :
    join (ofParts base :: parts) = ofParts (base ++ parts) := by
  have kept :
      (ofParts base :: parts).filter (fun piece => piece != "") = ofParts base :: parts := by
    rw [List.filter_eq_self]
    intro piece hm
    rw [bne_iff_ne]
    rcases List.mem_cons.mp hm with rfl | hm
    · simp [ofParts]
    · exact (hp piece hm).ne_empty
  have absolute : isAbsolute (joinWith "/" (ofParts base :: parts)) = true := by
    rw [ofParts, joinWith, String.intercalate_cons_append]
    exact isAbsolute_slash _
  have ending : (joinWith "/" (ofParts base :: parts)).toList.getLast? ≠ some '/' := by
    rcases List.eq_nil_or_concat' parts with rfl | ⟨init, last, rfl⟩
    · rw [List.append_nil] at hne
      simpa [joinWith] using ofParts_no_trailing_slash hne hb
    · exact joinWith_no_trailing_slash (ofParts base :: init) (hp last (by simp))
  rw [join, kept, normalize_of_no_trailing_slash absolute ending, absoluteParts_joinWith _ hp,
    absoluteParts_ofParts hb]

theorem ofParts_append (init : List String) (last s : String) :
    ofParts (init ++ [last]) ++ s = ofParts (init ++ [last ++ s]) := by
  rw [ofParts, ofParts, String.append_assoc, joinWith_concat_append]

/-- A path that is spelled from a directory without going up lies below it. -/
theorem absoluteParts_of_relativeTo_joinWith {dir p : String} {parts : List String}
    (h : relativeTo dir p = joinWith "/" parts) (hp : ∀ part ∈ parts, Plain part) :
    absoluteParts p = absoluteParts dir ++ parts := by
  have spelled : relativeParts (absoluteParts dir) (absoluteParts p) = parts :=
    joinWith_injective (fun _ hm => relativeParts_member (absoluteParts_plain p) hm)
      (fun part hm => ⟨(hp part hm).ne_empty, (hp part hm).no_slash⟩) h
  obtain ⟨n, rest, split, whole, _, _⟩ := relativeParts_eq (absoluteParts dir) (absoluteParts p)
  rw [spelled] at split
  cases n with
  | zero => rw [whole, split, Nat.sub_zero, List.take_length, List.replicate_zero, List.nil_append]
  | succ n =>
    have up : ".." ∈ parts := by
      rw [split, List.replicate_succ]
      exact List.mem_cons_self ..
    exact absurd rfl (hp _ up).ne_up

end RepoAtlas.Path

namespace RepoAtlas.Text

theorem withoutSuffix_append (s suffix : String) : withoutSuffix suffix (s ++ suffix) = s := by
  rw [withoutSuffix, dropSuffixChars, String.toList_append, if_pos]
  · simp
  · exact List.isSuffixOf_iff_suffix.mpr (List.suffix_append ..)

end RepoAtlas.Text

namespace RepoAtlas.Module
open Text

/-- A name that can stand between the dots of a dotted name and between the slashes of a path. -/
structure Undotted (part : String) : Prop where
  ne_empty : part ≠ ""
  no_dot : '.' ∉ part.toList
  no_slash : '/' ∉ part.toList

theorem Undotted.plain {part : String} (h : Undotted part) : Path.Plain part := by
  refine ⟨h.ne_empty, ?_, ?_, h.no_slash⟩
  · rintro rfl
    exact h.no_dot (by decide)
  · rintro rfl
    exact h.no_dot (by decide)

theorem fileParts_plain {dirs : List String} {name : String}
    (h : ∀ part ∈ dirs ++ [name], Undotted part) :
    ∀ part ∈ dirs ++ [name ++ extension], Path.Plain part := by
  intro part hm
  rcases List.mem_append.mp hm with hm | hm
  · exact (h part (List.mem_append_left _ hm)).plain
  · rw [List.mem_singleton.mp hm]
    exact Path.plain_of_extension (h name (by simp)).no_slash

theorem segments_dotted {parts : List String} (hne : parts ≠ []) (h : ∀ p ∈ parts, Undotted p) :
    segments '.' (dotted parts) = parts :=
  segments_joinWith hne fun p hp => (h p hp).no_dot

theorem initialiserFile_eq : initialiserFile = initialiser ++ extension := rfl

theorem initialiserFile_plain : Path.Plain initialiserFile :=
  initialiserFile_eq ▸ Path.plain_of_extension (by decide)

def importParts (dirs : List String) (name : String) : List String :=
  if name = initialiser then dirs else dirs ++ [name]

theorem importParts_undotted {dirs : List String} {name : String}
    (h : ∀ part ∈ dirs ++ [name], Undotted part) :
    ∀ part ∈ importParts dirs name, Undotted part := by
  intro part hm
  rw [importParts] at hm
  split at hm
  · exact h part (List.mem_append_left _ hm)
  · exact h part hm

theorem length_importParts_le (dirs : List String) (name : String) :
    (importParts dirs name).length ≤ dirs.length + 1 := by
  rw [importParts]
  split
  · exact Nat.le_succ _
  · exact Nat.le_of_eq List.length_append

theorem importNameOfFile_eq {stem : String} {dirs : List String} {name : String}
    (hs : segments '/' stem = dirs ++ [name]) (h : ∀ p ∈ dirs ++ [name], Undotted p) :
    importNameOfFile (stem ++ extension) = dotted (importParts dirs name) := by
  have parts : properSegments '/' stem = dirs ++ [name] := by
    rw [properSegments, hs, List.filter_eq_self]
    exact fun p hp => bne_iff_ne.mpr (h p hp).ne_empty
  rw [importNameOfFile, nameOfFile, withoutSuffix_append, parts, foldInitialiser]
  simp only [segments_dotted (List.append_ne_nil_of_right_ne_nil dirs (List.cons_ne_nil name [])) h,
    List.getLast?_concat, Option.some.injEq, List.dropLast_concat, importParts]

end RepoAtlas.Module

namespace RepoAtlas.ModuleIndex
open Text

theorem ofFiles_rootDir (root : String) (files : List String) :
    (ofFiles root files).rootDir = Path.ofParts (Path.absoluteParts root) := Path.resolve_root root

/-- What a file must be for its name to lead back to it: it is there, its path from the root ends in
the extension and has no other dot, it has a name to be imported by, and it is no initialiser with a
module of the package's name beside the package. -/
structure Importable (m : ModuleIndex) (isFile : String → Bool) (file : String) : Prop where
  present : isFile (m.absolute file) = true
  spelled : ∃ stem, m.relative (m.absolute file) = stem ++ Module.extension ∧
    ∀ part ∈ segments '/' stem, part ≠ "" ∧ '.' ∉ part.toList
  named : m.importNameOf file ≠ ""
  unshadowed : Path.baseName (m.absolute file) = Module.initialiserFile →
    isFile (Path.parent (m.absolute file) ++ Module.extension) = false

/-- An importable file lies below the root, and its name is made of its path from there. -/
theorem Importable.located {root : String} {files : List String} {isFile : String → Bool}
    {file : String} (h : (ofFiles root files).Importable isFile file) :
    ∃ dirs name, (∀ part ∈ dirs ++ [name], Module.Undotted part) ∧
      (ofFiles root files).absolute file =
        Path.ofParts (Path.absoluteParts root ++ dirs ++ [name ++ Module.extension]) ∧
      (ofFiles root files).importNameOf file = dotted (Module.importParts dirs name) := by
  obtain ⟨stem, hrel, hparts⟩ := h.spelled
  obtain ⟨dirs, name, hs⟩ : ∃ dirs name, segments '/' stem = dirs ++ [name] :=
    ⟨_, _, (List.dropLast_concat_getLast (segments_ne_nil '/' stem)).symm⟩
  have undotted : ∀ part ∈ dirs ++ [name], Module.Undotted part := by
    intro part hm
    rw [← hs] at hm
    exact ⟨(hparts part hm).1, (hparts part hm).2, not_mem_of_mem_segments hm⟩
  refine ⟨dirs, name, undotted, ?_, ?_⟩
  · have spelled : (ofFiles root files).relative ((ofFiles root files).absolute file) =
        joinWith "/" (dirs ++ [name ++ Module.extension]) := by
      rw [hrel, joinWith_concat_append, ← hs]
      exact congrArg (· ++ Module.extension) (joinWith_segments '/' stem).symm
    have below := Path.absoluteParts_of_relativeTo_joinWith spelled
      (Module.fileParts_plain undotted)
    rw [ofFiles_rootDir, Path.absoluteParts_ofParts (Path.absoluteParts_plain root),
      ← List.append_assoc] at below
    rw [← below, ← Path.resolve_root, absolute, Path.resolve, ← Path.resolve_root,
      Path.resolve_resolve_root]
  · rw [importNameOf, hrel, Module.importNameOfFile_eq hs undotted]

def searchedParts (m : ModuleIndex) (names : List String) : List String :=
  if names.head? = some m.rootPackage then names.drop 1 else names

theorem firstFile_ofParts {isFile : String → Bool} {paths : List (List String)}
    (h : ∀ parts ∈ paths, ∀ p ∈ parts, Path.Plain p) :
    firstFile isFile (paths.map Path.ofParts) = (paths.map Path.ofParts).find? isFile := by
  rw [firstFile]
  cases found : (paths.map Path.ofParts).find? isFile with
  | none => rfl
  | some path =>
    obtain ⟨parts, hm, rfl⟩ := List.mem_map.mp (List.mem_of_find?_eq_some found)
    rw [Option.map_some, Path.resolve_root, Path.absoluteParts_ofParts (h parts hm)]

theorem searched_plain {m : ModuleIndex} {root : String} {names : List String}
    (h : ∀ part ∈ names, Module.Undotted part) :
    ∀ part ∈ Path.absoluteParts root ++ m.searchedParts names, Path.Plain part := by
  refine List.forall_mem_append.mpr ⟨Path.absoluteParts_plain root, fun part hm => ?_⟩
  rw [searchedParts] at hm
  split at hm
  · exact (h part (List.mem_of_mem_drop hm)).plain
  · exact (h part hm).plain

def candidateParts (init : List String) (last : String) : List (List String) :=
  [init ++ [last ++ Module.extension], init ++ [last] ++ [Module.initialiserFile]]

theorem candidateParts_plain {init : List String} {last : String}
    (h : ∀ part ∈ init ++ [last], Path.Plain part) :
    ∀ parts ∈ candidateParts init last, ∀ part ∈ parts, Path.Plain part := by
  obtain ⟨initPlain, lastPlain⟩ := List.forall_mem_append.mp h
  intro parts hm
  rcases List.mem_pair.mp hm with rfl | rfl
  · refine List.forall_mem_append.mpr ⟨initPlain, ?_⟩
    simpa using Path.plain_of_extension (lastPlain last (by simp)).no_slash
  · refine List.forall_mem_append.mpr ⟨h, ?_⟩
    simpa using Module.initialiserFile_plain

/-- The search for a name: its last segment as a module, then as a package. -/
theorem moduleFile_dotted {root : String} {files : List String} {isFile : String → Bool}
    {names init : List String} {last : String} (h : ∀ part ∈ names, Module.Undotted part)
    (hne : names ≠ []) (hs : Path.absoluteParts root ++ (ofFiles root files).searchedParts names =
      init ++ [last]) (importer : String) :
    (ofFiles root files).moduleFile isFile (some (dotted names)) importer 0 =
      ((candidateParts init last).map Path.ofParts).find? isFile := by
  have segs := Module.segments_dotted hne h
  have nonempty : dotted names ≠ "" := by
    intro empty
    rw [empty] at segs
    exact (h "" (segs ▸ by decide)).ne_empty rfl
  have plain : ∀ part ∈ init ++ [last], Path.Plain part := hs ▸ searched_plain h
  have base : (ofFiles root files).basePath (some (dotted names)) importer 0 =
      some (Path.ofParts (init ++ [last])) := by
    obtain ⟨rootPlain, restPlain⟩ := List.forall_mem_append.mp (searched_plain h)
    rw [← hs, ← Path.join_ofParts rootPlain restPlain (by simp [hs]), ← ofFiles_rootDir root files]
    simp [basePath, nonempty, segs, searchedParts]
  have package : Path.join [Path.ofParts (init ++ [last]), Module.initialiserFile] =
      Path.ofParts (init ++ [last] ++ [Module.initialiserFile]) :=
    Path.join_ofParts plain (by simpa using Module.initialiserFile_plain) (by simp)
  rw [moduleFile, base, Option.bind_some, package, Path.ofParts_append]
  exact firstFile_ofParts (candidateParts_plain plain)

theorem rootPackage_ofFiles (root : String) (files : List String) :
    (ofFiles root files).rootPackage = (Path.absoluteParts root).getLastD "" := by
  rw [rootPackage, ofFiles_rootDir, Path.baseName,
    Path.absoluteParts_ofParts (Path.absoluteParts_plain root)]

section Located
variable {root : String} {files : List String} {isFile : String → Bool} {file : String}
  {dirs : List String} {name : String}

theorem absoluteParts_located (undotted : ∀ part ∈ dirs ++ [name], Module.Undotted part)
    (located : (ofFiles root files).absolute file =
      Path.ofParts (Path.absoluteParts root ++ dirs ++ [name ++ Module.extension])) :
    Path.absoluteParts ((ofFiles root files).absolute file) =
      Path.absoluteParts root ++ dirs ++ [name ++ Module.extension] := by
  rw [located, List.append_assoc, Path.absoluteParts_ofParts]
  exact List.forall_mem_append.mpr ⟨Path.absoluteParts_plain root, Module.fileParts_plain undotted⟩

theorem found_of_head_ne (h : (ofFiles root files).Importable isFile file)
    (undotted : ∀ part ∈ dirs ++ [name], Module.Undotted part)
    (located : (ofFiles root files).absolute file =
      Path.ofParts (Path.absoluteParts root ++ dirs ++ [name ++ Module.extension]))
    (hne : Module.importParts dirs name ≠ [])
    (head : (Module.importParts dirs name).head? ≠ some (ofFiles root files).rootPackage)
    (importer : String) :
    (ofFiles root files).moduleFile isFile (some (dotted (Module.importParts dirs name))) importer
      0 = some ((ofFiles root files).absolute file) := by
  have searched : (ofFiles root files).searchedParts (Module.importParts dirs name) =
      Module.importParts dirs name := if_neg head
  have present := h.present
  by_cases package : name = Module.initialiser
  · have names : Module.importParts dirs name = dirs := if_pos package
    rw [names] at hne searched ⊢
    obtain ⟨above, dir, rfl⟩ : ∃ above dir, dirs = above ++ [dir] :=
      ⟨_, _, (List.dropLast_concat_getLast hne).symm⟩
    have parts := absoluteParts_located undotted located
    have base : Path.baseName ((ofFiles root files).absolute file) = Module.initialiserFile := by
      rw [Path.baseName, parts, List.getLastD_concat, package, Module.initialiserFile_eq]
    have shadow := h.unshadowed base
    rw [Path.parent, parts, List.dropLast_concat, ← List.append_assoc, Path.ofParts_append]
      at shadow
    rw [located, package] at present ⊢
    rw [moduleFile_dotted (fun part hm => undotted part (List.mem_append_left _ hm)) hne
      (by rw [searched, ← List.append_assoc]) importer,
      candidateParts, List.map_cons, List.find?_cons_of_neg (Bool.eq_false_iff.mp shadow)]
    rw [← List.append_assoc] at present ⊢
    exact List.find?_cons_of_pos present
  · have names : Module.importParts dirs name = dirs ++ [name] := if_neg package
    rw [names] at searched ⊢
    rw [located] at present ⊢
    rw [moduleFile_dotted undotted (by simp) (by rw [searched, ← List.append_assoc]) importer]
    exact List.find?_cons_of_pos present

theorem not_found_of_head_eq (undotted : ∀ part ∈ dirs ++ [name], Module.Undotted part)
    (located : (ofFiles root files).absolute file =
      Path.ofParts (Path.absoluteParts root ++ dirs ++ [name ++ Module.extension]))
    (head : (Module.importParts dirs name).head? = some (ofFiles root files).rootPackage)
    (importer : String) :
    (ofFiles root files).moduleFile isFile (some (dotted (Module.importParts dirs name))) importer
      0 ≠ some ((ofFiles root files).absolute file) := by
  have names := Module.importParts_undotted undotted
  obtain ⟨rest, split⟩ : ∃ rest, Module.importParts dirs name =
      (ofFiles root files).rootPackage :: rest := List.head?_eq_some_iff.mp head
  have rootNamed : (ofFiles root files).rootPackage ≠ "" :=
    (names _ (split ▸ List.mem_cons_self ..)).ne_empty
  have rootParts : Path.absoluteParts root ≠ [] := by
    intro empty
    rw [rootPackage_ofFiles, empty] at rootNamed
    exact rootNamed rfl
  have searched : (ofFiles root files).searchedParts (Module.importParts dirs name) = rest := by
    rw [searchedParts, if_pos head, split]
    rfl
  obtain ⟨init, last, base⟩ : ∃ init last, Path.absoluteParts root ++ rest = init ++ [last] :=
    ⟨_, _, (List.dropLast_concat_getLast (by simp [rootParts])).symm⟩
  have size := congrArg List.length base
  have parts := absoluteParts_located undotted located
  intro found
  rw [moduleFile_dotted names (by simp [split]) (searched.symm ▸ base) importer] at found
  obtain ⟨candidate, hm, same⟩ := List.mem_map.mp (List.mem_of_find?_eq_some found)
  have plain := candidateParts_plain (base ▸ searched ▸ searched_plain names) candidate hm
  rw [← same, Path.absoluteParts_ofParts plain] at parts
  have length := congrArg List.length parts
  have count := congrArg List.length split
  simp only [List.length_append, List.length_cons, List.length_nil] at size length count
  rcases List.mem_pair.mp hm with rfl | rfl
  · -- the dropped segment is missing
    have most := Module.length_importParts_le dirs name
    simp only [List.length_append, List.length_cons, List.length_nil] at length
    omega
  · -- only an initialiser is found this way, and its name lacks a segment already
    have last := congrArg (List.getLastD · "") parts
    simp only [List.getLastD_concat] at last
    rw [Module.initialiserFile_eq, String.append_left_inj] at last
    rw [Module.importParts, if_pos last.symm] at count
    simp only [List.length_append, List.length_cons, List.length_nil] at length
    omega

end Located

/-- The name of an importable file leads back to the file, whichever file asks, unless it starts
with the name of the root folder; then it never does. -/
theorem importName_leads_back_iff (root : String) (files : List String) (isFile : String → Bool)
    (file importer : String) (h : (ofFiles root files).Importable isFile file) :
    (ofFiles root files).moduleFile isFile (some ((ofFiles root files).importNameOf file)) importer
      0 = some ((ofFiles root files).absolute file) ↔
      firstSegment '.' ((ofFiles root files).importNameOf file) ≠
        (ofFiles root files).rootPackage := by
  obtain ⟨dirs, name, undotted, located, named⟩ := h.located
  have hne : Module.importParts dirs name ≠ [] := by
    intro empty
    apply h.named
    rw [named, empty]
    rfl
  have first : (Module.importParts dirs name).head? =
      some (firstSegment '.' (dotted (Module.importParts dirs name))) := by
    rw [firstSegment, Module.segments_dotted hne (Module.importParts_undotted undotted)]
    cases hp : Module.importParts dirs name with
    | nil => exact absurd hp hne
    | cons first rest => rfl
  rw [named]
  constructor
  · intro found same
    rw [same] at first
    exact not_found_of_head_eq undotted located first importer found
  · intro differs
    refine found_of_head_ne h undotted located hne ?_ importer
    rw [first]
    exact mt Option.some.inj differs

def namesakeTree : FileTree :=
  ((FileTree.empty.write "/r/p/q/__init__.py" (.file .empty)).write "/r/r/m.py"
    (.file .empty)).write "/r/p/.py" (.file .empty)

theorem nested_package_importable :
    (ofFiles "/r" []).Importable namesakeTree.isFile "p/q/__init__.py" where
  present := by decide +kernel
  spelled := ⟨"p/q/__init__", by decide +kernel, by decide +kernel⟩
  named := by decide +kernel
  unshadowed := by decide +kernel

theorem nested_package_leads_back :
    (ofFiles "/r" []).Importable namesakeTree.isFile "p/q/__init__.py" ∧
      (ofFiles "/r" []).importNameOf "p/q/__init__.py" = "p.q" ∧
      (ofFiles "/r" []).moduleFile namesakeTree.isFile
        (some ((ofFiles "/r" []).importNameOf "p/q/__init__.py")) "r/m.py" 0 =
          some ((ofFiles "/r" []).absolute "p/q/__init__.py") := by
  refine ⟨nested_package_importable, by decide +kernel, ?_⟩
  apply (importName_leads_back_iff "/r" [] namesakeTree.isFile "p/q/__init__.py" "r/m.py"
    nested_package_importable).mpr
  decide +kernel

/-- A module of the package with the root folder's name is importable but not found; a file that is
called like the extension takes the name of its directory, which does not lead to it either. -/
theorem namesake_module_not_found :
    ((ofFiles "/r" []).Importable namesakeTree.isFile "r/m.py" ∧
      (ofFiles "/r" []).moduleFile namesakeTree.isFile
        (some ((ofFiles "/r" []).importNameOf "r/m.py")) "r/m.py" 0 = none) ∧
    (namesakeTree.isFile "/r/p/.py" = true ∧
      (ofFiles "/r" []).importNameOf "p/.py" = "p" ∧
      (ofFiles "/r" []).moduleFile namesakeTree.isFile (some "p") "r/m.py" 0 = none) := by
  constructor
  · exact ⟨⟨by decide +kernel, ⟨"r/m", by decide +kernel, by decide +kernel⟩, by decide +kernel,
      by decide +kernel⟩, by decide +kernel⟩
  · decide +kernel

end RepoAtlas.ModuleIndex
