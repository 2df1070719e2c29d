import RepoAtlas.Proofs.Extraction.Order
import RepoAtlas.Proofs.Number.Positive
import RepoAtlas.Text.Alphabet

/-!
What extraction accounts for. Every candidate is either read or set aside, each in the order of its
path in the repository; ids stand in the order in which they first turn up, each with the component
that turned up last. A file that is set aside leaves no other trace: with or without it the same is
collected.
-/
namespace RepoAtlas
open Text Python

/-! Each item once, where it first turns up. -/

theorem eraseDups_concat (xs : List String) (x : String) :
    (xs ++ [x]).eraseDups = if x ∈ xs then xs.eraseDups else xs.eraseDups ++ [x] := by
  rw [List.eraseDups_append]
  by_cases old : x ∈ xs
  · simp [old, List.removeAll]
  · simp [old, List.removeAll, List.eraseDups_cons]

theorem filter_eraseDups (p : String → Bool) (xs : List String) :
    xs.eraseDups.filter p = (xs.filter p).eraseDups := by
  induction xs using List.reverseRecOn with
  | nil => rfl
  | append_singleton xs x ih =>
    rw [eraseDups_concat, List.filter_append]
    by_cases kept : p x = true
    · rw [List.filter_cons_of_pos kept, List.filter_nil, eraseDups_concat]
      by_cases old : x ∈ xs
      · rw [if_pos old, if_pos (List.mem_filter.mpr ⟨old, kept⟩), ih]
      · rw [if_neg old, if_neg fun hm => old (List.mem_filter.mp hm).1, List.filter_append, ih,
          List.filter_cons_of_pos kept, List.filter_nil]
    · rw [List.filter_cons_of_neg kept, List.filter_nil, List.append_nil, ← ih]
      split
      · rfl
      · rw [List.filter_append, List.filter_cons_of_neg kept, List.filter_nil, List.append_nil]

namespace Extraction

theorem keys_catalogued (ss : List Component) :
    (catalogued ss).keys = (ss.map (·.id)).eraseDups := by
  induction ss using List.reverseRecOn with
  | nil => rfl
  | append_singleton ss s ih =>
    rw [catalogued_append, List.foldl_cons, List.foldl_nil, Table.keys, Table.insert,
      Table.keys_insertEntry, List.map_append, List.map_singleton, eraseDups_concat, ← Table.keys,
      ih]
    simp only [List.mem_eraseDups]

/-- The file cannot be read, it is no text, or the text is at fault. -/
inductive Unloadable (tree : FileTree) (path : String) : Prop where
  | unreadable {e : FileTree.ReadError} : tree.read path = .error e → Unloadable tree path
  | undecodable {bytes : ByteArray} : tree.read path = .ok bytes → Utf8.decode? bytes = none →
      Unloadable tree path
  | unparsable {bytes : ByteArray} {text : String} {e : ParseError} : tree.read path = .ok bytes →
      Utf8.decode? bytes = some text → SourceFile.parse path text = .error e → Unloadable tree path

theorem unloadable_iff {tree : FileTree} {path : String} :
    Unloadable tree path ↔ (load tree path).toOption = none := by
  constructor
  · rintro (unread | ⟨read, undecoded⟩ | ⟨read, decoded, unparsed⟩)
    · simp [load, unread, Except.toOption]
    · simp [load, read, SourceFile.ofBytes, undecoded, Except.toOption]
    · simp [load, read, SourceFile.ofBytes, decoded, unparsed, Except.toOption]
  · intro unloaded
    cases read : tree.read path with
    | error e => exact .unreadable read
    | ok bytes =>
      cases decoded : Utf8.decode? bytes with
      | none => exact .undecodable read decoded
      | some text =>
        cases parsed : SourceFile.parse path text with
        | error e => exact .unparsable read decoded parsed
        | ok source =>
          simp [load, read, SourceFile.ofBytes, decoded, parsed, Except.toOption] at unloaded

def collected (tree : FileTree) (e : Extraction) : List Component :=
  e.parsedFiles.flatMap (yielded tree e.index)

def ByPath [Collator] (root : String) (paths : List String) : Prop :=
  paths.Pairwise fun p q => (Collation.collate (Path.relativeTo root p)
    (Path.relativeTo root q)).isLE

/-- What an extraction accounts for: the candidates on the one hand, and what was found in those
that could be read on the other. -/
structure Accounts [Collator] (tree : FileTree) (rootDir : String) (files : List String)
    (e : Extraction) : Prop where
  index : e.index = indexOf rootDir files
  disjoint : ∀ path ∈ e.parsedFiles, path ∉ e.failedFiles
  complete : (e.parsedFiles ++ e.failedFiles).Perm
    (files.map (Path.toAbsolute (Path.resolve "/" rootDir))).eraseDups
  parsed_ordered : ByPath (Path.resolve "/" rootDir) e.parsedFiles
  failed_ordered : ByPath (Path.resolve "/" rootDir) e.failedFiles
  failed : ∀ path ∈ files.map (Path.toAbsolute (Path.resolve "/" rootDir)),
    path ∈ e.failedFiles ↔ Unloadable tree path
  ids : e.components.keys = ((e.collected tree).map (·.id)).eraseDups
  last : ∀ id, e.components.get? id = ((e.collected tree).filter fun s => s.id == id).getLast?

theorem collected_gathered (tree : FileTree) (index : ModuleIndex) (paths : List String) :
    (gathered tree index paths).collected tree = paths.flatMap (yielded tree index) :=
  (yielded_readable tree index paths).symm

section
variable (tree : FileTree) (rootDir : String) (files : List String)

def whole [Collator] : Extraction :=
  gathered tree (indexOf rootDir files) (candidates (Path.resolve "/" rootDir) files)

theorem run_whole [Collator] {lanes : Float} {limit : Nat}
    (allowed : Number.toPositive? lanes = some limit) (verbose : Bool) (log : List Log.Entry) :
    (run tree rootDir files lanes verbose).value log = .ok (whole tree rootDir files) := by
  have positive : limit ≠ 0 := Nat.ne_of_gt (Number.toPositive?_pos allowed)
  rw [run_of_lanes allowed, takenBy, if_neg positive, whole]

/-- The usual number of lanes and a single file. -/
theorem run_singleton [Collator] {file path : String}
    (absolute : Path.toAbsolute (Path.resolve "/" rootDir) file = path) :
    (run tree rootDir [file] 4 false).value [] =
      .ok (gathered tree (indexOf rootDir [file]) [path]) := by
  have lanes : Number.toPositive? 4 = some 4 := by decide +kernel
  rw [run_whole _ _ _ lanes, whole, candidates_singleton, absolute]

theorem whole_accounts [Collator] : Accounts tree rootDir files (whole tree rootDir files) where
  index := rfl
  disjoint := by
    intro path parsed failed
    have readable := (List.mem_filter.mp parsed).2
    have unreadable := (List.mem_filter.mp failed).2
    rw [Option.isNone_iff_eq_none.mp unreadable] at readable
    cases readable
  complete := by
    refine List.Perm.trans ?_ (Collation.sortBy_perm (Path.relativeTo (Path.resolve "/" rootDir)) _)
    have others : (fun path => (load tree path).toOption.isNone) =
        fun path => !(load tree path).toOption.isSome := by
      funext path
      exact (Option.not_isSome _).symm
    simp only [whole, gathered, others]
    exact List.filter_append_perm _ _
  parsed_ordered := (Collation.sortBy_ascending ..).filter _
  failed_ordered := (Collation.sortBy_ascending ..).filter _
  failed := by
    intro path listed
    rw [unloadable_iff, ← Option.isNone_iff_eq_none]
    constructor
    · exact fun failed => (List.mem_filter.mp failed).2
    · exact fun unreadable => List.mem_filter.mpr ⟨mem_candidates.mpr listed, unreadable⟩
  ids := by
    rw [whole, collected_gathered]
    exact keys_catalogued _
  last := by
    intro id
    rw [whole, collected_gathered]
    exact get?_catalogued _ id

/-- What is read is what can be read of the list, whatever else it holds. -/
theorem readable_eq [Collator] (root : String) :
    ((candidates root files).filter fun path => (load tree path).toOption.isSome) =
      Collation.sortBy (Path.relativeTo root) ((files.map (Path.toAbsolute root)).filter fun path =>
        (load tree path).toOption.isSome).eraseDups := by
  rw [candidates, Collation.sortBy_filter, filter_eraseDups]

end

theorem yielded_index {tree : FileTree} {a b : ModuleIndex} (h : a.rootDir = b.rootDir) :
    yielded tree a = yielded tree b := by
  funext path
  have same : site a path = site b path := by
    simp only [site, ModuleIndex.relative, ModuleIndex.nameOf, ModuleIndex.absolute, h]
  rw [yielded, yielded, same]

theorem whole_of_unloadable [Collator] {tree : FileTree} {rootDir failing : String}
    (before after : List String)
    (unloadable : Unloadable tree (Path.toAbsolute (Path.resolve "/" rootDir) failing)) :
    (whole tree rootDir (before ++ failing :: after)).components =
        (whole tree rootDir (before ++ after)).components ∧
      (whole tree rootDir (before ++ failing :: after)).parsedFiles =
        (whole tree rootDir (before ++ after)).parsedFiles := by
  have parsed : (whole tree rootDir (before ++ failing :: after)).parsedFiles =
      (whole tree rootDir (before ++ after)).parsedFiles := by
    have unread :
        (load tree (Path.toAbsolute (Path.resolve "/" rootDir) failing)).toOption = none :=
      unloadable_iff.mp unloadable
    simp only [whole, gathered, readable_eq, List.map_append, List.map_cons, List.filter_append]
    rw [List.filter_cons_of_neg (by simp [unread])]
  refine ⟨?_, parsed⟩
  have collected : (whole tree rootDir (before ++ failing :: after)).collected tree =
      (whole tree rootDir (before ++ after)).collected tree := by
    rw [Extraction.collected, parsed, Extraction.collected]
    exact congrArg (fun f => (whole tree rootDir (before ++ after)).parsedFiles.flatMap f)
      (yielded_index rfl)
  rw [whole, whole, collected_gathered, collected_gathered] at collected
  exact congrArg catalogued collected

/-- Extraction ends with an account of all candidates, in which what cannot be loaded is only listed
as such: without it the same components come in the same order from the same files. -/
theorem failing_files_isolated [Collator] (tree : FileTree) (rootDir : String) (files : List String)
    (lanes : Float) (limit : Nat) (allowed : Number.toPositive? lanes = some limit)
    (verbose : Bool) :
    ∃ e, (∀ log, (run tree rootDir files lanes verbose).value log = .ok e) ∧
      Accounts tree rootDir files e ∧
      ∀ before after failing, files = before ++ after →
        Unloadable tree (Path.toAbsolute (Path.resolve "/" rootDir) failing) →
        ∃ e',
          (∀ log,
            (run tree rootDir (before ++ failing :: after) lanes verbose).value log = .ok e') ∧
          e'.components = e.components ∧ e'.parsedFiles = e.parsedFiles := by
  refine ⟨whole tree rootDir files, run_whole tree rootDir files allowed verbose,
    whole_accounts tree rootDir files, ?_⟩
  rintro before after failing rfl unloadable
  exact ⟨whole tree rootDir (before ++ failing :: after), run_whole tree rootDir _ allowed verbose,
    whole_of_unloadable before after unloadable⟩

open scoped Text.Alphabet

def redefinedTree : FileTree :=
  (FileTree.empty.write "/r/a.py" (.file "def f(): 0\ndef g(): 0\ndef f(): 1\n".toUTF8)).write
    "/r/b.py" (.file "(".toUTF8)

set_option maxRecDepth 100000 in
theorem redefined_failing_file_isolated :
    Number.toPositive? 4 = some 4 ∧ Unloadable redefinedTree "/r/b.py" ∧
    ∃ e, (∀ log, (run redefinedTree "/r" ["a.py"] 4 false).value log = .ok e) ∧
      e.parsedFiles = ["/r/a.py"] ∧ e.components.keys = ["a.f", "a.g"] ∧
      (e.components.get? "a.f").map (·.startLine) = some 3 ∧
      ∃ e', (∀ log, (run redefinedTree "/r" ["a.py", "b.py"] 4 false).value log = .ok e') ∧
        e'.components = e.components ∧ e'.parsedFiles = e.parsedFiles := by
  have lanes : Number.toPositive? 4 = some 4 := by decide +kernel
  have broken : Unloadable redefinedTree "/r/b.py" :=
    unloadable_iff.mpr (by decide +kernel)
  have sound : (load redefinedTree "/r/a.py").toOption.isSome := by decide +kernel
  obtain ⟨e, done, accounts, isolated⟩ :=
    failing_files_isolated redefinedTree "/r" ["a.py"] 4 4 lanes false
  have listed : (["a.py"].map (Path.toAbsolute (Path.resolve "/" "/r"))) = ["/r/a.py"] := by
    decide +kernel
  have parsed : e.parsedFiles = ["/r/a.py"] := by
    have complete := accounts.complete
    rw [listed] at complete
    rcases List.append_eq_singleton_iff.mp (List.perm_singleton.mp complete) with
      ⟨_, failed⟩ | ⟨parsed, _⟩
    · have unread := (accounts.failed "/r/a.py" (by simp [listed])).mp (by simp [failed])
      rw [unloadable_iff.mp unread] at sound
      cases sound
    · exact parsed
  have collected : e.collected redefinedTree =
      yielded redefinedTree (indexOf "/r" ["a.py"]) "/r/a.py" := by
    rw [Extraction.collected, parsed, accounts.index]
    exact List.append_nil _
  refine ⟨lanes, broken, e, done, parsed, ?_, ?_, ?_⟩
  · rw [accounts.ids, collected]
    decide +kernel
  · rw [accounts.last, collected]
    decide +kernel
  · exact isolated ["a.py"] [] "b.py" rfl broken

end Extraction

end RepoAtlas
