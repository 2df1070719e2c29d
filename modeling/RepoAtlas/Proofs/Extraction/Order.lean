import RepoAtlas.Proofs.Origin.Catalogued
import RepoAtlas.Proofs.Path.Relative

/-!
Extraction forgets the order in which files are listed. Files are gone through by their paths in the
repository; two spellings of one such path differ by a slash at the end, and a path with that slash
cannot be read. So what is read is the same, in the same order, and what is not read comes out in an
order that only such spellings can disturb.
-/
namespace RepoAtlas.Extraction
open Text Python

theorem load_no_slash {tree : FileTree} {path : String}
    (h : (load tree path).toOption.isSome = true) :
    path.toList.getLast? ≠ some '/' := by
  have file : tree.isFile path = true := by
    rw [load, FileTree.read] at h
    rw [FileTree.isFile]
    cases hfind : tree.find? path with
    | none =>
      rw [hfind] at h
      cases h
    | some entry =>
      cases entry with
      | file bytes => rfl
      | directory =>
        rw [hfind] at h
        cases h
  exact (FileTree.isFile_iff.mp file).2

theorem nodup_eraseDups : ∀ xs : List String, xs.eraseDups.Nodup
  | [] => by simp
  | x :: xs => by
    rw [List.eraseDups_cons, List.nodup_cons, List.mem_eraseDups]
    exact ⟨by simp, nodup_eraseDups _⟩
termination_by xs => xs.length
decreasing_by
  rw [List.length_cons]
  exact Nat.lt_succ_of_le (List.length_filter_le ..)

variable {root : String} {files files' : List String}

theorem mem_candidates [Collator] {path : String} :
    path ∈ candidates root files ↔ path ∈ files.map (Path.toAbsolute root) := by
  rw [candidates, Collation.mem_sortBy, List.mem_eraseDups]

theorem candidates_perm [Collator]
    (same : ∀ path, path ∈ files.map (Path.toAbsolute root) ↔
      path ∈ files'.map (Path.toAbsolute root)) :
    (candidates root files).Perm (candidates root files') := by
  have once : ∀ files, (candidates root files).Nodup := fun files =>
    (Collation.sortBy_perm ..).nodup_iff.mpr (nodup_eraseDups _)
  refine (List.perm_ext_iff_of_nodup (once files) (once files')).mpr fun path => ?_
  rw [mem_candidates, mem_candidates, same]

/-- Of two candidates with one path in the repository at most one can be read. -/
theorem eq_of_readable [Collator] {tree : FileTree} {p q : String} (hp : p ∈ candidates root files)
    (hq : q ∈ candidates root files) (readable : (load tree p).toOption.isSome = true)
    (readable' : (load tree q).toOption.isSome = true)
    (same : Path.relativeTo root p = Path.relativeTo root q) : p = q := by
  have written : ∀ p ∈ candidates root files, (load tree p).toOption.isSome = true →
      p = Path.ofParts (Path.absoluteParts p) := by
    intro p hp readable
    obtain ⟨spelled, _, rfl⟩ := List.mem_map.mp (mem_candidates.mp hp)
    exact Path.toAbsolute_eq_ofParts (load_no_slash readable)
  rw [written p hp readable, written q hq readable', Path.absoluteParts_of_relativeTo same]

theorem resolve_candidate [Collator] {dir p : String} (h : p ∈ candidates root files) :
    Path.resolve dir p = Path.ofParts (Path.absoluteParts p) := by
  obtain ⟨spelled, _, rfl⟩ := List.mem_map.mp (mem_candidates.mp h)
  rw [Path.resolve, if_pos (Path.toAbsolute_isAbsolute root spelled)]

/-- The same was read; what could not be read is the same up to the order of spellings of one
path. -/
structure SameRead (root : String) (e e' : Extraction) : Prop where
  components : e.components = e'.components
  index : e.index = e'.index
  failed_perm : e.failedFiles.Perm e'.failedFiles
  failed_paths : e.failedFiles.map (Path.relativeTo root) =
    e'.failedFiles.map (Path.relativeTo root)

theorem yielded_readable (tree : FileTree) (index : ModuleIndex) (paths : List String) :
    paths.flatMap (yielded tree index) =
      (paths.filter fun path => (load tree path).toOption.isSome).flatMap (yielded tree index) := by
  induction paths with
  | nil => rfl
  | cons path paths ih =>
    rw [List.flatMap_cons, List.filter_cons, ih]
    cases hload : (load tree path).toOption with
    | none => simp [yielded, hload]
    | some source => simp

section
variable [Collator]
variable (same : ∀ path,
  path ∈ files.map (Path.toAbsolute root) ↔ path ∈ files'.map (Path.toAbsolute root))
variable (separate : Collation.Separates ((candidates root files).map (Path.relativeTo root)))
include same separate

/-- What is shown of the candidates that pass a test, if it tells their paths apart and nothing
more. -/
theorem map_filter_candidates {β : Type} (test : String → Bool) (g : String → β)
    (settled : ∀ p ∈ candidates root files, ∀ q ∈ candidates root files, g p = g q →
      Path.relativeTo root p = Path.relativeTo root q)
    (tie : ∀ p ∈ (candidates root files).filter test, ∀ q ∈ (candidates root files).filter test,
      Path.relativeTo root p = Path.relativeTo root q → g p = g q) :
    ((candidates root files).filter test).map g = ((candidates root files').filter test).map g := by
  have listed : ∀ p ∈ (candidates root files).filter test, p ∈ candidates root files :=
    fun p hp => (List.mem_filter.mp hp).1
  apply Collation.map_eq_of_ascending ((candidates_perm same).filter test)
    ((Collation.sortBy_ascending ..).filter test) ((Collation.sortBy_ascending ..).filter test)
  · exact fun p hp q hq => settled p (listed p hp) q (listed q hq)
  · intro p hp q hq equal
    exact tie p hp q hq (separate _ (List.mem_map_of_mem (listed p hp)) _
      (List.mem_map_of_mem (listed q hq)) equal)

theorem map_candidates {β : Type} (g : String → β)
    (settled : ∀ p ∈ candidates root files, ∀ q ∈ candidates root files, g p = g q →
      Path.relativeTo root p = Path.relativeTo root q)
    (tie : ∀ p ∈ candidates root files, ∀ q ∈ candidates root files,
      Path.relativeTo root p = Path.relativeTo root q → g p = g q) :
    (candidates root files).map g = (candidates root files').map g := by
  have all := map_filter_candidates same separate (fun _ => true) g settled
    (by simpa only [List.filter_true] using tie)
  simpa only [List.filter_true] using all

theorem ofFiles_candidates :
    ModuleIndex.ofFiles root (candidates root files) =
      ModuleIndex.ofFiles root (candidates root files') := by
  rw [ModuleIndex.ofFiles, ModuleIndex.ofFiles]
  congr 2
  apply map_candidates same separate
  · intro p hp q hq heq
    rw [resolve_candidate hp, resolve_candidate hq] at heq
    have parts : Path.absoluteParts p = Path.absoluteParts q := by
      rw [← Path.absoluteParts_ofParts (Path.absoluteParts_plain p), heq,
        Path.absoluteParts_ofParts (Path.absoluteParts_plain q)]
    rw [Path.relativeTo, parts, Path.relativeTo]
  · intro p hp q hq heq
    rw [resolve_candidate hp, resolve_candidate hq, Path.absoluteParts_of_relativeTo heq]

theorem readable_candidates (tree : FileTree) :
    ((candidates root files).filter fun path => (load tree path).toOption.isSome) =
      (candidates root files').filter fun path => (load tree path).toOption.isSome := by
  have mapped := map_filter_candidates same separate
    (fun path => (load tree path).toOption.isSome) id (fun p _ q _ heq => congrArg _ heq) ?_
  · simpa using mapped
  · intro p hp q hq heq
    obtain ⟨hp, readable⟩ := List.mem_filter.mp hp
    obtain ⟨hq, readable'⟩ := List.mem_filter.mp hq
    exact eq_of_readable hp hq readable readable' heq

theorem gathered_sameRead (tree : FileTree) (limit : Nat) {rootDir : String}
    (hroot : Path.resolve "/" rootDir = root) :
    SameRead root (gathered tree (indexOf rootDir files) (takenBy limit rootDir files))
      (gathered tree (indexOf rootDir files') (takenBy limit rootDir files')) := by
  have index : indexOf rootDir files = indexOf rootDir files' := by
    rw [indexOf, indexOf, hroot]
    exact ofFiles_candidates same separate
  by_cases lanes : limit = 0
  · simp only [takenBy, if_pos lanes, index]
    exact ⟨rfl, rfl, .refl _, rfl⟩
  · simp only [takenBy, if_neg lanes, index, hroot]
    refine ⟨?_, rfl, (candidates_perm same).filter _, ?_⟩
    · simp only [gathered]
      rw [yielded_readable, readable_candidates same separate, ← yielded_readable]
    · exact map_filter_candidates same separate _ _ (fun _ _ _ _ h => h) fun _ _ _ _ h => h

/-- Two extractions end alike: both for want of lanes, or both with the same read. -/
theorem run_sameRead (tree : FileTree) {rootDir : String} (hroot : Path.resolve "/" rootDir = root)
    (lanes : Float) (verbose : Bool) :
    ((∀ log, (run tree rootDir files lanes verbose).value log = .error ⟨lanes⟩) ∧
      ∀ log, (run tree rootDir files' lanes verbose).value log = .error ⟨lanes⟩) ∨
    ∃ e e', (∀ log, (run tree rootDir files lanes verbose).value log = .ok e) ∧
      (∀ log, (run tree rootDir files' lanes verbose).value log = .ok e') ∧ SameRead root e e' := by
  cases hl : Number.toPositive? lanes with
  | none => exact Or.inl ⟨run_of_no_lanes hl _ _ _ _, run_of_no_lanes hl _ _ _ _⟩
  | some limit =>
    exact Or.inr ⟨_, _, run_of_lanes hl _ _ _ _, run_of_lanes hl _ _ _ _,
      gathered_sameRead same separate tree limit hroot⟩

end

end RepoAtlas.Extraction
