import RepoAtlas.Proofs.Reconcile.Keys
import RepoAtlas.Text.Alphabet

/-!
Importers leave out the initialiser of a package, ids keep it. Looking up a path as importers write
it tries to put the initialiser back, the rightmost place first, and so comes to the component that
was meant or to one whose id has the initialiser further to the right. A component of a file whose
name is nothing but a dot and the initialiser is the exception: to an importer that file has no name
at all.
-/
namespace RepoAtlas
open Text

namespace Text

theorem dotted_append {xs ys : List String} (hx : xs ≠ []) (hy : ys ≠ []) :
    dotted (xs ++ ys) = dotted xs ++ "." ++ dotted ys := by
  rw [dotted, joinWith, String.intercalate_append_of_ne_nil hx hy]
  rfl

theorem dotted_segments (s : String) : dotted (segments '.' s) = s := joinWith_segments '.' s

theorem segments_below (s t : String) :
    segments '.' (s ++ "." ++ t) = segments '.' s ++ segments '.' t := segments_append_sep s t

/-- Parts without dots are joined to nothing only if there are none or a single empty one. -/
theorem eq_nil_or_singleton_of_dotted_eq_empty {parts : List String} (h : dotted parts = "") :
    parts = [] ∨ parts = [""] := by
  match parts with
  | [] => exact Or.inl rfl
  | [part] =>
    right
    rw [dotted, joinWith, String.intercalate_singleton] at h
    rw [h]
  | first :: second :: rest =>
    rw [dotted, joinWith, String.intercalate_cons_cons] at h
    simp at h

end Text

namespace Module

/-- A name either stays as it is or loses its last segment, the initialiser. -/
theorem foldInitialiser_cases (name : String) :
    foldInitialiser name = name ∨
      ∃ parts, segments '.' name = parts ++ [initialiser] ∧
        foldInitialiser name = dotted parts := by
  by_cases folds : (segments '.' name).getLast? = some initialiser
  · obtain ⟨parts, heq⟩ := List.getLast?_eq_some_iff.mp folds
    refine Or.inr ⟨parts, heq, ?_⟩
    simp only [foldInitialiser, if_pos folds]
    rw [heq, List.dropLast_concat]
  · left
    simp only [foldInitialiser, if_neg folds]
    exact dotted_segments name

end Module

theorem ModuleIndex.importNameOf_eq (index : ModuleIndex) (file : String) :
    index.importNameOf file = Module.foldInitialiser (index.nameOf file) := rfl

namespace Reconcile

/-- The path with the initialiser put in before the segment at the given position. -/
def WithInitialiser (path : String) (i : Nat) (id : String) : Prop :=
  ∃ left right, segments '.' path = left ++ right ∧ left.length = i ∧ right ≠ [] ∧
    id = dotted (left ++ Module.initialiser :: right)

theorem withInitialiser_iff {path id : String} {i : Nat} :
    WithInitialiser path i id ↔ i < (segments '.' path).length ∧
      id = dotted (insertAt Module.initialiser i (segments '.' path)) := by
  constructor
  · rintro ⟨left, right, heq, rfl, nonempty, rfl⟩
    have room : 0 < right.length := List.length_pos_iff.mpr nonempty
    rw [heq, insertAt, List.take_left, List.drop_left, List.length_append]
    exact ⟨by omega, rfl⟩
  · rintro ⟨room, rfl⟩
    refine ⟨_, _, (List.take_append_drop i _).symm, ?_, ?_, rfl⟩
    · rw [List.length_take]
      omega
    · rw [Ne, List.drop_eq_nil_iff]
      omega

/-- Trying numbers from the highest down finds the highest that will do. -/
theorem find?_highest {α : Type} (f : Nat → α) (p : α → Bool) {n k : Nat} (hk : k < n)
    (known : p (f k) = true) :
    ∃ i < n, k ≤ i ∧ p (f i) = true ∧ (∀ j, i < j → j < n → p (f j) = false) ∧
      ((List.range n).reverse.map f).find? p = some (f i) := by
  induction n with
  | zero => cases hk
  | succ n ih =>
    rw [List.range_succ, List.reverse_append, List.reverse_singleton, List.singleton_append,
      List.map_cons]
    by_cases last : p (f n) = true
    · exact ⟨n, by omega, by omega, last, fun j _ _ => by omega, List.find?_cons_of_pos last⟩
    · have below : k < n := by
        rcases Nat.lt_succ_iff_lt_or_eq.mp hk with below | rfl
        · exact below
        · exact absurd known last
      obtain ⟨i, hi, le, found, higher, first⟩ := ih below
      refine ⟨i, by omega, le, found, fun j hij hj => ?_, ?_⟩
      · rcases Nat.lt_succ_iff_lt_or_eq.mp hj with hj | rfl
        · exact higher j hij hj
        · simpa using last
      · rw [List.find?_cons_of_neg last, first]

/-- What looking up a path comes to when the initialiser can be put back into it to give a known
id. -/
structure Unfolds (c : Catalog) (path id : String) : Prop where
  verbatim : c.has path = true → findId c path = some path
  rightmost : c.has path = false → ∃ i found, findId c path = some found ∧
    WithInitialiser path i found ∧ c.has found = true ∧
    (∀ j other, i < j → WithInitialiser path j other → c.has other = false) ∧
    ∃ k, WithInitialiser path k id ∧ (found = id ∨ k < i)

theorem unfolds_of_withInitialiser {c : Catalog} {path id : String} {k : Nat} (named : path ≠ "")
    (inserted : WithInitialiser path k id) (known : c.has id = true) : Unfolds c path id where
  verbatim whole := findId_of_has whole named
  rightmost absent := by
    obtain ⟨room, heq⟩ := withInitialiser_iff.mp inserted
    obtain ⟨i, hi, le, found, higher, first⟩ :=
      find?_highest (fun i => dotted (insertAt Module.initialiser i (segments '.' path))) c.has room
        (heq ▸ known)
    refine ⟨i, _, ?_, withInitialiser_iff.mpr ⟨hi, rfl⟩, found, ?_, k, inserted, ?_⟩
    · rw [findId, if_neg named, List.find?_cons_of_neg (by simp [absent])]
      exact first
    · intro j other hij later
      obtain ⟨hj, rfl⟩ := withInitialiser_iff.mp later
      exact higher j hij hj
    · rcases Nat.lt_or_eq_of_le le with further | rfl
      · exact Or.inr further
      · exact Or.inl heq.symm

theorem unfolds_of_has {c : Catalog} {id : String} (named : id ≠ "") (known : c.has id = true) :
    Unfolds c id id where
  verbatim whole := findId_of_has whole named
  rightmost absent := by
    rw [known] at absent
    cases absent

def importedBelow (moduleName inside : String) : String :=
  if moduleName = "" then inside else moduleName ++ "." ++ inside

/-- A path below a folded name leads back to the path below the name itself. -/
theorem unfolds_importedBelow {c : Catalog} {name inside : String} (named : name ≠ "")
    (undotted : name ≠ "." ++ Module.initialiser) (nonempty : inside ≠ "")
    (known : c.has (name ++ "." ++ inside) = true) :
    Unfolds c (importedBelow (Module.foldInitialiser name) inside) (name ++ "." ++ inside) := by
  rcases Module.foldInitialiser_cases name with same | ⟨parts, heq, folded⟩
  · rw [same, importedBelow, if_neg named]
    exact unfolds_of_has (by simp) known
  · have whole : name = dotted (parts ++ [Module.initialiser]) := by rw [← heq, dotted_segments]
    have rest : segments '.' inside ≠ [] := segments_ne_nil '.' inside
    -- the id is what the parts, the initialiser and the name inside the file are joined to
    have id_eq : name ++ "." ++ inside =
        dotted (parts ++ Module.initialiser :: segments '.' inside) := by
      rw [List.append_cons, dotted_append (by simp) rest, ← whole, dotted_segments]
    rw [folded]
    by_cases empty : dotted parts = ""
    · rcases eq_nil_or_singleton_of_dotted_eq_empty empty with rfl | rfl
      · rw [importedBelow, if_pos empty]
        exact unfolds_of_withInitialiser nonempty ⟨[], _, rfl, rfl, rest, id_eq⟩ known
      · exact absurd whole undotted
    · have some : parts ≠ [] := by
        rintro rfl
        exact empty rfl
      have free : ∀ part ∈ parts, '.' ∉ part.toList := fun part hp =>
        @not_mem_of_mem_segments '.' name part (by simp [heq, hp])
      have own : segments '.' (dotted parts) = parts := segments_joinWith some free
      rw [importedBelow, if_neg empty]
      refine unfolds_of_withInitialiser (by simp) ⟨parts, _, ?_, rfl, rest, id_eq⟩ known
      rw [segments_below, own]

/-- In the catalog of an extraction, a component is found under the path by which importers name it,
or else the one whose id is that path with the initialiser put in furthest to the right. -/
theorem folded_paths_found [Collator] (tree : FileTree) (rootDir : String) (files : List String)
    (lanes : Float) (verbose : Bool) (before : List Log.Entry) (e : Extraction)
    (extracted : (Extraction.run tree rootDir files lanes verbose).value before = .ok e)
    (id : String) (c : Component) (kept : e.components.get? id = some c)
    (named : e.index.nameOf c.filePath ≠ "")
    (undotted : e.index.nameOf c.filePath ≠ "." ++ Module.initialiser) :
    ∃ y ∈ e.traces tree, y.component = c ∧ c.id = e.index.nameOf c.filePath ++ "." ++ y.inside ∧
      Unfolds ⟨e.components⟩ (importedBelow (e.index.importNameOf c.filePath) y.inside) c.id := by
  have fresh := Extraction.run_unlinked extracted
  obtain ⟨index, paths, rfl⟩ := Extraction.run_gathered extracted
  obtain ⟨y, hy, same, _, _, below, spelled⟩ := Extraction.kept_below kept
  refine ⟨y, hy, same, below, ?_⟩
  have own : c.id = id := fresh.id_eq id c (Table.mem_of_get? kept)
  have known : Catalog.has ⟨(Extraction.gathered tree index paths).components⟩ c.id = true := by
    rw [own]
    exact Option.isSome_iff_exists.mpr ⟨c, kept⟩
  have nonempty : y.inside ≠ "" := by
    intro empty
    rw [empty] at spelled
    exact absurd (spelled "" (by decide)) (by decide)
  rw [below] at known ⊢
  rw [ModuleIndex.importNameOf_eq]
  exact unfolds_importedBelow named undotted nonempty known

section
set_option maxRecDepth 100000

open scoped Text.Alphabet

def packagedTree : FileTree :=
  FileTree.empty.write "/r/p/__init__.py" (.file "class C:\n def __init__(s): 0\n".toUTF8)

def packagedRead : Extraction :=
  .gathered packagedTree (Extraction.indexOf "/r" ["p/__init__.py"]) ["/r/p/__init__.py"]

/-- The name of the constructor is that of the initialiser, and is taken for one first. -/
theorem packaged_constructor_found :
    (Extraction.run packagedTree "/r" ["p/__init__.py"] 4 false).value [] = .ok packagedRead ∧
    ∃ c, packagedRead.components.get? "p.__init__.C.__init__" = some c ∧
      packagedRead.index.nameOf c.filePath = "p.__init__" ∧
      ∃ y ∈ packagedRead.traces packagedTree, y.component = c ∧
        c.id = packagedRead.index.nameOf c.filePath ++ "." ++ y.inside ∧
        Unfolds ⟨packagedRead.components⟩
          (importedBelow (packagedRead.index.importNameOf c.filePath) y.inside) c.id := by
  have extracted : (Extraction.run packagedTree "/r" ["p/__init__.py"] 4 false).value [] =
      .ok packagedRead := Extraction.run_singleton _ _ (by decide +kernel)
  have kept : (packagedRead.components.get? "p.__init__.C.__init__").any
      fun c => packagedRead.index.nameOf c.filePath == "p.__init__" := by decide +kernel
  obtain ⟨c, hc, name⟩ := (Option.any_eq_true _ _).mp kept
  have module := beq_iff_eq.mp name
  refine ⟨extracted, c, hc, module, ?_⟩
  exact folded_paths_found packagedTree "/r" ["p/__init__.py"] 4 false
    [] packagedRead extracted _ c hc (by rw [module]; decide) (by rw [module]; decide)

def hiddenTree : FileTree := FileTree.empty.write "/r/.__init__.py" (.file "def f(): 0\n".toUTF8)

def hiddenRead : Extraction :=
  .gathered hiddenTree (Extraction.indexOf "/r" [".__init__.py"]) ["/r/.__init__.py"]

theorem hidden_component_not_found :
    (Extraction.run hiddenTree "/r" [".__init__.py"] 4 false).value [] = .ok hiddenRead ∧
    ∃ c, hiddenRead.components.get? ".__init__.f" = some c ∧
      hiddenRead.index.nameOf c.filePath ≠ "" ∧
      c.id = hiddenRead.index.nameOf c.filePath ++ "." ++ "f" ∧
      importedBelow (hiddenRead.index.importNameOf c.filePath) "f" = "f" ∧
      findId ⟨hiddenRead.components⟩ "f" = none := by
  have kept : (hiddenRead.components.get? ".__init__.f").any fun c =>
      hiddenRead.index.nameOf c.filePath == ".__init__" && c.id == ".__init__.f" &&
        hiddenRead.index.importNameOf c.filePath == "" := by decide +kernel
  obtain ⟨c, hc, test⟩ := (Option.any_eq_true _ _).mp kept
  obtain ⟨⟨module, hid⟩, folded⟩ := (Bool.and_eq_true_iff.mp test).imp_left Bool.and_eq_true_iff.mp
  refine ⟨Extraction.run_singleton _ _ (by decide +kernel), c, hc, ?_, ?_, ?_, by decide +kernel⟩
  · rw [beq_iff_eq.mp module]
    decide
  · rw [beq_iff_eq.mp module, beq_iff_eq.mp hid]
    rfl
  · rw [beq_iff_eq.mp folded]
    rfl

end

end Reconcile

end RepoAtlas
