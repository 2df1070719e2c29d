import RepoAtlas.Proofs.Text.Separators
import RepoAtlas.Reconcile.Strategy
import RepoAtlas.Text.Alphabet

/-!
Ids in full are placed as they stand. Whatever separators a callee is spelled with, if its segments
are those of an id, with the root package in front or without, that id is found before anything is
asked about the caller, its file or other components.
-/
namespace RepoAtlas.Text

theorem afterStart?_append (start rest : String) :
    afterStart? start (start ++ rest) = some rest := by
  have starts : startsWith start (start ++ rest) = true := by simp [startsWith]
  rw [afterStart?, if_pos starts]
  simp

end RepoAtlas.Text

namespace RepoAtlas.Reconcile
open Text

variable {id : String}

theorem findId_of_has {c : Catalog} (known : c.has id = true) (named : id ≠ "") :
    findId c id = some id := by
  rw [findId, if_neg named, List.find?_cons_of_pos known]

namespace Context
variable {k : Context} {s : String}

theorem place_of_normalized (h : k.matchNormalized s = some id) :
    k.place s Strategy.all = ⟨some id, []⟩ := by
  rw [Strategy.all, place]
  simp only [apply, h]

theorem place_of_rootPrefix (unplaced : k.matchNormalized s = none)
    (h : k.matchRootPrefix s = some id) : k.place s Strategy.all = ⟨some id, []⟩ := by
  rw [Strategy.all, place, place]
  simp only [apply, unplaced, h, List.append_nil]

end Context

def Proper (id : String) : Prop :=
  ∀ part ∈ segments '.' id, part ≠ "" ∧ '/' ∉ part.toList ∧ '\\' ∉ part.toList

instance (id : String) : Decidable (Proper id) :=
  inferInstanceAs (Decidable (∀ part ∈ segments '.' id,
    part ≠ "" ∧ '/' ∉ part.toList ∧ '\\' ∉ part.toList))

namespace Proper

theorem named (h : Proper id) : id ≠ "" := by
  rintro rfl
  exact (h "" (by decide)).1 rfl

theorem unseparated (h : Proper id) : ∀ part ∈ segments '.' id, Unseparated part := by
  intro part hp
  obtain ⟨_, slash, backslash⟩ := h part hp
  exact unseparated_of_not_mem (not_mem_of_mem_segments hp) slash backslash

theorem kept (h : Proper id) :
    (segments '.' id).filter (fun part => part != "") = segments '.' id := by
  rw [List.filter_eq_self]
  intro part hp
  simpa using (h part hp).1

theorem normalized (h : Proper id) {s : String} (spelled : Spelling (segments '.' id) s) :
    normalizeSeparators s = id := by
  rw [spelled.normalized h.unseparated, h.kept]
  exact joinWith_segments '.' id

theorem normalized_below (h : Proper id) {root s : String} (plain : Unseparated root)
    (spelled : Spelling (root :: segments '.' id) s) :
    normalizeSeparators s = if root = "" then id else root ++ "." ++ id := by
  have whole : dotted (segments '.' id) = id := joinWith_segments '.' id
  rw [spelled.normalized (List.forall_mem_cons.mpr ⟨plain, h.unseparated⟩)]
  by_cases empty : root = ""
  · rw [if_pos empty, List.filter_cons_of_neg (by simp [empty]), h.kept, whole]
  · rw [if_neg empty, List.filter_cons_of_pos (by simp [empty]), h.kept]
    obtain ⟨first, rest, split⟩ := List.exists_cons_of_ne_nil (segments_ne_nil '.' id)
    rw [split] at whole ⊢
    rw [← whole, dotted, joinWith, String.intercalate_cons_cons]
    rfl

end Proper

/-- Every spelling of an id leads to it, and so does every spelling below the root package as long
as no other component is found under that name. No file is opened on the way. -/
theorem every_spelling_placed (k : Context) (id : String) (known : k.catalog.has id = true)
    (proper : Proper id) :
    (∀ s, Spelling (segments '.' id) s → k.place s Strategy.all = ⟨some id, []⟩) ∧
      (Unseparated k.root → findId k.catalog (k.root ++ "." ++ id) = none →
        ∀ s, Spelling (k.root :: segments '.' id) s → k.place s Strategy.all = ⟨some id, []⟩) := by
  have found : findId k.catalog id = some id := findId_of_has known proper.named
  constructor
  · intro s spelled
    apply Context.place_of_normalized
    rw [Context.matchNormalized, proper.normalized spelled, found]
  · intro plain absent s spelled
    have normal := proper.normalized_below plain spelled
    by_cases empty : k.root = ""
    · apply Context.place_of_normalized
      rw [Context.matchNormalized, normal, if_pos empty, found]
    · rw [if_neg empty] at normal
      apply Context.place_of_rootPrefix
      · rw [Context.matchNormalized, normal, absent]
      · simp only [Context.matchRootPrefix, normal, afterStart?_append, found]

/-! A caller whose own package and imports both have something that ends like the callee. -/

open scoped Text.Alphabet

def crossroadsTree : FileTree :=
  FileTree.empty.write "/r/a.py" (.file "from c import b\ndef g(): pass\n".toUTF8)

def crossroadsCaller : Component := .placed "a.g" .function "/r/a.py" "a.py"

def crossroads : Context :=
  let catalog : Catalog := ⟨.ofList [("a.g", crossroadsCaller),
    ("b.f", .placed "b.f" .function "/r/b.py" "b.py"),
    ("a.b.f", .placed "a.b.f" .function "/r/a/b.py" "a/b.py"),
    ("c.b.f", .placed "c.b.f" .method "/r/c.py" "c.py")]⟩
  ⟨catalog, .ofTree (.ofFiles "/r" ["/r/a.py", "/r/b.py", "/r/a/b.py", "/r/c.py"]) crossroadsTree
    .empty, 65, .ofCatalog catalog, crossroadsCaller⟩

theorem crossroads_spellings_placed :
    crossroads.catalog.has "b.f" = true ∧ Proper "b.f" ∧ Unseparated crossroads.root ∧
      findId crossroads.catalog (crossroads.root ++ "." ++ "b.f") = none ∧
      Spelling (segments '.' "b.f") "/b\\./f." ∧
      Spelling (crossroads.root :: segments '.' "b.f") "r//b.f\\" ∧
      crossroads.place "/b\\./f." Strategy.all = ⟨some "b.f", []⟩ ∧
      crossroads.place "r//b.f\\" Strategy.all = ⟨some "b.f", []⟩ := by
  have root : crossroads.root = "r" := by decide +kernel
  have parts : segments '.' "b.f" = ["b", "f"] := by decide
  have bare : Spelling (segments '.' "b.f") "/b\\./f." := by
    have spelled : Spells ["b", "f"] ("b" ++ "\\./" ++ ("f" ++ ".")) :=
      .more (by decide) (by decide) (.last (by decide))
    exact parts ▸ ⟨"/", _, by decide, spelled, by decide⟩
  have below : Spelling (crossroads.root :: segments '.' "b.f") "r//b.f\\" := by
    have spelled : Spells ["r", "b", "f"] ("r" ++ "//" ++ ("b" ++ "." ++ ("f" ++ "\\"))) :=
      .more (by decide) (by decide) (.more (by decide) (by decide) (.last (by decide)))
    exact root ▸ parts ▸ ⟨"", _, by decide, spelled, by decide⟩
  have known : crossroads.catalog.has "b.f" = true := by decide +kernel
  have proper : Proper "b.f" := by decide
  have plain : Unseparated crossroads.root := by
    rw [root]
    decide
  have absent : findId crossroads.catalog (crossroads.root ++ "." ++ "b.f") = none := by
    decide +kernel
  obtain ⟨spelled, spelledBelow⟩ := every_spelling_placed crossroads "b.f" known proper
  exact ⟨known, proper, plain, absent, bare, below, spelled _ bare,
    spelledBelow plain absent _ below⟩

end RepoAtlas.Reconcile
