import Mathlib.Data.List.Basic
import RepoAtlas.FileTree
import RepoAtlas.Module.Naming
import RepoAtlas.Proofs.Text.Segments

/-!
Paths in normal form. The parts of an absolute path are plain names, and writing them down and
reading them again gives the same parts, so a path and its normal form lead to the same entry of a
file tree.
-/
namespace RepoAtlas.Path
open Text

/-- A part that is the name of an entry, not an instruction where to go. -/
structure Plain (part : String) : Prop where
  ne_empty : part ≠ ""
  ne_here : part ≠ "."
  ne_up : part ≠ ".."
  no_slash : '/' ∉ part.toList

theorem settle_cons_plain {absolute : Bool} {stack rest : List String} {part : String}
    (h : Plain part) :
    settle absolute stack (part :: rest) = settle absolute (part :: stack) rest := by
  simp [settle, h.ne_empty, h.ne_here, h.ne_up]

theorem settle_cons_idle {absolute : Bool} {stack rest : List String} {part : String}
    (h : part = "" ∨ part = ".") :
    settle absolute stack (part :: rest) = settle absolute stack rest := by
  simp [settle, h]

theorem settle_cons_up {absolute : Bool} {top : String} {below rest : List String}
    (h : top ≠ "..") :
    settle absolute (top :: below) (".." :: rest) = settle absolute below rest := by
  simp [settle, h]

theorem settle_append (absolute : Bool) (stack xs ys : List String) :
    settle absolute stack (xs ++ ys) = settle absolute (settle absolute stack xs).reverse ys := by
  fun_induction settle absolute stack xs <;> simp_all [settle]

theorem settle_of_plain {absolute : Bool} {stack parts : List String} (h : ∀ p ∈ parts, Plain p) :
    settle absolute stack parts = stack.reverse ++ parts := by
  induction parts generalizing stack with
  | nil => simp [settle]
  | cons part rest ih =>
    rw [settle_cons_plain (h part (by simp)), ih fun p hp => h p (List.mem_cons_of_mem _ hp)]
    simp

theorem settle_concat_plain {absolute : Bool} {stack init : List String} {last : String}
    (h : Plain last) :
    settle absolute stack (init ++ [last]) = settle absolute stack init ++ [last] := by
  rw [settle_append, settle_cons_plain h]
  simp [settle]

theorem settle_absolute_plain {stack parts : List String} (hs : ∀ p ∈ stack, Plain p)
    (hp : ∀ p ∈ parts, '/' ∉ p.toList) : ∀ p ∈ settle true stack parts, Plain p := by
  induction parts generalizing stack with
  | nil => simpa [settle] using hs
  | cons part rest ih =>
    have hrest : ∀ p ∈ rest, '/' ∉ p.toList := fun p h => hp p (List.mem_cons_of_mem _ h)
    by_cases idle : part = "" ∨ part = "."
    · rw [settle_cons_idle idle]
      exact ih hs hrest
    by_cases up : part = ".."
    · subst up
      cases stack with
      | nil => exact ih hs hrest
      | cons top below =>
        rw [settle_cons_up (hs top (by simp)).ne_up]
        exact ih (fun p h => hs p (List.mem_cons_of_mem _ h)) hrest
    · obtain ⟨nonempty, notHere⟩ := not_or.mp idle
      have plain : Plain part := ⟨nonempty, notHere, up, hp part (by simp)⟩
      rw [settle_cons_plain plain]
      refine ih (fun p h => ?_) hrest
      rcases List.mem_cons.mp h with rfl | h
      · exact plain
      · exact hs p h

theorem absoluteParts_plain (p : String) : ∀ part ∈ absoluteParts p, Plain part :=
  settle_absolute_plain (by simp) fun _ h => not_mem_of_mem_segments h

theorem absoluteParts_slash (p : String) : absoluteParts ("/" ++ p) = absoluteParts p := by
  have split : segments '/' ("/" ++ p) = "" :: segments '/' p := segments_append_sep "" p
  rw [absoluteParts, split, settle_cons_idle (Or.inl rfl), absoluteParts]

theorem absoluteParts_ofParts {parts : List String} (h : ∀ p ∈ parts, Plain p) :
    absoluteParts (ofParts parts) = parts := by
  rw [ofParts, absoluteParts_slash, absoluteParts]
  by_cases hne : parts = []
  · rw [hne]
    rfl
  · rw [show "/" = String.singleton '/' from rfl,
      segments_joinWith hne fun p hp => (h p hp).no_slash, settle_of_plain h]
    rfl

theorem resolve_root (p : String) : resolve "/" p = ofParts (absoluteParts p) := by
  rw [resolve]
  by_cases h : isAbsolute p = true
  · rw [if_pos h]
  · rw [if_neg h, String.append_assoc, absoluteParts_slash, absoluteParts_slash]

theorem absoluteParts_resolve_root (p : String) :
    absoluteParts (resolve "/" p) = absoluteParts p := by
  rw [resolve_root, absoluteParts_ofParts (absoluteParts_plain p)]

/-- Only the root is written with a slash at its end. -/
theorem ofParts_no_trailing_slash {parts : List String} (hne : parts ≠ [])
    (h : ∀ p ∈ parts, Plain p) : (ofParts parts).toList.getLast? ≠ some '/' := by
  obtain ⟨init, last, rfl⟩ : ∃ init last, parts = init ++ [last] :=
    ⟨_, _, (List.dropLast_concat_getLast hne).symm⟩
  have plain := h last (by simp)
  have text : ofParts (init ++ [last]) = "/" ++ joinWith "/" (init ++ [""]) ++ last := by
    rw [ofParts, String.append_assoc, ← joinWith_concat_append, String.empty_append]
  have nonempty : last.toList ≠ [] := by simpa using plain.ne_empty
  rw [text, String.toList_append, List.getLast?_append_of_ne_nil _ nonempty]
  intro slash
  exact plain.no_slash (List.mem_of_getLast? slash)

/-! Absolute spelling. -/

theorem isAbsolute_slash (s : String) : isAbsolute ("/" ++ s) = true := by
  rw [isAbsolute, startsWith, String.toList_append, List.isPrefixOf_iff_prefix]
  exact List.prefix_append ..

theorem toAbsolute_isAbsolute (root p : String) : isAbsolute (toAbsolute root p) = true := by
  rw [toAbsolute]
  by_cases h : isAbsolute p = true
  · rw [if_pos h, normalize]
    simp only [h, ↓reduceIte]
    exact isAbsolute_slash _
  · rw [if_neg h]
    exact isAbsolute_slash _

/-- An absolute path is written as its parts, apart from a slash at the end. -/
theorem normalize_absolute {p : String} (h : isAbsolute p = true) :
    normalize p = ofParts (absoluteParts p) ∨ (normalize p).toList.getLast? = some '/' := by
  have body : (if joinWith "/" (settle true [] (segments '/' p)) = "" then ""
      else joinWith "/" (settle true [] (segments '/' p))) = joinWith "/" (absoluteParts p) := by
    split
    · rename_i empty
      exact empty.symm
    · rfl
  simp only [normalize, h, ↓reduceIte, body]
  split
  · right
    rw [← String.append_assoc, String.toList_append]
    exact List.getLast?_concat
  · left
    rfl

theorem toAbsolute_eq_ofParts {root p : String}
    (h : (toAbsolute root p).toList.getLast? ≠ some '/') :
    toAbsolute root p = ofParts (absoluteParts (toAbsolute root p)) := by
  have written : ∃ parts, (∀ part ∈ parts, Plain part) ∧ toAbsolute root p = ofParts parts := by
    rw [toAbsolute] at h ⊢
    by_cases ha : isAbsolute p = true
    · rw [if_pos ha] at h ⊢
      exact ⟨_, absoluteParts_plain p, (normalize_absolute ha).resolve_right h⟩
    · rw [if_neg ha]
      exact ⟨_, absoluteParts_plain _, rfl⟩
  obtain ⟨parts, plain, heq⟩ := written
  rw [heq, absoluteParts_ofParts plain]

theorem resolve_resolve_root (p : String) : resolve "/" (resolve "/" p) = resolve "/" p := by
  rw [resolve_root (resolve "/" p), absoluteParts_resolve_root, ← resolve_root]

/-! File names with the extension of modules. -/

def HasExtension (p : String) : Prop := ∃ stem, p = stem ++ Module.extension

theorem plain_of_extension {stem : String} (h : '/' ∉ stem.toList) :
    Plain (stem ++ Module.extension) := by
  have length : 3 ≤ (stem ++ Module.extension).length := by
    rw [String.length_append]
    exact Nat.le_add_left 3 _
  refine ⟨?_, ?_, ?_, ?_⟩
  · intro he
    rw [he] at length
    exact absurd length (by decide)
  · intro he
    rw [he] at length
    exact absurd length (by decide)
  · intro he
    rw [he] at length
    exact absurd length (by decide)
  · rw [String.toList_append, List.mem_append]
    exact not_or.mpr ⟨h, by decide⟩

/-- The last part of a path with the extension survives settling and keeps the extension. -/
theorem settle_extension {p : String} (h : HasExtension p) (absolute : Bool) :
    ∃ init stem, settle absolute [] (segments '/' p) = init ++ [stem ++ Module.extension] := by
  obtain ⟨stem, rfl⟩ := h
  have hne := segments_ne_nil '/' stem
  have split := (List.dropLast_concat_getLast hne).symm
  have plain : Plain ((segments '/' stem).getLast hne ++ Module.extension) :=
    plain_of_extension (not_mem_of_mem_segments (List.getLast_mem hne))
  rw [segments_append split (by decide), settle_concat_plain plain]
  exact ⟨_, _, rfl⟩

theorem absoluteParts_ne_nil {p : String} (h : HasExtension p) : absoluteParts p ≠ [] := by
  obtain ⟨init, stem, hparts⟩ := settle_extension h true
  rw [absoluteParts, hparts]
  simp

theorem normalize_extension {p : String} (h : HasExtension p) : HasExtension (normalize p) := by
  obtain ⟨init, stem, hparts⟩ := settle_extension h (isAbsolute p)
  have open_end : (p.toList.getLast? == some '/') = false := by
    obtain ⟨stem, rfl⟩ := h
    rw [String.toList_append, List.getLast?_append_of_ne_nil _ (by decide)]
    decide
  have body : joinWith "/" (init ++ [stem ++ Module.extension]) =
      joinWith "/" (init ++ [stem]) ++ Module.extension := joinWith_concat_append ..
  have nonempty : joinWith "/" (init ++ [stem]) ++ Module.extension ≠ "" := by
    simp [Module.extension]
  simp only [normalize, hparts, open_end, body, nonempty, ↓reduceIte, Bool.false_and,
    Bool.false_eq_true]
  split
  · exact ⟨_, (String.append_assoc ..).symm⟩
  · exact ⟨_, rfl⟩

theorem join_extension (pieces : List String) {piece : String} (h : HasExtension piece) :
    HasExtension (join (pieces ++ [piece])) := by
  obtain ⟨stem, rfl⟩ := h
  have kept : [stem ++ Module.extension].filter (fun piece => piece != "") =
      [stem ++ Module.extension] := by simp [Module.extension]
  apply normalize_extension
  rw [List.filter_append, kept, joinWith_concat_append]
  exact ⟨_, rfl⟩

end RepoAtlas.Path

namespace RepoAtlas.FileTree

theorem isFile_iff {t : FileTree} {p : String} : t.isFile p = true ↔
    (∃ bytes, t.entries.get? (Path.ofParts (Path.absoluteParts p)) = some (.file bytes)) ∧
      p.toList.getLast? ≠ some '/' := by
  rw [isFile, find?]
  cases t.entries.get? (Path.ofParts (Path.absoluteParts p)) with
  | none => simp
  | some e =>
    cases e with
    | directory => simp
    | file bytes => by_cases h : p.toList.getLast? = some '/' <;> simp [h]

/-- A file is found under its absolute path too. -/
theorem isFile_resolve_root {t : FileTree} {p : String} (h : t.isFile p = true)
    (hp : Path.HasExtension p) : t.isFile (Path.resolve "/" p) = true := by
  obtain ⟨found, _⟩ := isFile_iff.mp h
  rw [isFile_iff, Path.absoluteParts_resolve_root]
  refine ⟨found, ?_⟩
  rw [Path.resolve_root]
  exact Path.ofParts_no_trailing_slash (Path.absoluteParts_ne_nil hp) (Path.absoluteParts_plain p)

end RepoAtlas.FileTree
