import Mathlib.Data.List.TakeWhile
import Mathlib.Tactic.Common
import RepoAtlas.Text.Segments

/-!
Taking a text apart at a separator and joining the segments again are inverse to each other. What is
stripped off the ends of a text is of one kind, and what stays has none of that kind at its ends.
-/
namespace RepoAtlas.Text
variable {sep : Char}

theorem segments_ne_nil (sep : Char) (s : String) : segments sep s ≠ [] := by
  simp [segments]

theorem not_mem_of_mem_splitOn {xs part : List Char} (h : part ∈ xs.splitOn sep) : sep ∉ part := by
  induction xs generalizing part with
  | nil => simp_all
  | cons c xs ih =>
    rw [List.splitOn_cons_eq_if_modifyHead] at h
    split at h
    · rcases List.mem_cons.mp h with rfl | h
      · simp
      · exact ih h
    · -- the first segment grows by a character that is no separator
      rename_i hc
      cases hs : xs.splitOn sep with
      | nil => exact absurd hs (List.splitOn_ne_nil sep xs)
      | cons first rest =>
        rw [hs, List.modifyHead_cons] at h
        rw [hs] at ih
        rcases List.mem_cons.mp h with rfl | h
        · intro hm
          rcases List.mem_cons.mp hm with rfl | hm
          · simp at hc
          · exact ih (by simp) hm
        · exact ih (List.mem_cons_of_mem _ h)

theorem not_mem_of_mem_segments {s part : String} (h : part ∈ segments sep s) :
    sep ∉ part.toList := by
  obtain ⟨cs, hcs, rfl⟩ := List.mem_map.mp h
  rw [String.toList_ofList]
  exact not_mem_of_mem_splitOn hcs

theorem segments_append_sep (s t : String) :
    segments sep (s ++ String.singleton sep ++ t) = segments sep s ++ segments sep t := by
  simp [segments, List.splitOn_append_cons_self]

theorem joinWith_segments (sep : Char) (s : String) :
    joinWith (String.singleton sep) (segments sep s) = s := by
  rw [← String.toList_inj, joinWith, String.toList_intercalate, segments, List.map_map]
  have same : String.toList ∘ String.ofList = id := funext fun _ => String.toList_ofList
  rw [same, List.map_id, String.toList_singleton, List.intercalate_splitOn]

theorem segments_joinWith {parts : List String} (hne : parts ≠ [])
    (h : ∀ p ∈ parts, sep ∉ p.toList) :
    segments sep (joinWith (String.singleton sep) parts) = parts := by
  have same : String.ofList ∘ String.toList = id := funext fun _ => String.ofList_toList
  rw [segments, joinWith, String.toList_intercalate, String.toList_singleton,
    List.splitOn_intercalate, List.map_map, same, List.map_id]
  · simpa using h
  · simpa using hne

theorem segments_free {n : String} (free : sep ∉ n.toList) : segments sep n = [n] := by
  have single : joinWith (String.singleton sep) [n] = n := by simp [joinWith]
  have parts : segments sep (joinWith (String.singleton sep) [n]) = [n] :=
    segments_joinWith (by simp) (by simpa using free)
  rw [single] at parts
  exact parts

theorem segments_append_free (m : String) {n : String} (free : '.' ∉ n.toList) :
    segments '.' (m ++ "." ++ n) = segments '.' m ++ [n] := by
  rw [← segments_free free]
  exact segments_append_sep m n

theorem joinWith_concat_append (glue : String) (init : List String) (last t : String) :
    joinWith glue (init ++ [last ++ t]) = joinWith glue (init ++ [last]) ++ t := by
  cases init with
  | nil => simp [joinWith]
  | cons first rest =>
    simp only [joinWith]
    rw [String.intercalate_append_of_ne_nil (by simp) (by simp),
      String.intercalate_append_of_ne_nil (by simp) (by simp)]
    simp [String.append_assoc]

/-- What is appended without a separator goes to the last segment. -/
theorem segments_append {init : List String} {last s t : String}
    (hs : segments sep s = init ++ [last]) (ht : sep ∉ t.toList) :
    segments sep (s ++ t) = init ++ [last ++ t] := by
  have free : ∀ p ∈ init ++ [last], sep ∉ p.toList := fun p hp =>
    not_mem_of_mem_segments (hs ▸ hp)
  rw [← joinWith_segments sep s, hs, ← joinWith_concat_append, segments_joinWith (by simp)]
  intro p hp
  rcases List.mem_append.mp hp with hp | hp
  · exact free p (List.mem_append_left _ hp)
  · rw [List.mem_singleton.mp hp, String.toList_append, List.mem_append]
    exact not_or.mpr ⟨free last (by simp), ht⟩

/-! The ends of a text. -/

section Ends
variable {kind : Char → Bool} {cs : List Char} {c : Char}

theorem head?_dropWhile (hc : c ∈ (cs.dropWhile kind).head?) : kind c = false := by
  have stops := List.head?_dropWhile_not kind cs
  rw [Option.mem_def.mp hc] at stops
  exact stops

theorem stripEnds_front (kind : Char → Bool) (cs : List Char) :
    stripEnds kind cs <+: cs.dropWhile kind := by
  have back : (cs.dropWhile kind).reverse.dropWhile kind <:+ (cs.dropWhile kind).reverse :=
    List.dropWhile_suffix _
  rwa [← List.reverse_prefix, List.reverse_reverse] at back

theorem stripEnds_inside (kind : Char → Bool) (cs : List Char) : stripEnds kind cs <:+: cs :=
  (stripEnds_front kind cs).isInfix.trans (List.dropWhile_suffix kind).isInfix

theorem stripEnds_first (hc : c ∈ (stripEnds kind cs).head?) : kind c = false := by
  obtain ⟨rest, heq⟩ := stripEnds_front kind cs
  have front : c ∈ (cs.dropWhile kind).head? := by
    rw [← heq, List.head?_append, Option.mem_def.mp hc]
    rfl
  exact head?_dropWhile front

theorem stripEnds_last (hc : c ∈ (stripEnds kind cs).getLast?) : kind c = false := by
  rw [stripEnds, List.getLast?_reverse] at hc
  exact head?_dropWhile hc

/-- Nothing but characters of the kind is taken off. -/
theorem stripEnds_spec (kind : Char → Bool) (cs : List Char) : ∃ before after,
    (∀ c ∈ before, kind c = true) ∧ (∀ c ∈ after, kind c = true) ∧
      cs = before ++ stripEnds kind cs ++ after := by
  have back : cs.dropWhile kind = stripEnds kind cs ++
      ((cs.dropWhile kind).reverse.takeWhile kind).reverse := by
    rw [stripEnds, ← List.reverse_append, List.takeWhile_append_dropWhile, List.reverse_reverse]
  refine ⟨cs.takeWhile kind, ((cs.dropWhile kind).reverse.takeWhile kind).reverse, ?_, ?_, ?_⟩
  · intro c hc
    exact List.mem_takeWhile_imp hc
  · intro c hc
    exact List.mem_takeWhile_imp (List.mem_reverse.mp hc)
  · rw [List.append_assoc, ← back, List.takeWhile_append_dropWhile]

end Ends

end RepoAtlas.Text
