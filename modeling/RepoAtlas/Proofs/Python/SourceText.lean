import Mathlib.Data.List.Induction
import RepoAtlas.Python.Source

/-!
Lines and parts of a text. The line of an offset is one more than the line breaks before it, and a
part is what stands between its offsets.
-/
namespace RepoAtlas.Python

def lineBreaks (cs : List Char) : Nat := cs.count '\n'

theorem lineBreaks_append (cs ds : List Char) :
    lineBreaks (cs ++ ds) = lineBreaks cs + lineBreaks ds :=
  List.count_append

theorem lineBreaks_take_le (cs : List Char) {i j : Nat} (h : i ≤ j) :
    lineBreaks (cs.take i) ≤ lineBreaks (cs.take j) :=
  (List.take_prefix_take_left h).sublist.count_le '\n'

/-- One row for each character, on top of the row that the text starts with. -/
theorem foldl_rows {step : Array Nat × Nat → Char → Array Nat × Nat}
    (hstep : ∀ rows n c, step (rows, n) c = (rows.push (n + lineBreaks [c]), n + lineBreaks [c]))
    (cs : List Char) :
    cs.foldl step (#[0], 0) =
      (((List.range (cs.length + 1)).map fun i => lineBreaks (cs.take i)).toArray,
        lineBreaks cs) := by
  induction cs using List.reverseRecOn with
  | nil => rfl
  | append_singleton cs c ih =>
    have earlier : (List.range (cs.length + 1)).map (fun i => lineBreaks ((cs ++ [c]).take i)) =
        (List.range (cs.length + 1)).map fun i => lineBreaks (cs.take i) := by
      refine List.map_congr_left fun i hi => ?_
      rw [List.take_append_of_le_length (Nat.le_of_lt_succ (List.mem_range.mp hi))]
    have last : (cs ++ [c]).take (cs.length + 1) = cs ++ [c] := List.take_of_length_le (by simp)
    have rows : (List.range (cs.length + 1 + 1)).map (fun i => lineBreaks ((cs ++ [c]).take i)) =
        (List.range (cs.length + 1)).map (fun i => lineBreaks (cs.take i)) ++
          [lineBreaks cs + lineBreaks [c]] := by
      rw [List.range_succ, List.map_append, earlier, List.map_singleton, last, lineBreaks_append]
    rw [List.foldl_append, ih, List.foldl_cons, List.foldl_nil, hstep, List.length_append,
      List.length_singleton, rows, lineBreaks_append, List.push_toArray]

namespace SourceText

theorem line_ofChars {cs : List Char} {offset : Nat} (h : offset ≤ cs.length) :
    (ofChars cs).line offset = lineBreaks (cs.take offset) + 1 := by
  have rows : countRows cs =
      ((List.range (cs.length + 1)).map fun i => lineBreaks (cs.take i)).toArray := by
    unfold countRows
    rw [foldl_rows _ cs]
    intro rows n c
    by_cases hc : c = '\n' <;> simp [lineBreaks, hc]
  rw [line, ofChars, rows]
  simp [Array.getD, Nat.lt_succ_of_le h]

theorem slice_ofChars (cs : List Char) (s : Span) :
    (ofChars cs).slice s = (cs.drop s.start).take (s.stop - s.start) := by
  simp [slice, ofChars]

end SourceText

end RepoAtlas.Python
