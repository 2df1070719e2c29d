import Mathlib.Tactic.Common
import RepoAtlas.Reconcile.Overlap

/-!
The overlap of two lists of segments is the length of a longest common subsequence. Each row of the
table belongs to a beginning of the first list and has one entry for each beginning of the second;
what an entry says about its two beginnings follows from its three neighbours.
-/
namespace RepoAtlas.Reconcile

/-- A number is the length of a longest common subsequence. -/
structure IsOverlap (a b : List String) (n : Nat) : Prop where
  reached : ∃ s : List String, s.Sublist a ∧ s.Sublist b ∧ s.length = n
  greatest : ∀ s : List String, s.Sublist a → s.Sublist b → s.length ≤ n

/-! One segment more at the end. -/

theorem sublist_snoc {s u : List String} {x : String} (h : s.Sublist (u ++ [x])) :
    s.Sublist u ∨ ∃ t : List String, s = t ++ [x] ∧ t.Sublist u := by
  obtain ⟨t, last, rfl, ht, hlast⟩ := List.sublist_append_iff.mp h
  cases hlast with
  | cons _ none =>
    obtain rfl := List.sublist_nil.mp none
    exact .inl (by simpa using ht)
  | cons_cons _ none =>
    obtain rfl := List.sublist_nil.mp none
    exact .inr ⟨t, rfl, ht⟩

namespace IsOverlap
variable {u v : List String} {x y : String} {m n : Nat}

theorem nil_left (v : List String) : IsOverlap [] v 0 where
  reached := ⟨[], List.Sublist.refl [], List.nil_sublist v, rfl⟩
  greatest s hs _ := by
    obtain rfl := List.sublist_nil.mp hs
    exact Nat.zero_le 0

theorem nil_right (u : List String) : IsOverlap u [] 0 where
  reached := ⟨[], List.nil_sublist u, List.Sublist.refl [], rfl⟩
  greatest s _ hs := by
    obtain rfl := List.sublist_nil.mp hs
    exact Nat.zero_le 0

/-- A segment at the end of both lists can always be the last of a longest common subsequence. -/
theorem same (h : IsOverlap u v n) : IsOverlap (u ++ [x]) (v ++ [x]) (n + 1) where
  reached := by
    obtain ⟨s, hu, hv, length⟩ := h.reached
    exact ⟨s ++ [x], hu.append (.refl [x]), hv.append (.refl [x]), by simp [length]⟩
  greatest s hu hv := by
    rcases sublist_snoc hu with inU | ⟨t, rfl, inU⟩
    · rcases sublist_snoc hv with inV | ⟨t, rfl, inV⟩
      · exact Nat.le_succ_of_le (h.greatest s inU inV)
      · have beginning := h.greatest t ((List.sublist_append_left t [x]).trans inU) inV
        simpa using beginning
    · have beginning : t.Sublist v := by
        rcases sublist_snoc hv with inV | ⟨t', heq, inV⟩
        · exact (List.sublist_append_left t [x]).trans inV
        · exact (List.append_inj_left' heq rfl) ▸ inV
      simpa using h.greatest t inU beginning

/-- Of two different segments at the end, one is left out. -/
theorem different (hne : x ≠ y) (above : IsOverlap u (v ++ [y]) m)
    (left : IsOverlap (u ++ [x]) v n) :
    IsOverlap (u ++ [x]) (v ++ [y]) (max m n) where
  reached := by
    rcases Nat.le_total n m with le | le
    · obtain ⟨s, hu, hv, length⟩ := above.reached
      exact ⟨s, hu.trans (List.sublist_append_left u [x]), hv, by rw [length, Nat.max_eq_left le]⟩
    · obtain ⟨s, hu, hv, length⟩ := left.reached
      exact ⟨s, hu, hv.trans (List.sublist_append_left v [y]), by rw [length, Nat.max_eq_right le]⟩
  greatest s hu hv := by
    rcases sublist_snoc hu with short | ⟨t, rfl, _⟩
    · exact Nat.le_trans (above.greatest s short hv) (Nat.le_max_left m n)
    · rcases sublist_snoc hv with short | ⟨t', heq, _⟩
      · exact Nat.le_trans (left.greatest _ hu short) (Nat.le_max_right m n)
      · have last : [x] = [y] := List.append_inj_right' heq rfl
        exact absurd (List.cons.inj last).1 hne

end IsOverlap

/-! Rows of the table. -/

/-- The entries of a row for the segments `ys` behind `v`: each is for `v` and the segments up to
its own. -/
inductive IsRow (u : List String) : List String → List String → List Nat → Prop where
  | nil {v : List String} : IsRow u v [] []
  | cons {v ys : List String} {y : String} {n : Nat} {ns : List Nat} :
      IsOverlap u (v ++ [y]) n → IsRow u (v ++ [y]) ys ns → IsRow u v (y :: ys) (n :: ns)

theorem isRow_zeros (v b : List String) : IsRow [] v b (b.map fun _ => 0) := by
  induction b generalizing v with
  | nil => exact .nil
  | cons y b ih => exact .cons (.nil_left _) (ih (v ++ [y]))

/-- One row more: the two entries that are carried along belong to the segments that were passed. -/
theorem IsRow.next {u v ys : List String} {row : List Nat} {left aboveLeft : Nat} (x : String)
    (h : IsRow u v ys row) (hleft : IsOverlap (u ++ [x]) v left)
    (habove : IsOverlap u v aboveLeft) :
    IsRow (u ++ [x]) v ys (nextRow x left aboveLeft (ys.zip row)) := by
  induction h generalizing left aboveLeft with
  | nil => exact .nil
  | @cons v ys y n ns above others ih =>
    rw [List.zip_cons_cons, nextRow]
    have entry : IsOverlap (u ++ [x]) (v ++ [y]) (if x = y then aboveLeft + 1 else max n left) := by
      by_cases same : x = y
      · rw [if_pos same, ← same]
        exact habove.same
      · rw [if_neg same]
        exact above.different same hleft
    exact .cons entry (ih entry above)

/-- All rows, from one that belongs to the beginning `u`. -/
theorem IsRow.foldl {u b : List String} {row : List Nat} (a : List String) (h : IsRow u [] b row) :
    IsRow (u ++ a) [] b (a.foldl (fun row x => nextRow x 0 0 (b.zip row)) row) := by
  induction a generalizing u row with
  | nil => simpa using h
  | cons x a ih =>
    have step := ih (h.next x (.nil_right _) (.nil_right _))
    rwa [List.append_assoc] at step

theorem IsRow.last {u v ys : List String} {row : List Nat} (h : IsRow u v ys row) {first : Nat}
    (hfirst : IsOverlap u v first) : IsOverlap u (v ++ ys) (row.getLastD first) := by
  induction h generalizing first with
  | nil => simpa using hfirst
  | cons entry _ ih =>
    rw [List.getLastD_cons, List.append_cons]
    exact ih entry

/-- The overlap of two lists is reached by a list that is a subsequence of both, and by no longer
one. -/
theorem overlap_longest (a b : List String) :
    (∃ s : List String, s.Sublist a ∧ s.Sublist b ∧ s.length = overlap a b) ∧
      ∀ s : List String, s.Sublist a → s.Sublist b → s.length ≤ overlap a b := by
  have table : IsRow ([] ++ a) [] b _ := (isRow_zeros [] b).foldl a
  have whole : IsOverlap a b (overlap a b) := table.last (.nil_right _)
  exact ⟨whole.reached, whole.greatest⟩

end RepoAtlas.Reconcile
