/-!
How much two lists of segments have in common: the length of a longest common subsequence, worked
out row by row.
-/
namespace RepoAtlas.Reconcile

/-- One row of the table for the first list's next segment. Each column has a segment of the second
list and the entry above it; the other arguments are the entries to the left and above left. -/
def nextRow (x : String) : Nat → Nat → List (String × Nat) → List Nat
  | _, _, [] => []
  | left, aboveLeft, (y, above) :: rest =>
    let entry := if x = y then aboveLeft + 1 else max above left
    entry :: nextRow x entry above rest

def overlap (a b : List String) : Nat :=
  (a.foldl (fun row x => nextRow x 0 0 (b.zip row)) (b.map fun _ => 0)).getLastD 0

end RepoAtlas.Reconcile
