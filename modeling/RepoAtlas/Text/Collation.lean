/-!
Alphabetical order of texts, whatever alphabet it follows. Nothing is asked of it but that it is
total and transitive: distinct texts may tie, which is why sorts by this order are stable.
-/
namespace RepoAtlas.Text

class Collator where
  collate : String → String → Ordering
  trans : Std.TransCmp collate

/-- An order in which texts do not tie that differ in the numeral at their end. -/
class NumeralCollator extends Collator where
  numerals : ∀ (s : String) (i j : Nat), collate (s ++ toString i) (s ++ toString j) = .eq → i = j

namespace Collation
export Collator (collate)

variable [Collator]

def sortBy {α : Type} (f : α → String) (xs : List α) : List α :=
  xs.mergeSort fun x y => (collate (f x) (f y)).isLE

def sort (xs : List String) : List String := sortBy id xs

end Collation

end RepoAtlas.Text
