import RepoAtlas.Text.Collation

/-!
Components of a repository: its classes, functions and methods, with what is known about each and
the components that it depends on or is used by.
-/
namespace RepoAtlas

variable [Text.Collator]

inductive Component.Kind where
  | classDef
  | function
  | method
  deriving DecidableEq, Repr

def Component.Kind.word : Component.Kind → String
  | .classDef => "class"
  | .function => "function"
  | .method => "method"

structure Component where
  id : String
  kind : Component.Kind
  filePath : String
  relativePath : String
  startLine : Nat
  endLine : Nat
  /-- The last line of the part that outlines the component. -/
  headerEndLine : Nat
  signature : String
  docstring : Option String
  sourceCode : String
  /-- Ids without repetition, in the order in which they were added. -/
  dependsOn : List String
  usedBy : List String
  deriving DecidableEq, Repr

namespace Component

def placed (id : String) (kind : Kind) (filePath relativePath : String) : Component :=
  ⟨id, kind, filePath, relativePath, 1, 1, 1, "", none, "", [], []⟩

def sortedDependsOn (c : Component) : List String := Text.Collation.sort c.dependsOn

def sortedUsedBy (c : Component) : List String := Text.Collation.sort c.usedBy

end Component

end RepoAtlas
