import RepoAtlas.Module.Index
import RepoAtlas.Python.Outline

/-!
Origins: the places where names are defined.
-/
namespace RepoAtlas
open Text

inductive Origin.Kind where
  | classDef
  | function
  | method
  | variable
  | module
  deriving DecidableEq, Repr

def Origin.Kind.word : Origin.Kind → String
  | .classDef => "class"
  | .function => "function"
  | .method => "method"
  | .variable => "variable"
  | .module => "module"

def Origin.Kind.ofDefinition : Python.DefinitionKind → Origin.Kind
  | .classDef => .classDef
  | .function => .function

structure Origin where
  filePath : String
  /-- The name itself. -/
  name : String
  /-- The name inside the file, with its class if it has one; empty for a module. -/
  qualifiedName : String
  kind : Origin.Kind
  deriving DecidableEq, Repr

namespace Origin

def ofModule (filePath name : String) : Origin := ⟨filePath, name, "", .module⟩

def ofMethod (filePath owner name : String) : Origin :=
  ⟨filePath, name, owner ++ "." ++ name, .method⟩

def below (moduleName : String) (o : Origin) : String :=
  if o.kind == .module || o.qualifiedName == "" then moduleName
  else if moduleName == "" then o.qualifiedName
  else moduleName ++ "." ++ o.qualifiedName

/-- The dotted path as component ids have it. -/
def componentId (index : ModuleIndex) (o : Origin) : String := o.below (index.nameOf o.filePath)

/-- The dotted path as importers have it. -/
def dottedPath (index : ModuleIndex) (o : Origin) : String :=
  o.below (index.importNameOf o.filePath)

end Origin

end RepoAtlas
