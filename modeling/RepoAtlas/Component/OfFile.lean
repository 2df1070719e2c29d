import RepoAtlas.Component
import RepoAtlas.Module.Naming
import RepoAtlas.Python.Signature

/-!
The components that a file defines: its top-level functions and classes, each class followed by its
methods. Ids are the dotted name of the file and the name inside it.
-/
namespace RepoAtlas.Component
open RepoAtlas.Python

structure Site where
  filePath : String
  relativePath : String
  moduleName : String
  deriving DecidableEq, Repr

def constructorName : String := "__init__"

def startLineOf (t : SourceText) (d : Definition) : Nat := t.line d.header.span.start

def endLineOf (t : SourceText) (d : Definition) : Nat := t.line d.header.span.stop

def headerLineOf (t : SourceText) (d : Definition) : Nat := t.line d.header.stop

/-- The outline of a class reaches to the end of its constructor, or else to the start of its last
method, or else to the end of its header. -/
def outlineEnd (t : SourceText) (d : Definition) : Nat :=
  match d.methods.find? fun m => m.name == constructorName with
  | some m => endLineOf t m
  | none =>
    match d.methods.getLast? with
    | some m => startLineOf t m
    | none => headerLineOf t d

def ofDefinition (site : Site) (t : SourceText) (id : String) (kind : Kind) (headerEnd : Nat)
    (d : Definition) : Component where
  id := id
  kind := kind
  filePath := site.filePath
  relativePath := site.relativePath
  startLine := startLineOf t d
  endLine := endLineOf t d
  headerEndLine := headerEnd
  signature := t.signature d.header
  docstring := t.docstring? d.body
  sourceCode := t.text d.header.span
  dependsOn := []
  usedBy := []

def ofTopLevel (site : Site) (t : SourceText) (d : Definition) : List Component :=
  let id := site.moduleName ++ "." ++ d.name
  match d.kind with
  | .function => [ofDefinition site t id .function (headerLineOf t d) d]
  | .classDef =>
    ofDefinition site t id .classDef (outlineEnd t d) d ::
      d.methods.map fun m => ofDefinition site t (id ++ "." ++ m.name) .method (headerLineOf t m) m

def ofFile (site : Site) (f : SourceFile) : List Component :=
  f.definitions.flatMap (ofTopLevel site f.text)

end RepoAtlas.Component
