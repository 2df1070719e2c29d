import RepoAtlas.Text.Segments

/-!
Dotted names of files: `pkg/mod.py` is `pkg.mod`. The initialiser of a package is `pkg.__init__` as
a file and `pkg` to an importer.
-/
namespace RepoAtlas.Module
open RepoAtlas.Text

def extension : String := ".py"

def initialiser : String := "__init__"

def initialiserFile : String := "__init__.py"

def nameOfFile (relativePath : String) : String :=
  dotted (properSegments '/' (withoutSuffix extension relativePath))

def foldInitialiser (name : String) : String :=
  let parts := segments '.' name
  dotted (if parts.getLast? = some initialiser then parts.dropLast else parts)

def importNameOfFile (relativePath : String) : String := foldInitialiser (nameOfFile relativePath)

end RepoAtlas.Module
