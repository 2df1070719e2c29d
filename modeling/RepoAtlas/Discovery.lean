import RepoAtlas.FileTree
import RepoAtlas.Path.Pattern
import RepoAtlas.Text.Collation

/-!
The Python files of a repository: every regular file below the root that ends in `.py`, hidden ones
and those that a pattern leaves out excepted.
-/
namespace RepoAtlas.Discovery
open Text

variable [Collator]

/-- Version control, installed packages, caches and tests are left out. -/
def defaultIgnores : List String :=
  ["**/.git/**", "**/node_modules/**", "**/__pycache__/**", "**/venv/**", "**/.venv/**",
   "**/test/**", "**/tests/**", "**/test_*.py", "**/*_test.py"]

def isHidden (name : String) : Bool := startsWith "." name

def partsBelow? (root path : String) : Option (List String) :=
  let above := Path.absoluteParts root
  let parts := Path.absoluteParts path
  if above.isPrefixOf parts then some (parts.drop above.length) else none

def isPython (parts : List String) : Bool :=
  !parts.any isHidden && ".py".toList.isSuffixOf (parts.getLastD "").toList

/-- Whether a pattern leaves out a path. An absolute pattern is matched with the whole path, any
other with the part below the root. -/
def leavesOut (path : String) (below : List String) (pattern : String) : Bool :=
  Path.Pattern.accepts pattern (if Path.isAbsolute pattern then Path.absoluteParts path else below)

def files (tree : FileTree) (root : String) (ignores : List String) : List String :=
  Collation.sort (tree.files.filter fun path =>
    match partsBelow? root path with
    | some parts => isPython parts && !(defaultIgnores ++ ignores).any (leavesOut path parts)
    | none => false)

end RepoAtlas.Discovery
