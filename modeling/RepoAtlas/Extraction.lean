import RepoAtlas.Component.OfFile
import RepoAtlas.Log
import RepoAtlas.Number.Decimal
import RepoAtlas.Pool
import RepoAtlas.Python.Cache
import RepoAtlas.Workspace

/-!
Reading the files of a repository and collecting their components. A file that cannot be read is
left out with a warning; of two components with one id the later one stays, in the place of the
earlier.
-/
namespace RepoAtlas
open Text Python

variable [Collator]

structure Extraction where
  components : Table Component
  index : ModuleIndex
  cache : Cache
  parsedFiles : List String
  failedFiles : List String

structure LanesError where
  value : Float

def LanesError.message (e : LanesError) : String :=
  "concurrency must be a positive integer, got " ++ Number.text e.value

namespace Extraction

def defaultLanes : Float := 4

/-- Absolute paths, each once, in alphabetical order of their paths in the repository. -/
def candidates (rootDir : String) (files : List String) : List String :=
  Collation.sortBy (Path.relativeTo rootDir) (files.map (Path.toAbsolute rootDir)).eraseDups

def start (index : ModuleIndex) : Extraction := ⟨Table.empty, index, Cache.empty, [], []⟩

def addComponent (verbose : Bool) (relativePath : String) (e : Extraction) (c : Component) :
    Logged Extraction := do
  if e.components.contains c.id then
    Log.note verbose ("[extract] " ++ c.id ++ " redefined in " ++ relativePath ++
      "; keeping the later definition")
  return { e with components := e.components.insert c.id c }

def addFile (verbose : Bool) (e : Extraction) (loaded : String × Except LoadError SourceFile) :
    Logged Extraction := do
  let (path, result) := loaded
  let relativePath := e.index.relative path
  match result with
  | .error error =>
    Log.warn ("[extract] skipping " ++ relativePath ++ ": " ++ error.message)
    return { e with cache := e.cache.markFailed path, failedFiles := e.failedFiles ++ [path] }
  | .ok file =>
    let e := { e with cache := e.cache.insert file, parsedFiles := e.parsedFiles ++ [path] }
    (Component.ofFile ⟨path, relativePath, e.index.nameOf path⟩ file).foldlM
      (addComponent verbose relativePath) e

def run (tree : FileTree) (rootDir : String) (files : List String) (lanes : Float)
    (verbose : Bool) :
    Logged (Except LanesError Extraction) := do
  let root := Path.resolve "/" rootDir
  let files := candidates root files
  Log.note verbose ("[extract] parsing " ++ toString files.length ++ " files")
  match Number.toPositive? lanes with
  | none => return .error ⟨lanes⟩
  | some limit =>
    let loaded := Pool.map limit (fun path => (path, load tree path)) files
    let e ← loaded.foldlM (addFile verbose) (start (ModuleIndex.ofFiles root files))
    Log.note verbose ("[extract] collected " ++ toString e.components.size ++ " components from " ++
      toString e.parsedFiles.length ++ " files")
    return .ok e

def workspace (e : Extraction) (tree : FileTree) (depth : Float) : Workspace :=
  ⟨tree, e.index, e.cache, ⟨e.components⟩, stepsOfDepth depth⟩

end Extraction

end RepoAtlas
