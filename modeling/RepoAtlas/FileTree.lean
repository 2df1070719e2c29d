import RepoAtlas.Path
import RepoAtlas.Table

/-!
A tree of files as a value: absolute paths in normal form lead to the bytes of a file or to a
directory. Every directory above an entry is an entry itself.
-/
namespace RepoAtlas

inductive FileTree.Entry where
  | file (bytes : ByteArray)
  | directory

structure FileTree where
  entries : Table FileTree.Entry

namespace FileTree

inductive ReadError where
  | missing
  | throughFile
  | isDirectory
  deriving DecidableEq, Repr

def ReadError.message (path : String) : ReadError → String
  | .missing => "ENOENT: no such file or directory, open '" ++ path ++ "'"
  | .throughFile => "ENOTDIR: not a directory, open '" ++ path ++ "'"
  | .isDirectory => "EISDIR: illegal operation on a directory, read"

def empty : FileTree := ⟨Table.empty⟩

def ancestors (parts : List String) : List String :=
  (List.range parts.length).map fun n => Path.ofParts (parts.take n)

/-- Puts an entry at a path and makes every missing directory above it. -/
def write (t : FileTree) (path : String) (e : Entry) : FileTree :=
  let parts := Path.absoluteParts path
  let withParents := (ancestors parts).foldl
    (fun es dir => if es.contains dir then es else es.insert dir .directory) t.entries
  ⟨withParents.insert (Path.ofParts parts) e⟩

def remove (t : FileTree) (path : String) : FileTree :=
  let parts := Path.absoluteParts path
  ⟨⟨t.entries.entries.filter fun e => !parts.isPrefixOf (Path.absoluteParts e.1)⟩⟩

/-- The entry a path names. A path with a slash at its end names directories only. -/
def find? (t : FileTree) (path : String) : Option Entry :=
  match t.entries.get? (Path.ofParts (Path.absoluteParts path)) with
  | some (.file bytes) => if path.toList.getLast? == some '/' then none else some (.file bytes)
  | other => other

def isFile (t : FileTree) (path : String) : Bool :=
  match t.find? path with
  | some (.file _) => true
  | _ => false

def exists? (t : FileTree) (path : String) : Bool := (t.find? path).isSome

def crossesFile (t : FileTree) (path : String) : Bool :=
  let parts := Path.absoluteParts path
  let dirs := ancestors parts ++
    if path.toList.getLast? == some '/' then [Path.ofParts parts] else []
  dirs.any t.isFile

def read (t : FileTree) (path : String) : Except ReadError ByteArray :=
  match t.find? path with
  | some (.file bytes) => .ok bytes
  | some .directory => .error .isDirectory
  | none => .error (if t.crossesFile path then .throughFile else .missing)

def files (t : FileTree) : List String :=
  t.entries.entries.filterMap fun e =>
    match e.2 with
    | .file _ => some e.1
    | .directory => none

end FileTree

end RepoAtlas
