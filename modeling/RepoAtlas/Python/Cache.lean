import RepoAtlas.FileTree
import RepoAtlas.Python.Source

/-!
Files that were read before. An entry never changes once it is there, and a file that could not be
read is remembered as such.
-/
namespace RepoAtlas.Python

inductive LoadError where
  | unreadable (path : String) (error : FileTree.ReadError)
  | unparsable (error : ParseError)

def LoadError.message : LoadError → String
  | .unreadable path e => e.message path
  | .unparsable e => e.message

def load (tree : FileTree) (path : String) : Except LoadError SourceFile :=
  match tree.read path with
  | .error e => .error (.unreadable path e)
  | .ok bytes =>
    match SourceFile.ofBytes path bytes with
    | .error e => .error (.unparsable e)
    | .ok file => .ok file

structure Cache where
  entries : Table (Option SourceFile)

namespace Cache

def empty : Cache := ⟨Table.empty⟩

def has (c : Cache) (path : String) : Bool := c.entries.contains path

def add (c : Cache) (path : String) (entry : Option SourceFile) : Cache :=
  if c.has path then c else ⟨c.entries.insert path entry⟩

def insert (c : Cache) (file : SourceFile) : Cache := c.add file.path (some file)

def markFailed (c : Cache) (path : String) : Cache := c.add path none

/-- What asking for a file gives: its entry, or else what reading it gives. -/
def view (c : Cache) (tree : FileTree) (path : String) : Option SourceFile :=
  match c.entries.get? path with
  | some entry => entry
  | none => (load tree path).toOption

/-- The failure that asking for a file reports: one only where the file is there, has no entry and
cannot be read. -/
def failure? (c : Cache) (tree : FileTree) (path : String) : Option LoadError :=
  if c.has path || !tree.exists? path then none
  else
    match load tree path with
    | .ok _ => none
    | .error e => some e

def touch (c : Cache) (tree : FileTree) (path : String) : Cache := c.add path (c.view tree path)

end Cache

end RepoAtlas.Python
