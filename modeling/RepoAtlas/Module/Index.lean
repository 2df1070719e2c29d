import RepoAtlas.FileTree
import RepoAtlas.Module.Naming

/-!
The modules of a repository and the files that names of modules lead to. Which files exist is asked
of the file tree at the time, so a module outside the listed files can be found too.
-/
namespace RepoAtlas
open Text

structure ModuleIndex where
  rootDir : String
  /-- Absolute paths, each once. -/
  files : List String
  deriving Repr

namespace ModuleIndex

def ofFiles (rootDir : String) (files : List String) : ModuleIndex :=
  let root := Path.resolve "/" rootDir
  ⟨root, (files.map (Path.resolve root)).eraseDups⟩

def rootPackage (m : ModuleIndex) : String := Path.baseName m.rootDir

def size (m : ModuleIndex) : Nat := m.files.length

def relative (m : ModuleIndex) (file : String) : String := Path.relativeTo m.rootDir file

def absolute (m : ModuleIndex) (file : String) : String := Path.resolve m.rootDir file

/-- The name of a file's module as component ids have it. -/
def nameOf (m : ModuleIndex) (file : String) : String :=
  Module.nameOfFile (m.relative (m.absolute file))

/-- The name of a file's module as importers have it. -/
def importNameOf (m : ModuleIndex) (file : String) : String :=
  Module.importNameOfFile (m.relative (m.absolute file))

def enclosing (name : String) : List String :=
  let parts := properSegments '.' name
  (List.range parts.length).map fun n => dotted (parts.take (n + 1))

def isRepoModule (m : ModuleIndex) (name : String) : Bool :=
  m.files.any fun file =>
    (enclosing (m.nameOf file)).contains name || (enclosing (m.importNameOf file)).contains name

def ancestor : Nat → String → String
  | 0, path => path
  | n + 1, path => ancestor n (Path.parent path)

/-- The path without extension that `from <level dots><name> import …` in a file stands for. -/
def basePath (m : ModuleIndex) (name : Option String) (file : String) (level : Nat) :
    Option String :=
  let parts := (name.filter fun s => s != "").map (segments '.')
  match level with
  | 0 =>
    parts.map fun parts =>
      Path.join (m.rootDir :: if parts.head? = some m.rootPackage then parts.drop 1 else parts)
  | above + 1 =>
    let package := ancestor (above + 1) (m.absolute file)
    some (match parts with
      | some parts => Path.join (package :: parts)
      | none => package)

def firstFile (isFile : String → Bool) (candidates : List String) : Option String :=
  (candidates.find? isFile).map (Path.resolve "/")

/-- The file that an import names; a module comes before a package. -/
def moduleFile (m : ModuleIndex) (isFile : String → Bool) (name : Option String) (file : String)
    (level : Nat) : Option String :=
  (m.basePath name file level).bind fun base =>
    firstFile isFile [base ++ Module.extension, Path.join [base, Module.initialiserFile]]

/-- The package or module of a name next to a file; a package comes before a module. -/
def siblingFile (m : ModuleIndex) (isFile : String → Bool) (name file : String) : Option String :=
  let dir := Path.parent (m.absolute file)
  firstFile isFile [Path.join [dir, name, Module.initialiserFile],
    Path.join [dir, name ++ Module.extension]]

end ModuleIndex

end RepoAtlas
