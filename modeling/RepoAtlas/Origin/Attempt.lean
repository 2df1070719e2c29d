import RepoAtlas.Origin
import RepoAtlas.Python.Cache

/-!
What can be tried for a name in a file. The attempts for a name depend only on the files: own
definitions first, then imports from the last to the first, wildcard imports, and a module next to
the file. A member of a class is looked for in the class and then in its bases.
-/
namespace RepoAtlas
open Text Python

structure World where
  index : ModuleIndex
  isFile : String → Bool
  view : String → Option SourceFile

def World.ofTree (index : ModuleIndex) (tree : FileTree) (cache : Cache) : World :=
  ⟨index, tree.isFile, cache.view tree⟩

structure Query where
  file : String
  name : String
  deriving DecidableEq, Repr

/-- One thing to try for a query: an answer, or another query. -/
inductive Attempt where
  | answer (origin : Origin)
  | ask (query : Query)
  deriving DecidableEq, Repr

namespace World

def importTarget (w : World) (file : String) (name : Option String) (level : Nat) : Option String :=
  w.index.moduleFile w.isFile name file level

/-- What a dotted name has after `start` and a dot: nothing if it is `start`, none if it does not
start so. -/
def remainder? (name start : String) : Option String :=
  if name = start then some "" else afterStart? (start ++ ".") name

def extend (name rest : String) : String := if rest = "" then name else name ++ "." ++ rest

def memberAttempt (w : World) (file : String) (i : Import) (name : String) : Option Attempt :=
  match i.source with
  | some _ => (w.importTarget file i.source i.level).map fun target => .ask ⟨target, name⟩
  | none =>
    let parts := segments '.' name
    let head := parts.headD ""
    match w.importTarget file (some head) i.level with
    | some target =>
      if parts.length ≤ 1 then some (.answer (.ofModule target head))
      else some (.ask ⟨target, dotted (parts.drop 1)⟩)
    | none => (w.importTarget file none i.level).map fun target => .ask ⟨target, name⟩

def moduleAttempt (w : World) (file : String) (i : Import) (name : String) :
    Option (Nat × Attempt) :=
  let lead (module rest : String) (score : Nat) : Option (Nat × Attempt) :=
    (w.importTarget file (some module) 0).map fun target =>
      (score, if rest = "" then .answer (.ofModule target (lastSegment '.' module))
        else .ask ⟨target, rest⟩)
  match remainder? name i.boundAs with
  | some rest => lead i.name rest (segments '.' i.boundAs).length
  | none =>
    -- a dotted import also binds its first segment
    let top := firstSegment '.' i.name
    if i.boundAs = i.name then (remainder? name top).bind fun rest => lead top rest 1 else none

/-- How an import explains a name, with the number of segments it explains. With `byName` the name
that was imported counts like the name it is bound to. -/
def importAttempt (w : World) (file : String) (byName : Bool) (name : String) (i : Import) :
    Option (Nat × Attempt) :=
  match i.kind with
  | .wildcard => none
  | .module => w.moduleAttempt file i name
  | .member =>
    let spelled :=
      match remainder? name i.boundAs with
      | some rest => some (extend i.name rest)
      | none => if byName && (remainder? name i.name).isSome then some name else none
    spelled.bind fun name => (w.memberAttempt file i name).map fun a => (1, a)

def wildcardFiles (w : World) (file : String) (source : SourceFile) : List String :=
  source.imports.filterMap fun i =>
    if i.kind = .wildcard then w.importTarget file i.source i.level else none

def wildcardAttempts (w : World) (file : String) (source : SourceFile) (name : String) :
    List Attempt :=
  (w.wildcardFiles file source).map fun target => .ask ⟨target, name⟩

/-- Imports that explain a name, the last one first: it is the one that binds the name. -/
def importAttempts (w : World) (file : String) (source : SourceFile) (name : String) :
    List Attempt :=
  (source.imports.reverse.filterMap (w.importAttempt file false name)).map (·.2)

def baseAttempts (w : World) (file : String) (source : SourceFile) (name : String) : List Attempt :=
  match w.importAttempts file source name with
  | a :: _ => [a]
  | [] => w.wildcardAttempts file source name ++ [.ask ⟨file, name⟩]

def memberAttempts (w : World) (file : String) (source : SourceFile) (c : Definition)
    (rest : List String) : List Attempt :=
  let member := rest.headD ""
  if c.methods.any fun m => m.name == member then
    if rest.length = 1 then [.answer (.ofMethod file c.name member)] else []
  else c.baseNames.flatMap fun base => w.baseAttempts file source (base ++ "." ++ dotted rest)

def siblingAttempts (w : World) (file : String) (parts : List String) : List Attempt :=
  let head := parts.headD ""
  match w.index.siblingFile w.isFile head file with
  | some target =>
    if target = file then []
    else if parts.length ≤ 1 then [.answer (.ofModule target head)]
    else [.ask ⟨target, dotted (parts.drop 1)⟩]
  | none => []

/-- What a file has under a name itself, if that settles the name. -/
def ownAttempts (w : World) (file : String) (source : SourceFile) (parts : List String) :
    Option (List Attempt) :=
  match parts with
  | [name] =>
    match source.find? name none with
    | some d => some [.answer ⟨file, name, name, .ofDefinition d.kind⟩]
    | none => if source.hasVariable name then some [.answer ⟨file, name, name, .variable⟩] else none
  | head :: rest =>
    (source.find? head (some .classDef)).map fun c => w.memberAttempts file source c rest
  | [] => none

def attempts (w : World) (q : Query) : List Attempt :=
  match w.view q.file with
  | none => []
  | some source =>
    let parts := segments '.' q.name
    match w.ownAttempts q.file source parts with
    | some own => own
    | none =>
      w.importAttempts q.file source q.name ++ w.wildcardAttempts q.file source q.name ++
        w.siblingAttempts q.file parts

end World

end RepoAtlas
