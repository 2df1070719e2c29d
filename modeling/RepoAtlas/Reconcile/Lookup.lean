import RepoAtlas.Catalog
import RepoAtlas.Module.Naming

/-!
Finding ids of the catalog: by a dotted path that may leave out the initialiser of a package, by the
last segments of an id, and by the key that call-graph tools report for a component.
-/
namespace RepoAtlas.Reconcile
open Text

variable [Collator]

def insertAt (x : String) (i : Nat) (parts : List String) : List String :=
  parts.take i ++ x :: parts.drop i

/-- The spellings of a path with one segment for an initialiser put in, rightmost first. -/
def unfolded (path : String) : List String :=
  let parts := segments '.' path
  (List.range parts.length).reverse.map fun i => dotted (insertAt Module.initialiser i parts)

def findId (c : Catalog) (path : String) : Option String :=
  if path = "" then none else (path :: unfolded path).find? c.has

def suffixKeys (id : String) : List String :=
  let parts := segments '.' id
  if parts.length < 2 then [id] else [parts.getLastD "", dotted (parts.drop (parts.length - 2))]

/-- Ids by their last segments, in alphabetical order below each key. -/
abbrev SuffixIndex := Table (List String)

def SuffixIndex.ofCatalog (c : Catalog) : SuffixIndex :=
  (c.ids.flatMap fun id => (suffixKeys id).map fun key => (key, id)).foldl
    (fun index e => index.insert e.1 ((index.get? e.1).getD [] ++ [e.2])) Table.empty

def withoutRoot (root path : String) : String := (afterStart? (root ++ ".") path).getD path

/-- The key under which calls made inside a component are reported: the path of the file without its
extension and the name inside the file. -/
def callSiteKey (id relativePath : String) : String :=
  let file := withoutSuffix Module.extension relativePath
  let inside := dotted ((segments '.' id).drop (properSegments '/' file).length)
  if inside = "" then file else file ++ "." ++ inside

/-- The keys of all components with their ids, the last component first. -/
def callerIndex (c : Catalog) : List (String × String) :=
  (c.values.map fun s => (callSiteKey s.id s.relativePath, s.id)).reverse

/-- The component that a call site stands for: the one with that key, or else the one whose id the
call site spells. -/
def callerOf (c : Catalog) (keys : List (String × String)) (root site : String) :
    Option Component :=
  let found :=
    match keys.lookup site with
    | some id => some id
    | none => findId c (withoutRoot root (normalizeSeparators site))
  (found.filter fun id => id != "").bind c.get?

end RepoAtlas.Reconcile
