import RepoAtlas.Component
import RepoAtlas.Graph.Digraph
import RepoAtlas.Table

/-!
The catalog holds components by id. What a component is used by always follows from what the others
depend on, and is worked out anew when asked for.
-/
namespace RepoAtlas
open Text

variable [Collator]

structure Catalog where
  components : Table Component
  deriving Repr

namespace Catalog

def size (c : Catalog) : Nat := c.components.size

def has (c : Catalog) (id : String) : Bool := c.components.contains id

def get? (c : Catalog) (id : String) : Option Component := c.components.get? id

/-- All ids in alphabetical order. -/
def ids (c : Catalog) : List String := Collation.sort c.components.keys

def values (c : Catalog) : List Component := c.ids.filterMap c.get?

/-- Whether a dependency would be new: both ends are known, they differ, and it is not there. -/
def accepts (c : Catalog) (source target : String) : Bool :=
  match c.get? source with
  | some s => source != target && c.has target && !s.dependsOn.contains target
  | none => false

def addDependency (c : Catalog) (source target : String) : Catalog :=
  if c.accepts source target then
    ⟨c.components.modify source fun s => { s with dependsOn := s.dependsOn ++ [target] }⟩
  else c

def addAll (c : Catalog) (links : List (String × String)) : Catalog :=
  links.foldl (fun c e => c.addDependency e.1 e.2) c

/-- How many of the dependencies are new when they are recorded one after the other. -/
def countNew (c : Catalog) : List (String × String) → Nat
  | [] => 0
  | e :: rest =>
    (if c.accepts e.1 e.2 then 1 else 0) + countNew (c.addDependency e.1 e.2) rest

def usersOf (c : Catalog) (id : String) : List String :=
  (c.components.values.filter fun s => s.dependsOn.contains id).map (·.id)

def rebuildUsedBy (c : Catalog) : Catalog :=
  ⟨⟨c.components.entries.map fun e => (e.1, { e.2 with usedBy := c.usersOf e.1 })⟩⟩

def graph (c : Catalog) : Digraph :=
  let components := c.values
  Digraph.ofLists (components.map (·.id))
    (components.flatMap fun s => (s.sortedDependsOn.filter c.has).map fun target => (s.id, target))

end Catalog

end RepoAtlas
