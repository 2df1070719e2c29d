import RepoAtlas.Graph.Digraph
import RepoAtlas.Text.Collation

/-!
The condensation of a graph has one node per strongly connected component. Members are in
alphabetical order, groups are numbered by their first member, and edges run from a dependency to
its dependents. Ordering takes the groups in topological order, first come first served, and writes
out their members.
-/
namespace RepoAtlas
open Text

variable [Collator]

structure Group where
  key : String
  members : List String
  deriving DecidableEq, Repr

structure Condensation where
  groups : List Group
  edges : List (String × String)
  deriving Repr

namespace Condensation

def groupKey (i : Nat) : String := "scc:" ++ toString i

def keyOf (groups : List Group) (v : String) : String :=
  ((groups.find? fun g => v ∈ g.members).map (·.key)).getD ""

def numbered (components : List (List String)) : List Group :=
  components.zipIdx.map fun c => ⟨groupKey c.2, c.1⟩

def sortEdges (edges : List (String × String)) : List (String × String) :=
  Collation.sortBy (·.1) (Collation.sortBy (·.2) edges)

def ofGraph (g : Digraph) : Condensation :=
  let components := Collation.sortBy (·.headD "") (g.components.map Collation.sort)
  let groups := numbered components
  let crossing := g.edges.filterMap fun e =>
    let dependent := keyOf groups e.1
    let dependency := keyOf groups e.2
    if dependent = dependency then none else some (dependency, dependent)
  ⟨groups, (sortEdges crossing).foldl Digraph.addNew []⟩

def groupOf (c : Condensation) (v : String) : String := keyOf c.groups v

def keys (c : Condensation) : List String := c.groups.map (·.key)

def graph (c : Condensation) : Digraph := ⟨c.keys, c.edges⟩

abbrev Waiting := List (String × List String)

def Waiting.release (x : String) (w : Waiting) : Waiting :=
  w.map fun e => (e.1, e.2.filter (fun p => p != x))

def Waiting.isFree (w : Waiting) (v : String) : Bool :=
  match w.lookup v with
  | some pending => pending.isEmpty
  | none => false

/-- Takes nodes from a first-in first-out queue; a node joins it when its last predecessor is
taken. -/
def drain (g : Digraph) : Nat → List String → Waiting → List String → List String
  | 0, _, _, taken => taken.reverse
  | _ + 1, [], _, taken => taken.reverse
  | n + 1, x :: queue, waiting, taken =>
    let waiting := waiting.release x
    let ready := (g.successors x).filter waiting.isFree
    drain g n (queue ++ ready) waiting (x :: taken)

/-- Topological order of a graph; only nodes that no cycle leads to are in it. -/
def sorted (g : Digraph) : List String :=
  let waiting : Waiting := g.nodes.map fun v => (v, g.predecessors v)
  drain g g.nodes.length (g.nodes.filter waiting.isFree) waiting []

structure CycleError where
  deriving DecidableEq, Repr

def CycleError.message (_ : CycleError) : String :=
  "condensation graph contains a cycle; expected one node per strongly connected group"

def membersOf (c : Condensation) (key : String) : List String :=
  ((c.groups.find? fun g => g.key = key).map (·.members)).getD []

/-- The members of all groups, dependencies first. -/
def order (c : Condensation) : Except CycleError (List String) :=
  let taken := sorted c.graph
  if taken.length = c.groups.length then .ok (taken.flatMap c.membersOf) else .error ⟨⟩

end Condensation

end RepoAtlas
