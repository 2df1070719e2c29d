/-!
Finite directed graphs with named nodes. Nodes and edges keep the order in which they were added;
`a → b` says that `a` depends on `b`.
-/
namespace RepoAtlas

structure Digraph where
  nodes : List String
  edges : List (String × String)
  deriving Repr

namespace Digraph

def addNew {α : Type} [DecidableEq α] (xs : List α) (x : α) : List α :=
  if x ∈ xs then xs else xs ++ [x]

def ofLists (nodes : List String) (edges : List (String × String)) : Digraph :=
  ⟨nodes.foldl addNew [], edges.foldl addNew []⟩

def successors (g : Digraph) (v : String) : List String :=
  g.edges.filterMap fun e => if e.1 = v then some e.2 else none

def predecessors (g : Digraph) (v : String) : List String :=
  g.edges.filterMap fun e => if e.2 = v then some e.1 else none

def reverse (g : Digraph) : Digraph := ⟨g.nodes, g.edges.map fun e => (e.2, e.1)⟩

/-- Walks from a list of nodes still to be visited; one step of the bound per node looked at. -/
def walk (next : String → List String) : Nat → List String → List String → List String
  | 0, seen, _ => seen
  | _ + 1, seen, [] => seen
  | n + 1, seen, v :: rest =>
    if v ∈ seen then walk next n seen rest else walk next n (v :: seen) (next v ++ rest)

/-- The nodes that can be reached from a node, the node itself included. -/
def reachable (g : Digraph) (v : String) : List String :=
  walk g.successors (g.edges.length + 2) [] [v]

def component (g : Digraph) (v : String) : List String :=
  let ahead := g.reachable v
  let behind := g.reverse.reachable v
  g.nodes.filter fun w => w ∈ ahead && w ∈ behind

/-- The strongly connected components of the given nodes, each named by its first node. -/
def componentsOf (g : Digraph) : List (List String) → List String → List (List String)
  | found, [] => found.reverse
  | found, v :: rest =>
    if found.any (fun c => v ∈ c) then componentsOf g found rest
    else componentsOf g (g.component v :: found) rest

def components (g : Digraph) : List (List String) := g.componentsOf [] g.nodes

end Digraph

end RepoAtlas
