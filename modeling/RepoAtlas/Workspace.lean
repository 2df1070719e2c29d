import RepoAtlas.Catalog
import RepoAtlas.Log
import RepoAtlas.Number.Decimal
import RepoAtlas.Origin.Search

/-!
The state of an analysis between its passes, and what a pass does to it. A pass is worked out as a
list of events: files it opens, messages it leaves and dependencies it finds. Carrying out the
events is the same for every pass.
-/
namespace RepoAtlas
open Python

structure Workspace where
  tree : FileTree
  index : ModuleIndex
  cache : Cache
  catalog : Catalog
  /-- How far the search for an origin goes. -/
  steps : Nat

structure Reporting where
  verbose : Bool
  failures : Bool
  deriving DecidableEq, Repr

inductive Event where
  | opened (file : String)
  | noted (message : String)
  | linked (source target : String)
  deriving DecidableEq, Repr

def linksOf (events : List Event) : List (String × String) :=
  events.filterMap fun e =>
    match e with
    | .linked source target => some (source, target)
    | _ => none

def openings (files : List String) : List Event := files.map Event.opened

namespace Workspace

def world (w : Workspace) : World := .ofTree w.index w.tree w.cache

/-- Opens a file; one that is there and cannot be read is reported the first time. -/
def openFile (r : Reporting) (w : Workspace) (file : String) : Logged Workspace := do
  if r.failures then
    if let some e := w.cache.failure? w.tree file then
      Log.warn ("[resolve] cannot parse " ++ w.index.relative file ++ ": " ++ e.message)
  return { w with cache := w.cache.touch w.tree file }

def perform (r : Reporting) (w : Workspace) : Event → Logged Workspace
  | .opened file => w.openFile r file
  | .noted message => do
    Log.note r.verbose message
    return w
  | .linked source target => return { w with catalog := w.catalog.addDependency source target }

def performAll (r : Reporting) (w : Workspace) (events : List Event) : Logged Workspace :=
  events.foldlM (perform r) w

def run (r : Reporting) (w : Workspace) (events : List Event) : Logged (Workspace × Nat) := do
  let after ← w.performAll r events
  return (after, w.catalog.countNew (linksOf events))

def rebuildUsedBy (w : Workspace) : Workspace := { w with catalog := w.catalog.rebuildUsedBy }

def resolve (r : Reporting) (w : Workspace) (name file : String) :
    Logged (Workspace × Option Origin) := do
  let found := w.world.resolve w.steps name file
  return (← w.performAll r (openings found.opened), found.origin)

def trueOrigin (r : Reporting) (w : Workspace) (file name : String) :
    Logged (Workspace × Option Origin) := do
  let found := w.world.trueOrigin w.steps file name
  return (← w.performAll r (openings found.opened), found.origin)

end Workspace

/-- The number of steps that a depth limit allows: one more than its whole part, none below zero.
The bits of an infinite limit, and of one that is not a number, read as more than every finite
one. -/
def stepsOfDepth (depth : Float) : Nat :=
  if depth < 0 then 0
  else
    let limit := Number.magnitude depth
    limit.num / limit.den + 1

def defaultDepth : Float := 64

end RepoAtlas
