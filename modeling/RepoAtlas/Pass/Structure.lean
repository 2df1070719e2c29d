import RepoAtlas.Component.OfFile
import RepoAtlas.Reconcile.Lookup
import RepoAtlas.Workspace

/-!
Dependencies from the structure of definitions: a class depends on its methods, on its bases and,
like any component, on its decorators, as far as the repository defines them.
-/
namespace RepoAtlas.Structure
open Text Python

variable [Collator]

def localName (c : Component) : String := lastSegment '.' c.id

def ownerId (c : Component) : String := dotted (segments '.' c.id).dropLast

def lastMethod? (d : Definition) (name : String) : Option Definition :=
  (d.methods.filter fun m => m.name == name).getLast?

def definitionOf (catalog : Catalog) (world : World) (c : Component) : Option Definition := do
  let file ← world.view c.filePath
  match c.kind with
  | .function => file.find? (localName c) (some .function)
  | .classDef => file.find? (localName c) (some .classDef)
  | .method =>
    let owner ← catalog.get? (ownerId c)
    let d ← file.find? (localName owner) (some .classDef)
    lastMethod? d (localName c)

/-- A class depends on each of its methods, the constructor excepted. -/
def methodEvents (catalog : Catalog) : List Event :=
  catalog.values.filterMap fun c =>
    if c.kind = .method ∧ localName c ≠ Component.constructorName then
      some (.linked (ownerId c) c.id)
    else none

/-- What a name used by a component leads to: a dependency if its origin is of a fitting kind. -/
def nameEvents (w : Workspace) (c : Component) (fits : Origin.Kind → Bool)
    (name complaint : String) :
    List Event :=
  let found := w.world.resolve w.steps name c.filePath
  openings found.opened ++
    match found.origin with
    | some o =>
      if fits o.kind then
        ((Reconcile.findId w.catalog (o.componentId w.index)).map fun id =>
          Event.linked c.id id).toList
      else [.noted complaint]
    | none => [.noted complaint]

/-- A sort of names that definitions mention, and what such a name has to lead to. -/
structure Mention where
  concerns : Component.Kind → Bool
  names : Definition → List String
  fits : Origin.Kind → Bool
  /-- What the name is called in a message. -/
  role : String
  /-- What it should have led to. -/
  wanted : String

namespace Mention

def bases : Mention :=
  ⟨(· == .classDef), Definition.baseNames, (· == .classDef), "base", "class"⟩

def decorators : Mention where
  concerns _ := true
  names d := d.decoratorNames.filterMap id
  fits k := k != .module && k != .variable
  role := "decorator"
  wanted := "component"

def complaint (m : Mention) (id name : String) : String :=
  "[resolve] " ++ id ++ ": " ++ m.role ++ " " ++ name ++ " is not a repository " ++ m.wanted

def eventsOf (m : Mention) (w : Workspace) (c : Component) : List Event :=
  .opened c.filePath ::
    match definitionOf w.catalog w.world c with
    | none => []
    | some d => (m.names d).flatMap fun name => nameEvents w c m.fits name (m.complaint c.id name)

def events (m : Mention) (w : Workspace) : List Event :=
  (w.catalog.values.filter fun c => m.concerns c.kind).flatMap (m.eventsOf w)

end Mention

def inheritanceEvents (w : Workspace) : List Event := Mention.bases.events w

def decoratorEvents (w : Workspace) : List Event := Mention.decorators.events w

def addMethods (r : Reporting) (w : Workspace) : Logged (Workspace × Nat) :=
  w.run r (methodEvents w.catalog)

def addBases (r : Reporting) (w : Workspace) : Logged (Workspace × Nat) :=
  w.run r (inheritanceEvents w)

def addDecorators (r : Reporting) (w : Workspace) : Logged (Workspace × Nat) :=
  w.run r (decoratorEvents w)

end RepoAtlas.Structure
