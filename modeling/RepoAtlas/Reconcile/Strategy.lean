import RepoAtlas.Origin.Search
import RepoAtlas.Reconcile.Lookup
import RepoAtlas.Reconcile.Overlap
import RepoAtlas.Text.Units

/-!
Ways to place a callee, as a call-graph tool spells it, in the catalog. The first three only try
other spellings; the last one follows the caller's imports and then compares trailing segments.
-/
namespace RepoAtlas.Reconcile
open Text

inductive Strategy where
  | normalized
  | rootPrefix
  | callerPackage
  | resolverSeeded
  deriving DecidableEq, Repr

def Strategy.all : List Strategy := [.normalized, .rootPrefix, .callerPackage, .resolverSeeded]

structure Context where
  catalog : Catalog
  world : World
  /-- How far the search for an origin goes. -/
  steps : Nat
  suffixes : SuffixIndex
  caller : Component

structure Placement where
  id : Option String
  opened : List String
  deriving Repr

namespace Context

def root (k : Context) : String := k.world.index.rootPackage

def matchNormalized (k : Context) (callee : String) : Option String :=
  findId k.catalog (normalizeSeparators callee)

def matchRootPrefix (k : Context) (callee : String) : Option String :=
  let path := normalizeSeparators callee
  match afterStart? (k.root ++ ".") path with
  | some rest => findId k.catalog rest
  | none => findId k.catalog (k.root ++ "." ++ path)

def callerModule (k : Context) : List String :=
  properSegments '.' (k.world.index.importNameOf k.caller.filePath)

/-- The callee in each package around the caller, innermost first. -/
def matchCallerPackage (k : Context) (callee : String) : Option String :=
  let path := withoutRoot k.root (normalizeSeparators callee)
  let parts := k.callerModule
  (List.range parts.length).reverse.findSome? fun i =>
    findId k.catalog (dotted (parts.take (i + 1)) ++ "." ++ path)

def calleeParts (k : Context) (callee : String) : List String :=
  properSegments '.' (withoutRoot k.root (normalizeSeparators callee))

def trailingKeys (parts : List String) : List String :=
  if parts.length < 2 then [parts.getLastD ""]
  else [dotted (parts.drop (parts.length - 2)), parts.getLastD ""]

def idOfOrigin (k : Context) (o : Origin) : Option String :=
  (findId k.catalog (o.componentId k.world.index)).or
    (findId k.catalog (o.dottedPath k.world.index))

def followKeys (k : Context) : List String → Placement
  | [] => ⟨none, []⟩
  | key :: rest =>
    let finding := k.world.trueOrigin k.steps k.caller.filePath key
    match finding.origin.bind k.idOfOrigin with
    | some id => ⟨some id, finding.opened⟩
    | none =>
      let more := followKeys k rest
      { more with opened := finding.opened ++ more.opened }

/-- A qualifier is plausible if it starts with a module or a name of the repository. -/
def isPlausible (k : Context) (qualifier : List String) : Bool :=
  match qualifier with
  | [] => true
  | head :: _ => k.world.index.isRepoModule head || k.suffixes.contains head

def score (k : Context) (qualifier : List String) (id : String) : Nat :=
  let parts := segments '.' id
  overlap parts qualifier + overlap parts k.callerModule

/-- Whether the first of two ids with scores is the better one: by score, then the shorter, then by
code units. -/
def better (a b : String × Nat) : Bool :=
  let la := unitLength a.1
  let lb := unitLength b.1
  b.2 < a.2 || (a.2 == b.2 && (la < lb || (la == lb && unitLt a.1 b.1)))

/-- The best of several ids with scores, the first of equals. -/
def best (candidates : List (String × Nat)) : Option (String × Nat) :=
  candidates.foldl
    (fun b c =>
      match b with
      | some held => if better c held then some c else b
      | none => some c)
    none

def bestOverlap (k : Context) (parts : List String) : Option String :=
  let qualifier := parts.dropLast
  (trailingKeys parts).findSome? fun key =>
    (best (((k.suffixes.get? key).getD []).map fun id => (id, k.score qualifier id))).map (·.1)

/-- Follows the trailing segments through the caller's imports, or else picks the id that shares
them and overlaps best. -/
def matchResolverSeeded (k : Context) (callee : String) : Placement :=
  let parts := k.calleeParts callee
  if parts.isEmpty then ⟨none, []⟩
  else
    let followed := k.followKeys (trailingKeys parts)
    match followed.id with
    | some _ => followed
    | none =>
      if k.isPlausible parts.dropLast then { followed with id := k.bestOverlap parts } else followed

def apply (k : Context) (callee : String) : Strategy → Placement
  | .normalized => ⟨k.matchNormalized callee, []⟩
  | .rootPrefix => ⟨k.matchRootPrefix callee, []⟩
  | .callerPackage => ⟨k.matchCallerPackage callee, []⟩
  | .resolverSeeded => k.matchResolverSeeded callee

def place (k : Context) (callee : String) : List Strategy → Placement
  | [] => ⟨none, []⟩
  | s :: rest =>
    let placed := k.apply callee s
    match placed.id with
    | some _ => placed
    | none =>
      let more := place k callee rest
      { more with opened := placed.opened ++ more.opened }

end Context

end RepoAtlas.Reconcile
