import RepoAtlas.CallGraph.Facts
import RepoAtlas.Reconcile.Strategy
import RepoAtlas.Workspace

/-!
Dependencies from call-graph facts: every callee that can be placed in the catalog becomes something
that the caller depends on.
-/
namespace RepoAtlas.Reconcile
open Text CallGraph

variable [Collator]

structure Stats where
  callSites : Nat
  unknownCallSites : Nat
  linked : Nat
  skippedBuiltins : Nat
  unresolved : Nat
  deriving DecidableEq, Repr

inductive Verdict where
  | unknownCaller
  | builtin
  | unresolved (caller callee : String) (opened : List String)
  | resolved (caller target : String) (opened : List String)
  deriving DecidableEq, Repr

def isBuiltin (callee : String) : Bool := startsWith "<builtin>" callee

def Verdict.events : Verdict → List Event
  | .unknownCaller | .builtin => []
  | .unresolved caller callee opened =>
    openings opened ++ [.noted ("[reconcile] " ++ caller ++ ": no component for " ++ callee)]
  | .resolved caller target opened => openings opened ++ [.linked caller target]

def Verdict.isUnresolved : Verdict → Bool
  | .unresolved .. => true
  | _ => false

def judge (k : Context) (strategies : List Strategy) (callee : String) : Verdict :=
  if isBuiltin callee then .builtin
  else
    let placed := k.place callee strategies
    match placed.id with
    | some target => .resolved k.caller.id target placed.opened
    | none => .unresolved k.caller.id callee placed.opened

def sortFacts (facts : Facts) : Facts := Collation.sortBy (·.1) facts

def verdicts (w : Workspace) (strategies : List Strategy) (facts : Facts) : List Verdict :=
  let catalog := w.catalog
  let world := w.world
  let suffixes := SuffixIndex.ofCatalog catalog
  let keys := callerIndex catalog
  (sortFacts facts).flatMap fun (site, callees) =>
    match callerOf catalog keys w.index.rootPackage site with
    | some caller => callees.map (judge ⟨catalog, world, w.steps, suffixes, caller⟩ strategies)
    | none => [.unknownCaller]

def run (r : Reporting) (w : Workspace) (strategies : List Strategy) (facts : Facts) :
    Logged (Workspace × Stats) := do
  let vs := verdicts w strategies facts
  let (after, linked) ← w.run r (vs.flatMap Verdict.events)
  let stats : Stats :=
    { callSites := facts.length
      unknownCallSites := vs.countP fun v => v == .unknownCaller
      linked := linked
      skippedBuiltins := vs.countP fun v => v == .builtin
      unresolved := vs.countP Verdict.isUnresolved }
  Log.note r.verbose ("[reconcile] " ++ toString stats.linked ++ " edges from " ++
    toString stats.callSites ++ " call sites (" ++ toString stats.unresolved ++
      " callees unresolved)")
  return (after, stats)

def contextOf (w : Workspace) (caller : Component) : Context :=
  ⟨w.catalog, w.world, w.steps, SuffixIndex.ofCatalog w.catalog, caller⟩

end RepoAtlas.Reconcile
