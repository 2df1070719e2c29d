import RepoAtlas.CallGraph.Tool
import RepoAtlas.Discovery
import RepoAtlas.Extraction
import RepoAtlas.Graph.Condensation
import RepoAtlas.Graph.Importance
import RepoAtlas.Pass.CallSites
import RepoAtlas.Pass.Structure

/-!
The analysis of a repository: components, their dependencies, an order with dependencies first, and
the importance of each component.
-/
namespace RepoAtlas
open Text CallGraph

variable [Collator]

inductive FactSource where
  | given (facts : Facts)
  | tool (config : ToolConfig) (tool : Tool) (environment : String → Option String)

structure Analysis.Options where
  rootDir : String
  /-- The files to analyse; they are discovered if none are given. -/
  files : Option (List String)
  ignores : List String
  facts : FactSource
  lanes : Float
  depth : Float
  importance : Importance.Options
  verbose : Bool

inductive AnalysisError where
  | lanes (error : LanesError)
  | tool (error : ToolError)
  | cycle (error : Condensation.CycleError)
  | settings (error : Importance.SettingsError)

structure Analysis where
  rootDir : String
  rootPackage : String
  catalog : Catalog
  graph : Digraph
  condensation : Condensation
  order : List String
  importance : Importance.Result
  failedFiles : List String

namespace Analysis

abbrev Step := ExceptT AnalysisError Logged

def Step.lift {α ε : Type} (wrap : ε → AnalysisError) (x : Logged (Except ε α)) : Step α :=
  ExceptT.mk (do
    match ← x with
    | .ok a => return .ok a
    | .error e => return .error (wrap e))

def factsFor (o : Options) (tree : FileTree) (rootDir : String) (parsed : List String) :
    Step Facts :=
  match o.facts with
  | .given facts => pure facts
  | .tool config tool environment => do
    let report ← Step.lift .tool (runTool tree config tool environment rootDir parsed o.verbose)
    return report.facts

structure Pass where
  before : Workspace
  after : Workspace
  added : Nat

structure Passes where
  calls : Pass
  methods : Pass
  bases : Pass
  decorators : Pass

/-- All four passes; what components are used by is brought up to date after each. -/
def passes (r : Reporting) (w : Workspace) (facts : Facts) : Logged Passes := do
  let (called, stats) ← Reconcile.run r w Reconcile.Strategy.all facts
  let calls : Pass := ⟨w, called, stats.linked⟩
  let (after, added) ← Structure.addMethods r called.rebuildUsedBy
  let methods : Pass := ⟨called.rebuildUsedBy, after, added⟩
  let (after, added) ← Structure.addBases r methods.after.rebuildUsedBy
  let bases : Pass := ⟨methods.after.rebuildUsedBy, after, added⟩
  let (after, added) ← Structure.addDecorators r bases.after.rebuildUsedBy
  let decorators : Pass := ⟨bases.after.rebuildUsedBy, after, added⟩
  return ⟨calls, methods, bases, decorators⟩

def link (r : Reporting) (w : Workspace) (facts : Facts) : Logged Workspace := do
  let p ← passes r w facts
  Log.note r.verbose ("[resolve] structural edges: " ++ toString p.methods.added ++
    " class-method, " ++ toString p.bases.added ++ " inheritance, " ++
    toString p.decorators.added ++ " decorator")
  return p.decorators.after.rebuildUsedBy

def gather (tree : FileTree) (o : Options) : Step (Extraction × Facts) := do
  let rootDir := Path.resolve "/" o.rootDir
  let files := o.files.getD (Discovery.files tree rootDir o.ignores)
  Log.note o.verbose ("[extract] analyzing " ++ toString files.length ++ " files in " ++ rootDir)
  let e ← Step.lift .lanes (Extraction.run tree rootDir files o.lanes o.verbose)
  let facts ← factsFor o tree rootDir e.parsedFiles
  return (e, facts)

def conclude (tree : FileTree) (o : Options) (e : Extraction) (facts : Facts) : Step Analysis := do
  let w ← link ⟨o.verbose, true⟩ (e.workspace tree o.depth) facts
  let graph := w.catalog.graph
  let condensation := Condensation.ofGraph graph
  let order ← Step.lift .cycle (pure condensation.order)
  let cyclic := condensation.groups.countP fun g => 1 < g.members.length
  Log.note o.verbose ("[rank] " ++ toString graph.nodes.length ++ " components, " ++
    toString graph.edges.length ++ " edges, " ++ toString cyclic ++ " cyclic groups")
  let importance ← Step.lift .settings (Importance.compute graph o.importance o.verbose)
  return ⟨Path.resolve "/" o.rootDir, e.index.rootPackage, w.catalog, graph, condensation, order,
    importance, e.failedFiles⟩

def run (tree : FileTree) (o : Options) : Step Analysis := do
  let (e, facts) ← gather tree o
  conclude tree o e facts

end Analysis

end RepoAtlas
