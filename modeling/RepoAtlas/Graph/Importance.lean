import RepoAtlas.Graph.Digraph
import RepoAtlas.Number.Decimal
import RepoAtlas.Text.Collation
import RepoAtlas.Log

/-!
Importance of the nodes of a graph: each node hands its score to what it depends on, in equal
shares, and a fixed part of all scores is spread evenly. The iteration is written for any carrier
with the four operations and an order; it runs on floating-point numbers and is studied over the
rationals.
-/
namespace RepoAtlas.Importance
open Text

instance floatOfNat : NatCast Float := ⟨Float.ofNat⟩

/-- The graph by positions: the in-neighbours and the out-degree of each node. -/
structure Layout where
  incoming : List (List Nat)
  outDegree : List Nat
  deriving DecidableEq, Repr

def Layout.ofGraph (g : Digraph) : Layout :=
  { incoming := g.nodes.map fun v => (g.predecessors v).filterMap fun u => g.nodes.idxOf? u
    outDegree := g.nodes.map fun v => (g.successors v).length }

variable {K : Type} [Add K] [Sub K] [Mul K] [Div K] [NatCast K] [LT K] [DecidableLT K]

def total (xs : List K) : K := xs.foldl (· + ·) ((0 : Nat) : K)

def distance (a b : K) : K := if b < a then a - b else b - a

def danglingMass (l : Layout) (rank : List K) : K :=
  total ((rank.zip l.outDegree).filterMap fun p => if p.2 = 0 then some p.1 else none)

def flow (l : Layout) (rank : List K) (sources : List Nat) : K :=
  total (sources.map fun i => rank.getD i ((0 : Nat) : K) / ((l.outDegree.getD i 0 : Nat) : K))

def next (l : Layout) (alpha : K) (rank : List K) : List K :=
  let n : K := (l.incoming.length : Nat)
  let base := (((1 : Nat) : K) - alpha) / n + (alpha * danglingMass l rank) / n
  l.incoming.map fun sources => base + alpha * flow l rank sources

def change (rank rank' : List K) : K := total ((rank'.zip rank).map fun p => distance p.1 p.2)

structure Outcome (K : Type) where
  rank : List K
  iterations : Nat
  converged : Bool
  deriving Repr

/-- Iterates until the change falls below the limit or the bound is used up. -/
def iterate (l : Layout) (alpha limit : K) : Nat → Nat → List K → Outcome K
  | 0, done, rank => ⟨rank, done, false⟩
  | n + 1, done, rank =>
    let rank' := next l alpha rank
    if change rank rank' < limit then ⟨rank', done + 1, true⟩
    else iterate l alpha limit n (done + 1) rank'

/-- The iteration on a graph, from equal scores; the empty graph needs none. -/
def run (l : Layout) (alpha tolerance : K) (maxIterations : Nat) : Outcome K :=
  let n := l.incoming.length
  if n = 0 then ⟨[], 0, true⟩
  else
    let start : List K := List.replicate n (((1 : Nat) : K) / ((n : Nat) : K))
    iterate l alpha (((n : Nat) : K) * tolerance) maxIterations 0 start

/-- Names by descending score; equal scores fall back to alphabetical order. -/
def ranking [Collator] (scores : List (String × K)) : List String :=
  (scores.mergeSort fun a b =>
    if b.2 < a.2 then true
    else if a.2 < b.2 then false
    else (Collation.collate a.1 b.1).isLE).map (·.1)

structure Options where
  alpha : Option Float := none
  maxIterations : Option Float := none
  tolerance : Option Float := none

def defaultAlpha [OfScientific K] : K := 0.85

def defaultMaxIterations : Nat := 100

def defaultTolerance [OfScientific K] : K := 1e-6

inductive SettingsError where
  | alpha (value : Float)
  | maxIterations (value : Float)
  | tolerance (value : Float)

def SettingsError.message : SettingsError → String
  | .alpha v => "alpha must be within [0, 1], got " ++ Number.text v
  | .maxIterations v => "maxIterations must be a positive integer, got " ++ Number.text v
  | .tolerance v => "tolerance must be positive, got " ++ Number.text v

structure Settings (K : Type) where
  alpha : K
  maxIterations : Nat
  tolerance : K

def Settings.default [OfScientific K] : Settings K :=
  ⟨defaultAlpha, defaultMaxIterations, defaultTolerance⟩

/-- Fills in the defaults and checks alpha first, the bound second, the tolerance last. -/
def Options.settings (o : Options) : Except SettingsError (Settings Float) := do
  let alpha := o.alpha.getD defaultAlpha
  let bound := o.maxIterations.getD (Float.ofNat defaultMaxIterations)
  let tolerance := o.tolerance.getD defaultTolerance
  unless 0 ≤ alpha && alpha ≤ 1 do throw (.alpha alpha)
  let some maxIterations := Number.toPositive? bound | throw (.maxIterations bound)
  unless 0 < tolerance do throw (.tolerance tolerance)
  return ⟨alpha, maxIterations, tolerance⟩

structure Scores (K : Type) where
  scores : List (String × K)
  iterations : Nat
  converged : Bool

def Scores.ranking [Collator] (r : Scores K) : List String := Importance.ranking r.scores

def report (g : Digraph) (s : Settings K) (out : Outcome K) (verbose : Bool) : Logged Unit :=
  if g.nodes.isEmpty then pure ()
  else if out.converged then
    Log.note verbose ("[rank] converged after " ++ toString out.iterations ++ " iterations")
  else
    Log.warn ("[rank] pagerank did not converge within " ++ toString s.maxIterations ++
      " iterations; using the last scores")

def computeWith (g : Digraph) (s : Settings K) (verbose : Bool) : Logged (Scores K) := do
  let out : Outcome K := run (Layout.ofGraph g) s.alpha s.tolerance s.maxIterations
  report g s out verbose
  return ⟨g.nodes.zip out.rank, out.iterations, out.converged⟩

abbrev Result := Scores Float

def compute (g : Digraph) (o : Options) (verbose : Bool) : Logged (Except SettingsError Result) :=
  match o.settings with
  | .error e => pure (.error e)
  | .ok s => Except.ok <$> computeWith g s verbose

end RepoAtlas.Importance
