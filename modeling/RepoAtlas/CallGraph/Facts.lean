import RepoAtlas.Json
import RepoAtlas.Table

/-!
Call-graph facts: a table from call sites to the callees reported for them, read from JSON. The
reader accepts an object whose values are lists of strings and names the first place that is not so.
What a tool reports is kept in code units; it is looked up as it is shown.
-/
namespace RepoAtlas.CallGraph
open Text

abbrev Facts := List (String × List String)

/-- Facts in code units, as a tool reports them. -/
abbrev Report := List (Units × List Units)

def Report.facts (report : Report) : Facts :=
  report.map fun e => (ofUnits e.1, e.2.map ofUnits)

inductive FactsError where
  | notJson
  /-- The first offending place, nothing if the whole is no object. -/
  | badShape (place : Option Units)
  deriving DecidableEq, Repr

def FactsError.message : FactsError → Units
  | .notJson => units "call graph output is not valid JSON"
  | .badShape none => units "call graph output has an unexpected shape"
  | .badShape (some place) => units "call graph output has an unexpected shape at " ++ place

def isDigitUnit (u : UInt16) : Bool := 48 ≤ u && u ≤ 57

/-- The number that a key spells in its only decimal form, if it is below 2^32 - 1. -/
def indexKey? (key : Units) : Option Nat :=
  if key.isEmpty || !key.all isDigitUnit || (key.head? == some 48 && key.length > 1) then none
  else
    let n := key.foldl (fun n u => n * 10 + (u.toNat - 48)) 0
    if n < 4294967295 then some n else none

/-- Keys that are numbers come first in ascending order, the others as they were first written. -/
def inPropertyOrder {α : Type} (entries : List (Units × α)) : List (Units × α) :=
  let numbered := entries.filterMap fun e => (indexKey? e.1).map fun n => (n, e)
  ((numbered.mergeSort fun a b => a.1 ≤ b.1).map (·.2)) ++
    entries.filter fun e => (indexKey? e.1).isNone

def readCallees (key : Units) : Nat → List Json → Except FactsError (List Units)
  | _, [] => .ok []
  | i, .string s :: rest => (readCallees key (i + 1) rest).map (s :: ·)
  | i, _ :: _ => .error (.badShape (some (key ++ units ("." ++ toString i))))

def readEntry : Units × Json → Except FactsError (Units × List Units)
  | (key, .array items) => (readCallees key 0 items).map fun callees => (key, callees)
  | (key, _) => .error (.badShape (some key))

/-- Reads a report. A repeated key takes its last value; the key `__proto__` is checked like
any other and then left out. -/
def Report.parse (raw : String) : Except FactsError Report :=
  match Json.parse? raw with
  | none => .error .notJson
  | some (.object members) => do
    let entries ← (inPropertyOrder (Table.ofList members).entries).mapM readEntry
    return entries.filter fun e => e.1 != units "__proto__"
  | some _ => .error (.badShape none)

end RepoAtlas.CallGraph
