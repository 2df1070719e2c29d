import RepoAtlas.CallGraph.Facts
import RepoAtlas.FileTree
import RepoAtlas.Log
import RepoAtlas.Number.Decimal
import RepoAtlas.Text.Blank
import RepoAtlas.Text.Utf8

/-!
The external tool that reports call-graph facts: how it is called, how its runs can end, and how its
output is taken over. A run is described by its outcome, so that nothing is started here.
-/
namespace RepoAtlas.CallGraph
open Text

structure ToolConfig where
  executable : String
  outputPath : String
  deriving DecidableEq, Repr

/-- A setting from the environment, trimmed; the default if nothing is left. -/
def settingOr (default : String) (value : Option String) : String :=
  match value.map trim with
  | some s => if s = "" then default else s
  | none => default

def ToolConfig.ofEnvironment (env : String → Option String) : ToolConfig :=
  { executable := settingOr "python3" (env "PYDEPGRAPH_PYTHON")
    outputPath := settingOr "/tmp/pydepgraph-callgraph.json" (env "PYDEPGRAPH_CALLGRAPH_OUTPUT") }

structure Invocation where
  arguments : List String
  directory : String
  environment : String → Option String

/-- The tool is started in the root directory on files by their whole paths, and does not get to
know where modules were found so far. -/
def ToolConfig.invocation (config : ToolConfig) (environment : String → Option String)
    (root : String) (files : List String) : Invocation :=
  let root := Path.resolve "/" root
  { arguments := ["-m", "pycg"] ++ files.map (Path.toAbsolute root) ++
      ["--package", root, "--output", Path.resolve "/" config.outputPath]
    directory := root
    environment := fun name => if name = "PYTHONPATH" then none else environment name }

inductive ExitCode where
  | number (value : Float)
  | word (text : String)
  | absent

inductive ToolFailure where
  /-- A failure that says nothing but a text. -/
  | plain (text : String)
  | process (code : ExitCode) (stderr : String)

def ToolFailure.isMissing : ToolFailure → Bool
  | .process (.word text) _ => text = "ENOENT"
  | _ => false

inductive ToolError where
  | failed (text : String)
  | missingExecutable (executable : String)
  | exited (code : Option Float) (stderr : String)
  | unreadableOutput
  | badFacts (error : FactsError)

def lastLine (s : String) : String := lastSegment '\n' (trim s)

namespace ToolError

def message : ToolError → Units
  | .failed text => units ("call graph tool failed: " ++ text)
  | .missingExecutable executable => units ("call graph executable not found: " ++ executable)
  | .exited code stderr =>
    let ending := match code with
      | some n => Number.text n
      | none => "a signal"
    let summary := lastLine stderr
    units ("call graph tool exited with " ++ ending ++ if summary = "" then "" else ": " ++ summary)
  | .unreadableOutput => units "call graph output could not be read"
  | .badFacts e => e.message

inductive Reason where
  | missingExecutable
  | exitCode
  | invalidOutput
  deriving DecidableEq, Repr

def reason : ToolError → Reason
  | .failed _ | .exited .. => .exitCode
  | .missingExecutable _ => .missingExecutable
  | .unreadableOutput | .badFacts _ => .invalidOutput

def exitCode : ToolError → Option Float
  | .exited code _ => code
  | _ => none

def stderr : ToolError → String
  | .exited _ text => text
  | _ => ""

def ofFailure (executable : String) (failure : ToolFailure) : ToolError :=
  if failure.isMissing then .missingExecutable executable
  else match failure with
    | .plain text => .failed text
    | .process (.number n) stderr => .exited (some n) stderr
    | .process _ stderr => .exited none stderr

end ToolError

inductive Ending where
  | well
  /-- There is no such executable, or no such directory to start it in. -/
  | missing
  | failed (failure : ToolFailure) (started : failure.isMissing = false)

def Ending.failure : Ending → Option ToolFailure
  | .well => none
  | .missing => some (.process (.word "ENOENT") "")
  | .failed failure _ => some failure

structure ToolOutcome where
  ending : Ending
  written : Option ByteArray

abbrev Tool := Invocation → ToolOutcome

def ToolOutcome.leave (o : ToolOutcome) (tree : FileTree) (outputPath : String) : FileTree :=
  match o.written with
  | some bytes => tree.write outputPath (.file bytes)
  | none => tree

def readReport (tree : FileTree) (outputPath : String) : Except ToolError Report :=
  match tree.read outputPath with
  | .error _ => .error .unreadableOutput
  | .ok bytes =>
    match Report.parse (Utf8.decodeLossy bytes) with
    | .ok report => .ok report
    | .error e => .error (.badFacts e)

def runTool (tree : FileTree) (config : ToolConfig) (tool : Tool)
    (environment : String → Option String) (root : String) (files : List String) (verbose : Bool) :
    Logged (Except ToolError Report) := do
  Log.note verbose ("[callgraph] running " ++ config.executable ++ " on " ++
    toString files.length ++ " files")
  let outcome := tool (config.invocation environment root files)
  match outcome.ending.failure with
  | some failure => return .error (.ofFailure config.executable failure)
  | none =>
    let outputPath := Path.resolve "/" config.outputPath
    match readReport (outcome.leave tree outputPath) outputPath with
    | .error e => return .error e
    | .ok report =>
      Log.note verbose ("[callgraph] " ++ toString report.length ++ " call sites reported")
      return .ok report

end RepoAtlas.CallGraph
