import RepoAtlas.CallGraph.Tool
import RepoAtlas.Proofs.Log
import RepoAtlas.Proofs.Path
import RepoAtlas.Proofs.Table

/-!
Whose facts a run of the tool returns. The output file is read after every run that ends well,
whether the run wrote it or not, so the facts are those of the run except where it left the file of
an earlier run in place.
-/
namespace RepoAtlas.FileTree

theorem find?_write (t : FileTree) {path : String} (e : Entry)
    (h : path.toList.getLast? ≠ some '/') :
    (t.write path e).find? path = some e := by
  have no_slash : (path.toList.getLast? == some '/') = false := by simpa using h
  rw [find?, write, Table.get?_insert, if_pos rfl]
  cases e with
  | file bytes => simp only [no_slash, Bool.false_eq_true, ↓reduceIte]
  | directory => rfl

theorem read_write (t : FileTree) {path : String} (bytes : ByteArray)
    (h : path.toList.getLast? ≠ some '/') : (t.write path (.file bytes)).read path = .ok bytes := by
  rw [read, find?_write t _ h]

end RepoAtlas.FileTree

namespace RepoAtlas.CallGraph
open Text

def ToolConfig.outcome (config : ToolConfig) (tool : Tool) (environment : String → Option String)
    (root : String) (files : List String) : ToolOutcome :=
  tool (config.invocation environment root files)

namespace ToolOutcome

/-- The tool itself reports these facts: it ends well and writes a text that is accepted. -/
def Delivers (o : ToolOutcome) (facts : Report) : Prop :=
  o.ending = .well ∧ ∃ bytes, o.written = some bytes ∧
    Report.parse (Utf8.decodeLossy bytes) = .ok facts

/-- The tool ends well and leaves the facts of an earlier run where it should have written. -/
def LeavesStale (o : ToolOutcome) (tree : FileTree) (outputPath : String) (facts : Report) : Prop :=
  o.ending = .well ∧ o.written = none ∧ readReport tree outputPath = .ok facts

def refusal (o : ToolOutcome) : ToolError.Reason :=
  match o.ending with
  | .missing => .missingExecutable
  | .failed .. => .exitCode
  | .well => .invalidOutput

/-- A result that rests on this run alone. -/
structure Accounts (o : ToolOutcome) (result : Except ToolError Report) : Prop where
  facts : ∀ facts, result = .ok facts ↔ o.Delivers facts
  refused : ∀ e, result = .error e → e.reason = o.refusal

theorem not_delivers_of_leavesStale {o : ToolOutcome} {tree : FileTree} {path : String}
    {old facts : Report} (h : o.LeavesStale tree path old) : ¬ o.Delivers facts := by
  rintro ⟨_, bytes, written, _⟩
  rw [h.2.1] at written
  cases written

end ToolOutcome

section Run
variable {tree : FileTree} {config : ToolConfig} {tool : Tool}
  {environment : String → Option String} {root : String} {files : List String} {verbose : Bool}
  {log : List Log.Entry}

theorem runTool_of_failure {failure : ToolFailure}
    (h : (config.outcome tool environment root files).ending.failure = some failure) :
    (runTool tree config tool environment root files verbose).value log =
      .error (.ofFailure config.executable failure) := by
  rw [ToolConfig.outcome] at h
  simp only [runTool, Logged.value_bind, h, Logged.value_pure]

theorem runTool_of_well (h : (config.outcome tool environment root files).ending = .well) :
    (runTool tree config tool environment root files verbose).value log =
      readReport ((config.outcome tool environment root files).leave tree
        (Path.resolve "/" config.outputPath)) (Path.resolve "/" config.outputPath) := by
  rw [ToolConfig.outcome] at h ⊢
  simp only [runTool, Logged.value_bind, h, Ending.failure]
  split
  case h_1 e failed => rw [Logged.value_pure, failed]
  case h_2 facts read => rw [Logged.value_bind, Logged.value_pure, read]

theorem failure_eq_none {ending : Ending} : ending.failure = none ↔ ending = .well := by
  cases ending with
  | well => simp [Ending.failure]
  | missing => simp [Ending.failure]
  | failed => simp [Ending.failure]

theorem ofFailure_reason {o : ToolOutcome} {failure : ToolFailure} (executable : String)
    (h : o.ending.failure = some failure) :
    (ToolError.ofFailure executable failure).reason = o.refusal := by
  rw [ToolOutcome.refusal]
  cases ending : o.ending with
  | well =>
    rw [ending] at h
    cases h
  | missing =>
    rw [ending] at h
    obtain rfl := Option.some.inj h
    rfl
  | failed other started =>
    rw [ending] at h
    obtain rfl := Option.some.inj h
    rw [ToolError.ofFailure.eq_def, started, if_neg Bool.false_ne_true]
    rcases other with _ | ⟨_ | _ | _, _⟩
    all_goals rfl

theorem readReport_reason {path : String} {e : ToolError} (h : readReport tree path = .error e) :
    e.reason = .invalidOutput := by
  rw [readReport] at h
  split at h
  · cases h
    rfl
  · split at h
    · cases h
    · cases h
      rfl

theorem readReport_write_ok {path : String} {bytes : ByteArray} {facts : Report}
    (h : path.toList.getLast? ≠ some '/') :
    readReport (tree.write path (.file bytes)) path = .ok facts ↔
      Report.parse (Utf8.decodeLossy bytes) = .ok facts := by
  simp only [readReport, FileTree.read_write tree bytes h]
  cases Report.parse (Utf8.decodeLossy bytes) with
  | ok read => simp
  | error e => simp

/-- A run returns the facts that it delivers or those that it leaves from an earlier run. -/
theorem runTool_ok_iff (verbose : Bool) (log : List Log.Entry)
    (h : (config.outcome tool environment root files).written.isSome = true →
      Path.absoluteParts config.outputPath ≠ []) (facts : Report) :
    (runTool tree config tool environment root files verbose).value log = .ok facts ↔
      (config.outcome tool environment root files).Delivers facts ∨
        (config.outcome tool environment root files).LeavesStale tree
          (Path.resolve "/" config.outputPath) facts := by
  rw [ToolOutcome.Delivers, ToolOutcome.LeavesStale, ← failure_eq_none]
  cases failed : (config.outcome tool environment root files).ending.failure with
  | some failure => simp [runTool_of_failure failed]
  | none =>
    rw [runTool_of_well (failure_eq_none.mp failed), ToolOutcome.leave]
    cases written : (config.outcome tool environment root files).written with
    | none => simp
    | some bytes =>
      have ending : (Path.resolve "/" config.outputPath).toList.getLast? ≠ some '/' := by
        rw [Path.resolve_root]
        exact Path.ofParts_no_trailing_slash (h (by simp [written])) (Path.absoluteParts_plain _)
      simp [readReport_write_ok ending]

theorem runTool_error_reason {e : ToolError}
    (h : (runTool tree config tool environment root files verbose).value log = .error e) :
    e.reason = (config.outcome tool environment root files).refusal := by
  cases failed : (config.outcome tool environment root files).ending.failure with
  | some failure =>
    rw [runTool_of_failure failed, Except.error.injEq] at h
    rw [← h, ofFailure_reason _ failed]
  | none =>
    have well := failure_eq_none.mp failed
    rw [runTool_of_well well] at h
    rw [readReport_reason h, ToolOutcome.refusal, well]

end Run

/-- The result of a run is that of the run exactly if no facts of an earlier run were left in its
place; if there were, it is they that are returned. Nothing can be written where the root directory
is. -/
theorem tool_accounts_unless_stale (tree : FileTree) (config : ToolConfig) (tool : Tool)
    (environment : String → Option String) (root : String) (files : List String) (verbose : Bool)
    (log : List Log.Entry)
    (h : (config.outcome tool environment root files).written.isSome = true →
      Path.absoluteParts config.outputPath ≠ []) :
    ((config.outcome tool environment root files).Accounts
        ((runTool tree config tool environment root files verbose).value log) ↔
      ∀ old, ¬ (config.outcome tool environment root files).LeavesStale tree
        (Path.resolve "/" config.outputPath) old) ∧
    ∀ old, (config.outcome tool environment root files).LeavesStale tree
      (Path.resolve "/" config.outputPath) old →
      (runTool tree config tool environment root files verbose).value log = .ok old := by
  refine ⟨⟨fun accounts old stale => ?_, fun fresh => ⟨fun facts => ?_, fun e => ?_⟩⟩,
    fun old stale => ?_⟩
  · have returned := (runTool_ok_iff verbose log h old).mpr (Or.inr stale)
    exact ToolOutcome.not_delivers_of_leavesStale stale ((accounts.facts old).mp returned)
  · rw [runTool_ok_iff verbose log h, or_iff_left (fresh facts)]
  · exact runTool_error_reason
  · exact (runTool_ok_iff verbose log h old).mpr (Or.inr stale)

def staleTree : FileTree :=
  FileTree.empty.write "/out/facts.json" (.file "\x7b\"old.f\": [\"old.g\"]\x7d".toUTF8)

def outConfig : ToolConfig := ⟨"python3", "/out/facts.json"⟩

def modulePaths : String → Option String := fun _ => some "/lib"

def writingTool : Tool := fun call =>
  match call.environment "PYTHONPATH" with
  | some _ => ⟨.missing, none⟩
  | none => ⟨.well, some "\x7b\"new.f\": [\"new.g\"]\x7d".toUTF8⟩

theorem writing_tool_accounts :
    Path.absoluteParts outConfig.outputPath ≠ [] ∧
      ((runTool staleTree outConfig writingTool modulePaths "/r" [] false).value []).toOption =
        some [(units "new.f", [units "new.g"])] ∧
      (outConfig.outcome writingTool modulePaths "/r" []).Accounts
        ((runTool staleTree outConfig writingTool modulePaths "/r" [] false).value []) := by
  have below : Path.absoluteParts outConfig.outputPath ≠ [] := by decide +kernel
  refine ⟨below, by decide +kernel, ?_⟩
  apply (tool_accounts_unless_stale staleTree outConfig writingTool modulePaths "/r" [] false []
    fun _ => below).1.mpr
  rintro old ⟨_, written, _⟩
  cases written

def idleTool : Tool := fun _ => ⟨.well, none⟩

theorem idle_tool_returns_stale_facts :
    ((runTool staleTree outConfig idleTool modulePaths "/r" [] false).value []).toOption =
        some [(units "old.f", [units "old.g"])] ∧
      ¬ (outConfig.outcome idleTool modulePaths "/r" []).Accounts
        ((runTool staleTree outConfig idleTool modulePaths "/r" [] false).value []) := by
  have returned :
      ((runTool staleTree outConfig idleTool modulePaths "/r" [] false).value []).toOption =
        some [(units "old.f", [units "old.g"])] := by
    decide +kernel
  refine ⟨returned, fun accounts => ?_⟩
  cases result : (runTool staleTree outConfig idleTool modulePaths "/r" [] false).value [] with
  | error e =>
    rw [result] at returned
    cases returned
  | ok facts =>
    obtain ⟨_, bytes, written, _⟩ := (accounts.facts facts).mp result
    cases written

end RepoAtlas.CallGraph
