import RepoAtlas.Proofs.Extraction.Order
import RepoAtlas.Proofs.Pass.CallSites
import RepoAtlas.Proofs.Pass.Structure
import RepoAtlas.Text.Alphabet

/-!
The analysis forgets the order of its input. Two runs that list the same files and report the same
callees, in whatever order and however often, read the same components and find the same links; the
graph is written in alphabetical order, so graph, groups, order and importance come out identical.
Only files that cannot be read may change places, and only if they are spellings of one path.
-/
namespace RepoAtlas
open Text CallGraph Python

namespace Workspace
variable {w v : Workspace}

/-- Nothing tells the workspaces apart but the order of links and what was opened before. -/
structure Alike (w v : Workspace) : Prop where
  tree : w.tree = v.tree
  index : w.index = v.index
  steps : w.steps = v.steps
  agrees : w.cache.Agrees w.tree
  agrees_other : v.cache.Agrees v.tree
  catalog : w.catalog.Alike v.catalog

structure Follows (w after : Workspace) : Prop where
  tree : after.tree = w.tree
  index : after.index = w.index
  steps : after.steps = w.steps
  agrees : after.cache.Agrees w.tree

theorem perform_follows {after : Workspace} (h : w.Follows after) (r : Reporting) (e : Event)
    (log : List Log.Entry) : w.Follows ((after.perform r e).value log) := by
  cases e with
  | opened file =>
    rw [perform, value_openFile]
    refine ⟨h.tree, h.index, h.steps, ?_⟩
    rw [h.tree]
    exact Cache.agrees_touch h.agrees file
  | noted message => exact h
  | linked source target => exact ⟨h.tree, h.index, h.steps, h.agrees⟩

theorem performAll_follows (agrees : w.cache.Agrees w.tree) (r : Reporting) (events : List Event)
    (log : List Log.Entry) : w.Follows ((w.performAll r events).value log) :=
  Logged.foldlM_keeps (P := w.Follows) (fun _ h e _ log => perform_follows h r e log)
    ⟨rfl, rfl, rfl, agrees⟩ log

namespace Alike

theorem performAll (h : w.Alike v) {events events' : List Event}
    (same : ∀ e, e ∈ linksOf events ↔ e ∈ linksOf events') (r : Reporting)
    (log log' : List Log.Entry) :
    ((w.performAll r events).value log).Alike ((v.performAll r events').value log') := by
  have hw := performAll_follows h.agrees r events log
  have hv := performAll_follows h.agrees_other r events' log'
  refine ⟨?_, ?_, ?_, hw.tree ▸ hw.agrees, hv.tree ▸ hv.agrees, ?_⟩
  · rw [hw.tree, hv.tree, h.tree]
  · rw [hw.index, hv.index, h.index]
  · rw [hw.steps, hv.steps, h.steps]
  · rw [performAll_catalog, performAll_catalog]
    exact h.catalog.addAll same

theorem rebuildUsedBy (h : w.Alike v) : w.rebuildUsedBy.Alike v.rebuildUsedBy :=
  ⟨h.tree, h.index, h.steps, h.agrees, h.agrees_other, h.catalog.rebuildUsedBy⟩

theorem bare (h : w.Alike v) : w.bare = v.bare := by
  rw [Workspace.bare, Workspace.bare, h.tree, h.index, h.steps,
    Catalog.bare_eq_of_outline h.catalog.outline]

/-- A pass that looks at the bare workspace finds the same in both. -/
theorem pass (h : w.Alike v) (events : Workspace → List Event)
    (looks : ∀ w : Workspace, w.cache.Agrees w.tree → events w.bare = events w) (r : Reporting)
    (log log' : List Log.Entry) :
    ((w.performAll r (events w)).value log).Alike ((v.performAll r (events v)).value log') := by
  have same : events w = events v := by rw [← looks w h.agrees, h.bare, looks v h.agrees_other]
  apply h.performAll
  intro e
  rw [same]

end Alike

end Workspace

def CallGraph.Reports (facts : Facts) (site callee : String) : Prop :=
  ∃ callees, (site, callees) ∈ facts ∧ callee ∈ callees

namespace Reconcile
variable {w v : Workspace} {facts facts' : Facts}

theorem calls_iff [Collator] {c : Component} {t : String} : Calls w facts c t ↔
    ∃ site callee, Reports facts site callee ∧ caller? w site = some c ∧ isBuiltin callee = false ∧
      placed w c callee = some t := by
  simp only [Calls, callsMade, List.mem_flatMap, List.mem_map, Option.mem_toList, Prod.mk.injEq,
    Reports]
  constructor
  · rintro ⟨_, ⟨⟨site, callees⟩, hf, c, hc, callee, hm, rfl, rfl⟩, hb, hp⟩
    exact ⟨site, callee, ⟨callees, hf, hm⟩, hc, hb, hp⟩
  · rintro ⟨site, callee, ⟨callees, hf, hm⟩, hc, hb, hp⟩
    exact ⟨callee, ⟨(site, callees), hf, c, hc, callee, hm, rfl, rfl⟩, hb, hp⟩

/-- From one catalog, tables that report the same give the same links. -/
theorem mem_links_congr [Collator] (h : w.Alike v) (catalog : w.catalog = v.catalog)
    (named : w.catalog.get? "" = none)
    (same : ∀ site callee, Reports facts site callee ↔ Reports facts' site callee)
    (e : String × String) :
    e ∈ linksOf ((verdicts w Strategy.all facts).flatMap Verdict.events) ↔
      e ∈ linksOf ((verdicts v Strategy.all facts').flatMap Verdict.events) := by
  have world : w.world = v.world := by
    rw [Workspace.world, World.ofTree_of_agrees h.agrees, Workspace.world,
      World.ofTree_of_agrees h.agrees_other, h.tree, h.index]
  have callers : ∀ site, caller? w site = caller? v site := by
    intro site
    rw [caller?, caller?, catalog, h.index]
  have places : ∀ c callee, placed w c callee = placed v c callee := by
    intro c callee
    rw [placed, placed, contextOf, contextOf, catalog, world, h.steps]
  obtain ⟨x, t⟩ := e
  rw [mem_links named, mem_links (catalog ▸ named)]
  simp only [calls_iff, same, callers, places]

end Reconcile

namespace Analysis

theorem link_alike [Collator] {w v : Workspace} {facts facts' : Facts} (h : w.Alike v)
    (catalog : w.catalog = v.catalog) (named : w.catalog.get? "" = none)
    (same : ∀ site callee, Reports facts site callee ↔ Reports facts' site callee) (r : Reporting)
    (log log' : List Log.Entry) :
    ((link r w facts).value log).Alike ((link r v facts').value log') := by
  have calls :=
    (h.performAll (Reconcile.mem_links_congr h catalog named same) r log log').rebuildUsedBy
  have methods := fun log log' => (calls.pass (fun w => Structure.methodEvents w.catalog)
    (fun w _ => Structure.methodEvents_bare w.catalog) r log log').rebuildUsedBy
  have bases := fun log log' l l' => ((methods log log').pass _
    (fun w => Structure.Mention.bases.events_bare) r l l').rebuildUsedBy
  exact ((bases _ _ _ _).pass _ (fun w => Structure.Mention.decorators.events_bare) r
    _ _).rebuildUsedBy

theorem link_consistent [Collator] {w : Workspace} (linked : w.catalog.WellLinked) (r : Reporting)
    (facts : Facts) (log : List Log.Entry) : ((link r w facts).value log).catalog.Consistent := by
  obtain ⟨sound, _⟩ := (passes_chain r w facts log).sound linked
  exact (sound ((passes r w facts).value log).decorators (by simp [Passes.all])).consistent

theorem Chain.keys {w last : Workspace} {ps : List Pass} (h : Chain w ps last) :
    last.catalog.components.keys = w.catalog.components.keys := by
  induction h with
  | nil w => rfl
  | @cons w after last added ps hr _ ih =>
    obtain ⟨links, hafter, _⟩ := hr
    have rebuilt := Catalog.keys_eq_of_outline after.catalog.rebuildUsedBy_outline
    rw [ih, Workspace.rebuildUsedBy, rebuilt, hafter, Catalog.addAll_keys]

theorem mem_usedBy_iff {c : Catalog} (h : c.Consistent) {x y : String} {t : Component}
    (ht : c.get? y = some t) : x ∈ t.usedBy ↔ c.Depends x y := by
  constructor
  · intro hx
    obtain ⟨s, hs⟩ := Option.isSome_iff_exists.mp (h.users_known y t ht x hx)
    exact ⟨s, hs, (h.inverse x s y t hs ht).mpr hx⟩
  · rintro ⟨s, hs, hy⟩
    exact (h.inverse x s y t hs ht).mp hy

theorem compute_of_log (g : Digraph) (o : Importance.Options) (verbose : Bool)
    (log log' : List Log.Entry) :
    (Importance.compute g o verbose).value log = (Importance.compute g o verbose).value log' := by
  rw [Importance.compute]
  cases o.settings <;> rfl

def result [Collator] (o : Options) (e : Extraction) (last : Workspace) (order : List String)
    (importance : Importance.Result) : Analysis :=
  ⟨Path.resolve "/" o.rootDir, e.index.rootPackage, last.catalog, last.catalog.graph,
    Condensation.ofGraph last.catalog.graph, order, importance, e.failedFiles⟩

theorem conclude_eq [Collator] {tree : FileTree} {o : Options} {e : Extraction} {facts : Facts}
    {log : List Log.Entry} {last : Workspace} {order : List String}
    (hlast : (link ⟨o.verbose, true⟩ (e.workspace tree o.depth) facts).value log = last)
    (horder : (Condensation.ofGraph last.catalog.graph).order = .ok order) :
    Logged.value (conclude tree o e facts).run log =
      (((Importance.compute last.catalog.graph o.importance o.verbose).value []).mapError
        AnalysisError.settings).map (result o e last order) := by
  rw [conclude, Step.value_bind_ok (Step.value_liftM ..), hlast]
  dsimp only
  rw [horder, Step.value_bind_ok (Step.value_lift_ok rfl), Step.value_bind_ok (Step.value_liftM ..),
    Step.value_bind, Step.value_lift, compute_of_log _ _ _ _ []]
  cases (Importance.compute last.catalog.graph o.importance o.verbose).value [] <;> rfl

/-- The same results, but for the order inside sets and among spellings of one path that cannot be
read. -/
structure SameResult (a b : Analysis) : Prop where
  rootDir : a.rootDir = b.rootDir
  rootPackage : a.rootPackage = b.rootPackage
  ids : a.catalog.components.keys = b.catalog.components.keys
  components : ∀ id s t, a.catalog.get? id = some s → b.catalog.get? id = some t →
    s.unlinked = t.unlinked ∧ (∀ x, x ∈ s.dependsOn ↔ x ∈ t.dependsOn) ∧
      ∀ x, x ∈ s.usedBy ↔ x ∈ t.usedBy
  graph : a.graph = b.graph
  condensation : a.condensation = b.condensation
  order : a.order = b.order
  importance : a.importance = b.importance
  failed_perm : a.failedFiles.Perm b.failedFiles
  failed_paths : a.failedFiles.map (Path.relativeTo a.rootDir) =
    b.failedFiles.map (Path.relativeTo b.rootDir)

/-- Both runs fail in the same way, or both give a result and the results are the same. -/
inductive SameOutcome : Except AnalysisError Analysis → Except AnalysisError Analysis → Prop where
  | failed (error : AnalysisError) : SameOutcome (.error error) (.error error)
  | ended {a b : Analysis} : SameResult a b → SameOutcome (.ok a) (.ok b)

theorem unlinked_eq_of_outline {c d : Catalog} (h : c.Alike d) {id : String} {s t : Component}
    (hs : c.get? id = some s) (ht : d.get? id = some t) : s.unlinked = t.unlinked := by
  have bare := congrArg (fun c => c.get? id) (Catalog.bare_eq_of_outline h.outline)
  simp only [Catalog.get?_bare, hs, ht, Option.map_some, Option.some.injEq] at bare
  exact bare

theorem result_same [Collator] {o o' : Options} {e e' : Extraction} {last last' : Workspace}
    {order : List String} {importance : Importance.Result} (root : o.rootDir = o'.rootDir)
    (read : Extraction.SameRead (Path.resolve "/" o.rootDir) e e') (alike : last.Alike last')
    (graph : last.catalog.graph = last'.catalog.graph) (consistent : last.catalog.Consistent)
    (consistent' : last'.catalog.Consistent) :
    SameResult (result o e last order importance) (result o' e' last' order importance) where
  rootDir := by rw [result, result, root]
  rootPackage := by rw [result, result, read.index]
  ids := alike.catalog.keys
  components := by
    intro id s t hs ht
    refine ⟨unlinked_eq_of_outline alike.catalog hs ht, ?_, ?_⟩
    · exact fun x => alike.catalog.mem_dependsOn hs ht
    · intro x
      rw [mem_usedBy_iff consistent hs, mem_usedBy_iff consistent' ht]
      exact alike.catalog.depends x id
  graph := graph
  condensation := congrArg Condensation.ofGraph graph
  order := rfl
  importance := rfl
  failed_perm := read.failed_perm
  failed_paths := by
    simp only [result, ← root]
    exact read.failed_paths

def Options.root (o : Options) : String := Path.resolve "/" o.rootDir

def Options.given (o : Options) (files : List String) (facts : Facts) : Options :=
  { o with files := some files, facts := .given facts }

section
variable {tree : FileTree} {o : Options} {files : List String} {facts : Facts}

theorem conclude_same [Collator] {files' : List String} {facts' : Facts} {e e' : Extraction}
    {log log' : List Log.Entry} {last last' : Workspace}
    (hlast : (link ⟨o.verbose, true⟩ (e.workspace tree o.depth) facts).value log = last)
    (hlast' : (link ⟨o.verbose, true⟩ (e'.workspace tree o.depth) facts').value log' = last')
    (read : Extraction.SameRead (Path.resolve "/" o.rootDir) e e') (alike : last.Alike last')
    (graph : last.catalog.graph = last'.catalog.graph) (consistent : last.catalog.Consistent)
    (consistent' : last'.catalog.Consistent) :
    SameOutcome (Logged.value (conclude tree (o.given files facts) e facts).run log)
      (Logged.value (conclude tree (o.given files' facts') e' facts').run log') := by
  obtain ⟨order, horder⟩ : ∃ order, (Condensation.ofGraph last.catalog.graph).order = .ok order :=
    ⟨_, Condensation.ofGraph_order (Catalog.graph_wellFormed alike.catalog.linked)⟩
  have first := conclude_eq (o := o.given files facts) hlast horder
  have second := conclude_eq (o := o.given files' facts') hlast' (graph ▸ horder)
  rw [first, second, ← graph]
  simp only [Options.given]
  cases (Importance.compute last.catalog.graph o.importance o.verbose).value [] with
  | error bad => exact .failed _
  | ok importance => exact .ended (result_same rfl read alike graph consistent consistent')

theorem run_given_error [Collator] {bad : LanesError} (h : ∀ log, (Extraction.run tree
    (Path.resolve "/" o.rootDir) files o.lanes o.verbose).value log = .error bad)
    (log : List Log.Entry) :
    Logged.value (run tree (o.given files facts)).run log = .error (.lanes bad) := by
  have read : ∀ log, Logged.value (Step.lift AnalysisError.lanes (Extraction.run tree
      (Path.resolve "/" o.rootDir) files o.lanes o.verbose)).run log = .error (.lanes bad) := by
    intro log
    rw [Step.value_lift, h]
    rfl
  rw [run, gather, Step.value_bind, Step.value_bind_ok (Step.value_liftM ..), Step.value_bind]
  simp only [Options.given, Option.getD_some, read]

theorem run_given_ok [Collator] (facts : Facts) {e : Extraction}
    (h : ∀ log,
      (Extraction.run tree (Path.resolve "/" o.rootDir) files o.lanes o.verbose).value log = .ok e)
    (log : List Log.Entry) :
    ∃ later, Logged.value (run tree (o.given files facts)).run log =
      Logged.value (conclude tree (o.given files facts) e facts).run later := by
  have gathered : Logged.value (gather tree (o.given files facts)).run log = .ok (e, facts) := by
    rw [gather, Step.value_bind_ok (Step.value_liftM ..)]
    simp only [Options.given, Option.getD_some]
    rw [Step.value_bind_ok (Step.value_lift_ok (h _))]
    rfl
  refine ⟨Logged.messages (gather tree (o.given files facts)).run log, ?_⟩
  rw [run, Step.value_bind_ok gathered]

theorem run_agrees [Collator] {rootDir : String} {lanes : Float} {verbose : Bool}
    {log : List Log.Entry} {e : Extraction}
    (h : (Extraction.run tree rootDir files lanes verbose).value log = .ok e) :
    e.cache.Agrees tree := by
  obtain ⟨index, paths, rfl⟩ := Extraction.run_gathered h
  exact Extraction.gathered_agrees tree index paths []

end

def definedIds [Collator] (tree : FileTree) (root : String) (files : List String) : List String :=
  ((files.map (Path.toAbsolute root)).flatMap
    (Extraction.yielded tree (Extraction.indexOf root files))).map (·.id)

theorem keys_defined [Collator] {tree : FileTree} {root : String} {files : List String}
    {lanes : Float} {verbose : Bool} {log : List Log.Entry} {e : Extraction}
    (hroot : Path.resolve "/" root = root)
    (h : (Extraction.run tree root files lanes verbose).value log = .ok e) :
    e.components.keys ⊆ definedIds tree root files := by
  cases hl : Number.toPositive? lanes with
  | none =>
    rw [Extraction.run_of_no_lanes hl] at h
    cases h
  | some limit =>
    rw [Extraction.run_of_lanes hl, Except.ok.injEq] at h
    subst h
    intro id hid
    obtain ⟨s, hs, rfl⟩ := Extraction.mem_of_mem_keys_catalogued hid
    obtain ⟨path, hpath, hs⟩ := List.mem_flatMap.mp hs
    have listed : path ∈ files.map (Path.toAbsolute root) := by
      rw [Extraction.takenBy, hroot] at hpath
      split at hpath
      · cases hpath
      · exact Extraction.mem_candidates.mp hpath
    exact List.mem_map_of_mem (List.mem_flatMap.mpr ⟨path, listed, hs⟩)

/-- An analysis does not depend on the order and the spelling in which files are listed, nor on the
order and the repetition of call-graph facts, as long as alphabetical order tells the paths and ids
in play apart. -/
theorem input_order_forgotten [Collator] (tree : FileTree) (o : Options)
    (files files' : List String) (facts facts' : Facts)
    (sameFiles : ∀ path, path ∈ files.map (Path.toAbsolute o.root) ↔
      path ∈ files'.map (Path.toAbsolute o.root))
    (sameCallees : ∀ site callee, Reports facts site callee ↔ Reports facts' site callee)
    (paths : Collation.Separates
      ((files.map (Path.toAbsolute o.root)).map (Path.relativeTo o.root)))
    (ids : Collation.Separates (definedIds tree o.root files)) (log log' : List Log.Entry) :
    SameOutcome (Logged.value (run tree (o.given files facts)).run log)
      (Logged.value (run tree (o.given files' facts')).run log') := by
  have hroot : Path.resolve "/" o.root = o.root := Path.resolve_resolve_root o.rootDir
  have separate : Collation.Separates
      ((Extraction.candidates o.root files).map (Path.relativeTo o.root)) := by
    have listed : (Extraction.candidates o.root files).map (Path.relativeTo o.root) ⊆
        (files.map (Path.toAbsolute o.root)).map (Path.relativeTo o.root) :=
      List.map_subset _ fun _ h => Extraction.mem_candidates.mp h
    exact fun p hp q hq => paths p (listed hp) q (listed hq)
  rcases Extraction.run_sameRead sameFiles separate tree hroot o.lanes o.verbose with
    ⟨h, h'⟩ | ⟨e, e', h, h', read⟩
  · rw [run_given_error h, run_given_error h']
    exact .failed _
  · obtain ⟨later, hrun⟩ := run_given_ok facts h log
    obtain ⟨later', hrun'⟩ := run_given_ok facts' h' log'
    rw [hrun, hrun']
    have linked : Catalog.WellLinked ⟨e.components⟩ := (Extraction.run_unlinked (h [])).wellLinked
    have alike : (e.workspace tree o.depth).Alike (e'.workspace tree o.depth) := by
      refine ⟨rfl, read.index, rfl, run_agrees (h []), run_agrees (h' []), ?_⟩
      have same : (e.workspace tree o.depth).catalog = (e'.workspace tree o.depth).catalog :=
        congrArg Catalog.mk read.components
      rw [← same]
      exact .refl linked
    have named : (e.workspace tree o.depth).catalog.get? "" = none := by
      obtain ⟨index, taken, rfl⟩ := Extraction.run_gathered (h [])
      exact Extraction.gathered_named tree index taken
    have final := link_alike alike (congrArg Catalog.mk read.components) named sameCallees
      ⟨o.verbose, true⟩ later later'
    have keys := (passes_chain ⟨o.verbose, true⟩ (e.workspace tree o.depth) facts later).keys
    have graph := final.catalog.graph fun x hx y hy =>
      ids x (keys_defined hroot (h []) (keys ▸ hx)) y (keys_defined hroot (h []) (keys ▸ hy))
    exact conclude_same rfl rfl read final graph (link_consistent linked ..)
      (link_consistent alike.catalog.linked_other ..)

/-- A run with lanes and good settings gives a result. -/
theorem run_given_ends [Collator] (tree : FileTree) {o : Options} (files : List String)
    (facts : Facts) {limit : Nat} (lanes : Number.toPositive? o.lanes = some limit)
    (settings : o.importance.settings.isOk = true) (log : List Log.Entry) :
    ∃ a, Logged.value (run tree (o.given files facts)).run log = .ok a ∧
      a.failedFiles = (Extraction.takenBy limit o.root files).filter fun path =>
        (load tree path).toOption.isNone := by
  have read := Extraction.run_of_lanes lanes tree o.root files o.verbose
  obtain ⟨later, hrun⟩ := run_given_ok facts read log
  have unlinked := (Extraction.run_unlinked (read [])).wellLinked
  have linked := ((passes_chain ⟨o.verbose, true⟩ (Extraction.workspace _ tree o.depth) facts
    later).sound unlinked).2.1
  have order := Condensation.ofGraph_order (Catalog.graph_wellFormed linked)
  have concluded := conclude_eq (o := o.given files facts) rfl order
  cases hs : o.importance.settings with
  | error bad =>
    rw [hs] at settings
    cases settings
  | ok s =>
    have scores := fun g => compute_value g o.importance o.verbose []
    simp only [hs] at scores
    obtain ⟨importance, himportance⟩ := scores _
    have value := hrun.trans concluded
    change _ = (((Importance.compute _ o.importance o.verbose).value []).mapError _).map _ at value
    rw [himportance] at value
    exact ⟨_, value, rfl⟩

section
set_option maxRecDepth 100000

open scoped Text.Alphabet

def aliasOptions : Options := ⟨"/r", none, [], .given [], 4, 64, {}, false⟩

theorem alias_options_good : Number.toPositive? aliasOptions.lanes = some 4 ∧
    aliasOptions.importance.settings.isOk = true := ⟨by decide +kernel, by decide +kernel⟩

theorem alias_input_order_forgotten :
    ∃ a b,
      Logged.value (run aliasTree (aliasOptions.given ["a.py", "b.py"]
        [("b.C.m", ["b.C", "nowhere"]), ("a", ["b.C"])])).run [] = .ok a ∧
      Logged.value (run aliasTree (aliasOptions.given ["/r/b.py", "./a.py", "b.py"]
        [("a", ["b.C", "b.C"]), ("b.C.m", ["nowhere", "b.C"])])).run [] = .ok b ∧
        SameResult a b := by
  obtain ⟨lanes, settings⟩ := alias_options_good
  have images : ["a.py", "b.py"].map (Path.toAbsolute aliasOptions.root) =
      ["/r/a.py", "/r/b.py"] := by
    decide +kernel
  have images' : ["/r/b.py", "./a.py", "b.py"].map (Path.toAbsolute aliasOptions.root) =
      ["/r/b.py", "/r/a.py", "/r/b.py"] := by decide +kernel
  have sameFiles : ∀ path, path ∈ ["a.py", "b.py"].map (Path.toAbsolute aliasOptions.root) ↔
      path ∈ ["/r/b.py", "./a.py", "b.py"].map (Path.toAbsolute aliasOptions.root) := by
    intro path
    rw [images, images']
    simp only [List.mem_cons, List.not_mem_nil, or_false]
    tauto
  have sameCallees : ∀ site callee,
      Reports [("b.C.m", ["b.C", "nowhere"]), ("a", ["b.C"])] site callee ↔
        Reports [("a", ["b.C", "b.C"]), ("b.C.m", ["nowhere", "b.C"])] site callee := by
    intro site callee
    simp [Reports, or_and_right, exists_or, or_comm]
  have paths : Collation.Separates ((["a.py", "b.py"].map (Path.toAbsolute aliasOptions.root)).map
      (Path.relativeTo aliasOptions.root)) := by
    rw [Collation.Separates]
    decide +kernel
  have ids : Collation.Separates (definedIds aliasTree aliasOptions.root ["a.py", "b.py"]) := by
    have defined : definedIds aliasTree aliasOptions.root ["a.py", "b.py"] = ["b.C", "b.C.m"] := by
      decide +kernel
    rw [defined, Collation.Separates]
    decide +kernel
  obtain ⟨a, ha, _⟩ := run_given_ends aliasTree ["a.py", "b.py"]
    [("b.C.m", ["b.C", "nowhere"]), ("a", ["b.C"])] lanes settings []
  have outcome := input_order_forgotten aliasTree aliasOptions ["a.py", "b.py"]
    ["/r/b.py", "./a.py", "b.py"] _ _ sameFiles sameCallees paths ids [] []
  rw [ha] at outcome
  generalize hb : Logged.value (run aliasTree (aliasOptions.given ["/r/b.py", "./a.py", "b.py"]
    [("a", ["b.C", "b.C"]), ("b.C.m", ["nowhere", "b.C"])])).run [] = other at outcome
  cases outcome with
  | ended same => exact ⟨a, _, ha, rfl, same⟩

def directoryTree : FileTree := FileTree.empty.write "/r/d" .directory

theorem candidates_of_tie {files : List String}
    (images : (files.map (Path.toAbsolute "/r")).eraseDups = files)
    (tie : ∀ p ∈ files, Path.relativeTo "/r" p = "d") :
    Extraction.candidates "/r" files = files := by
  rw [Extraction.candidates, images]
  apply Collation.sortBy_of_ascending
  refine List.Pairwise.imp_of_mem (R := fun _ _ => True) ?_
    (List.pairwise_of_forall fun _ _ => trivial)
  intro p q hp hq _
  rw [tie p hp, tie q hq, Collation.collate_self]
  rfl

/-- Two spellings of one path that cannot be read come out in the order of the input. -/
theorem failed_spellings_keep_input_order :
    (∀ path, path ∈ ["/r/d/", "/r/d"].map (Path.toAbsolute aliasOptions.root) ↔
      path ∈ ["/r/d", "/r/d/"].map (Path.toAbsolute aliasOptions.root)) ∧
    Collation.Separates ((["/r/d/", "/r/d"].map (Path.toAbsolute aliasOptions.root)).map
      (Path.relativeTo aliasOptions.root)) ∧
    definedIds directoryTree aliasOptions.root ["/r/d/", "/r/d"] = [] ∧
    ∃ a b,
      Logged.value (run directoryTree (aliasOptions.given ["/r/d/", "/r/d"] [])).run [] = .ok a ∧
      Logged.value (run directoryTree (aliasOptions.given ["/r/d", "/r/d/"] [])).run [] = .ok b ∧
      a.failedFiles = ["/r/d/", "/r/d"] ∧ b.failedFiles = ["/r/d", "/r/d/"] := by
  obtain ⟨lanes, settings⟩ := alias_options_good
  have root : aliasOptions.root = "/r" := by decide +kernel
  have again : Path.resolve "/" "/r" = "/r" := by decide +kernel
  obtain ⟨a, ha, hfailed⟩ := run_given_ends directoryTree ["/r/d/", "/r/d"] [] lanes settings []
  obtain ⟨b, hb, hfailed'⟩ := run_given_ends directoryTree ["/r/d", "/r/d/"] [] lanes settings []
  rw [root, Extraction.takenBy, if_neg (by decide), again,
    candidates_of_tie (by decide +kernel) (by decide +kernel)] at hfailed hfailed'
  refine ⟨?_, ?_, by decide +kernel, a, b, ha, hb, ?_, ?_⟩
  · have images : ["/r/d/", "/r/d"].map (Path.toAbsolute aliasOptions.root) =
        ["/r/d/", "/r/d"] := by
      decide +kernel
    have images' : ["/r/d", "/r/d/"].map (Path.toAbsolute aliasOptions.root) =
        ["/r/d", "/r/d/"] := by
      decide +kernel
    intro path
    rw [images, images']
    simp [or_comm]
  · rw [Collation.Separates]
    decide +kernel
  · rw [hfailed]
    decide +kernel
  · rw [hfailed']
    decide +kernel

end

end Analysis

end RepoAtlas
