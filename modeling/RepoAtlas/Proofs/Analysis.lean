import RepoAtlas.Analysis
import RepoAtlas.Proofs.Extraction
import RepoAtlas.Proofs.Graph.Order
import RepoAtlas.Text.Alphabet

/-!
The passes of an analysis. Whatever a pass looks at, all it does to the catalog is to record
dependencies, so every pass keeps the links sound, leaves the components alone and counts what it
adds. The final graph is the graph of those links.
-/
namespace RepoAtlas
open Text CallGraph

/-! What carrying out events does to the catalog. -/

theorem Workspace.value_openFile (r : Reporting) (w : Workspace) (file : String)
    (log : List Log.Entry) :
    (w.openFile r file).value log = { w with cache := w.cache.touch w.tree file } := by
  rw [openFile]
  split
  · split <;> rfl
  · rfl

theorem Workspace.performAll_catalog (r : Reporting) (w : Workspace) (events : List Event)
    (log : List Log.Entry) :
    ((w.performAll r events).value log).catalog = w.catalog.addAll (linksOf events) := by
  induction events generalizing w log with
  | nil => rfl
  | cons e events ih =>
    rw [performAll, List.foldlM_cons, Logged.value_bind]
    refine (ih _ _).trans ?_
    cases e with
    | opened file =>
      rw [perform, value_openFile]
      rfl
    | noted message => rfl
    | linked source target => rfl

/-- From one workspace to the next only dependencies were recorded, so many of them new. -/
def Records (before after : Workspace) (added : Nat) : Prop :=
  ∃ links, after.catalog = before.catalog.addAll links ∧ added = before.catalog.countNew links

theorem Workspace.run_records (r : Reporting) (w : Workspace) (events : List Event)
    (log : List Log.Entry) :
    Records w ((w.run r events).value log).1 ((w.run r events).value log).2 :=
  ⟨linksOf events, w.performAll_catalog r events log, rfl⟩

theorem Reconcile.run_records [Collator] (r : Reporting) (w : Workspace)
    (strategies : List Strategy) (facts : Facts) (log : List Log.Entry) :
    Records w ((run r w strategies facts).value log).1
      ((run r w strategies facts).value log).2.linked :=
  w.run_records r _ log

namespace Analysis

def Passes.all (p : Passes) : List Pass := [p.calls, p.methods, p.bases, p.decorators]

/-- Passes that follow on each other, from a first workspace to a last one. -/
inductive Chain : Workspace → List Pass → Workspace → Prop where
  | nil (w : Workspace) : Chain w [] w
  | cons {w after last : Workspace} {added : Nat} {ps : List Pass} :
      Records w after added → Chain after.rebuildUsedBy ps last →
      Chain w (⟨w, after, added⟩ :: ps) last

def reported : List Pass → Nat
  | [] => 0
  | p :: ps => p.added + reported ps

theorem passes_chain [Collator] (r : Reporting) (w : Workspace) (facts : Facts)
    (log : List Log.Entry) :
    Chain w ((passes r w facts).value log).all ((link r w facts).value log) :=
  .cons (Reconcile.run_records ..) <| .cons (Workspace.run_records ..) <|
    .cons (Workspace.run_records ..) <| .cons (Workspace.run_records ..) <| .nil _

structure Pass.Sound (p : Pass) : Prop where
  consistent : p.after.rebuildUsedBy.catalog.Consistent
  outline_after : p.after.catalog.outline = p.before.catalog.outline
  outline_rebuilt : p.after.rebuildUsedBy.catalog.outline = p.before.catalog.outline

theorem Chain.sound {w last : Workspace} {ps : List Pass} (h : Chain w ps last)
    (hw : w.catalog.WellLinked) :
    (∀ p ∈ ps, p.Sound) ∧ last.catalog.WellLinked ∧
      last.catalog.links.length = w.catalog.links.length + reported ps := by
  induction h with
  | nil w => simp [hw, reported]
  | @cons w after last added ps hr _ ih =>
    obtain ⟨links, hafter, hadded⟩ := hr
    have linked : after.catalog.WellLinked := hafter ▸ Catalog.addAll_wellLinked hw links
    have outline : after.catalog.outline = w.catalog.outline :=
      hafter ▸ Catalog.addAll_outline hw links
    have grown : after.catalog.links.length = w.catalog.links.length + added := by
      rw [hafter, hadded]
      exact Catalog.addAll_length_links hw links
    obtain ⟨sound, hlast, hlen⟩ := ih (Catalog.rebuildUsedBy_wellLinked linked)
    refine ⟨?_, hlast, ?_⟩
    · intro p hp
      rcases List.mem_cons.mp hp with rfl | hp
      · exact ⟨Catalog.rebuildUsedBy_consistent linked, outline,
          (Catalog.rebuildUsedBy_outline _).trans outline⟩
      · exact sound p hp
    · change last.catalog.links.length = after.catalog.rebuildUsedBy.links.length + _ at hlen
      rw [Catalog.rebuildUsedBy_links, grown] at hlen
      simp only [reported]
      omega

/-! Steps that may fail. -/

theorem Step.value_bind {α β : Type} (x : Step α) (f : α → Step β) (log : List Log.Entry) :
    Logged.value (x >>= f).run log =
      match Logged.value x.run log with
      | .ok a => Logged.value (f a).run (Logged.messages x.run log)
      | .error e => .error e := by
  rw [ExceptT.run_bind, Logged.value_bind]
  cases Logged.value x.run log <;> rfl

theorem Step.value_lift {α ε : Type} (wrap : ε → AnalysisError) (x : Logged (Except ε α))
    (log : List Log.Entry) :
    Logged.value (Step.lift wrap x).run log = (x.value log).mapError wrap := by
  change Logged.value (x >>= _) log = _
  rw [Logged.value_bind]
  cases x.value log <;> rfl

theorem Step.value_liftM {α : Type} (x : Logged α) (log : List Log.Entry) :
    Logged.value (liftM x : Step α).run log = .ok (x.value log) := rfl

theorem Step.value_bind_ok {α β : Type} {x : Step α} {f : α → Step β} {log : List Log.Entry} {a : α}
    (h : Logged.value x.run log = .ok a) :
    Logged.value (x >>= f).run log = Logged.value (f a).run (Logged.messages x.run log) := by
  rw [Step.value_bind, h]

theorem Step.exists_of_bind {α β : Type} {x : Step α} {f : α → Step β} {log : List Log.Entry}
    {b : β} (h : Logged.value (x >>= f).run log = .ok b) :
    ∃ a, Logged.value x.run log = .ok a ∧
      Logged.value (f a).run (Logged.messages x.run log) = .ok b := by
  rw [Step.value_bind] at h
  cases hx : Logged.value x.run log with
  | error e =>
    rw [hx] at h
    cases h
  | ok a =>
    rw [hx] at h
    exact ⟨a, rfl, h⟩

theorem Step.ok_of_lift {α ε : Type} {wrap : ε → AnalysisError} {x : Logged (Except ε α)}
    {log : List Log.Entry} {a : α} (h : Logged.value (Step.lift wrap x).run log = .ok a) :
    x.value log = .ok a := by
  rw [Step.value_lift] at h
  cases hx : x.value log with
  | error e =>
    rw [hx] at h
    cases h
  | ok b =>
    rw [hx] at h
    obtain rfl : b = a := Except.ok.inj h
    rfl

theorem Step.value_lift_ok {α ε : Type} {wrap : ε → AnalysisError} {x : Logged (Except ε α)}
    {log : List Log.Entry} {a : α} (h : x.value log = .ok a) :
    Logged.value (Step.lift wrap x).run log = .ok a := by
  rw [Step.value_lift, h]
  rfl

theorem gather_unlinked [Collator] {tree : FileTree} {o : Options} {log : List Log.Entry}
    {e : Extraction} {facts : Facts} (h : Logged.value (gather tree o).run log = .ok (e, facts)) :
    e.components.Unlinked := by
  obtain ⟨_, _, h⟩ := Step.exists_of_bind h
  obtain ⟨e', he, h⟩ := Step.exists_of_bind h
  obtain ⟨facts', _, h⟩ := Step.exists_of_bind h
  obtain ⟨rfl, _⟩ := Prod.mk.inj (Except.ok.inj h)
  exact Extraction.run_unlinked (Step.ok_of_lift he)

theorem compute_value (g : Digraph) (o : Importance.Options) (verbose : Bool)
    (log : List Log.Entry) :
    match o.settings with
    | .error bad => (Importance.compute g o verbose).value log = .error bad
    | .ok _ => ∃ scores, (Importance.compute g o verbose).value log = .ok scores := by
  rw [Importance.compute]
  cases o.settings with
  | error bad => rfl
  | ok s => exact ⟨_, rfl⟩

/-- The end of an analysis fails only for its settings: the links left by the passes can be
ordered. -/
theorem conclude_value [Collator] (tree : FileTree) (o : Options) (e : Extraction) (facts : Facts)
    (log : List Log.Entry) (last : Workspace)
    (hlast : (link ⟨o.verbose, true⟩ (e.workspace tree o.depth) facts).value log = last)
    (linked : last.catalog.WellLinked) :
    match o.importance.settings with
    | .error bad => Logged.value (conclude tree o e facts).run log = .error (.settings bad)
    | .ok _ => ∃ a, Logged.value (conclude tree o e facts).run log = .ok a ∧
        a.catalog = last.catalog ∧ a.graph = last.catalog.graph := by
  obtain ⟨order, horder⟩ : ∃ order, (Condensation.ofGraph last.catalog.graph).order = .ok order :=
    ⟨_, Condensation.ofGraph_order (Catalog.graph_wellFormed linked)⟩
  have scores := compute_value last.catalog.graph o.importance o.verbose
  rw [conclude, Step.value_bind_ok (Step.value_liftM ..), hlast]
  dsimp only
  rw [horder, Step.value_bind_ok (Step.value_lift_ok rfl), Step.value_bind_ok (Step.value_liftM ..),
    Step.value_bind, Step.value_lift]
  cases hs : o.importance.settings with
  | error bad =>
    simp only [hs] at scores
    rw [scores]
    rfl
  | ok settings =>
    simp only [hs] at scores
    obtain ⟨result, hresult⟩ := scores _
    rw [hresult]
    exact ⟨_, rfl, rfl, rfl⟩

/-- The passes take over from each other, each is sound, and the first starts where reading
ended. -/
structure Passes.Sound (p : Passes) (start : Workspace) : Prop where
  calls_from : p.calls.before = start
  methods_from : p.methods.before = p.calls.after.rebuildUsedBy
  bases_from : p.bases.before = p.methods.after.rebuildUsedBy
  decorators_from : p.decorators.before = p.bases.after.rebuildUsedBy
  calls : p.calls.Sound
  methods : p.methods.Sound
  bases : p.bases.Sound
  decorators : p.decorators.Sound

/-- The result shows what the passes did: its graph has the links they left as its edges, and as
many edges as they report. -/
structure Shows (a : Analysis) (p : Passes) : Prop where
  catalog : a.catalog = p.decorators.after.rebuildUsedBy.catalog
  simple : a.graph.WellFormed
  nodes : a.graph.nodes.Perm a.catalog.components.keys
  edges : ∀ x y, a.graph.Edge x y ↔ ∃ s, a.catalog.get? x = some s ∧ y ∈ s.dependsOn
  count : a.graph.edges.length =
    p.calls.added + p.methods.added + p.bases.added + p.decorators.added

/-- In every run that gets to the passes, they are sound. The run then gives a result that shows
what they did, unless the settings for importance are bad. -/
theorem passes_keep_links_consistent [Collator] (tree : FileTree) (o : Options)
    (log : List Log.Entry) (e : Extraction) (facts : Facts)
    (h : Logged.value (gather tree o).run log = .ok (e, facts)) :
    let p := (passes ⟨o.verbose, true⟩ (e.workspace tree o.depth) facts).value
      (Logged.messages (gather tree o).run log)
    p.Sound (e.workspace tree o.depth) ∧
      match o.importance.settings with
      | .error bad => Logged.value (run tree o).run log = .error (.settings bad)
      | .ok _ => ∃ a, Logged.value (run tree o).run log = .ok a ∧ a.Shows p := by
  intro p
  have unlinked := gather_unlinked h
  have chain : Chain (e.workspace tree o.depth) p.all _ := passes_chain ..
  obtain ⟨sound, linked, count⟩ := chain.sound unlinked.wellLinked
  constructor
  · exact ⟨rfl, rfl, rfl, rfl, sound _ (by simp [Passes.all]), sound _ (by simp [Passes.all]),
      sound _ (by simp [Passes.all]), sound _ (by simp [Passes.all])⟩
  · have final := conclude_value tree o e facts _ _ rfl linked
    rw [run, Step.value_bind_ok h]
    cases hs : o.importance.settings with
    | error bad =>
      simp only [hs] at final
      exact final
    | ok settings =>
      simp only [hs] at final
      obtain ⟨a, ha, hcatalog, hgraph⟩ := final
      rw [← hcatalog] at linked count hgraph
      refine ⟨a, ha, hcatalog, ?_, ?_, ?_, ?_⟩
      · exact hgraph ▸ Catalog.graph_wellFormed linked
      · rw [hgraph, Catalog.graph_nodes linked]
        exact Collation.sort_perm _
      · intro x y
        rw [hgraph]
        exact Catalog.graph_edge_iff linked
      · rw [hgraph, (Catalog.graph_edges_perm linked).length_eq, count]
        have none : (e.workspace tree o.depth).catalog.links = [] := unlinked.links_eq
        simp only [none, Passes.all, reported, List.length_nil]
        omega

def readAll (tree : FileTree) (root : String) (paths : List String) (lanes : Nat)
    (log : List Log.Entry) : Extraction :=
  ((Pool.map lanes (fun path => (path, Python.load tree path)) paths).foldlM
    (Extraction.addFile false) (Extraction.start (ModuleIndex.ofFiles root paths))).value log

theorem gather_given [Collator] {tree : FileTree} {o : Options} {files : List String}
    {facts : Facts} {lanes : Nat} {root : String} (hfiles : o.files = some files)
    (hfacts : o.facts = .given facts) (hlanes : Number.toPositive? o.lanes = some lanes)
    (hquiet : o.verbose = false) (hroot : Path.resolve "/" (Path.resolve "/" o.rootDir) = root)
    (log : List Log.Entry) :
    Logged.value (gather tree o).run log =
      .ok (readAll tree root (Extraction.candidates root files) lanes log, facts) := by
  simp only [gather, Extraction.run, factsFor, hfiles, hfacts, hlanes, hquiet, hroot,
    Option.getD_some]
  rfl

open scoped Text.Alphabet

def shapesTree : FileTree :=
  FileTree.empty.write "/r/shapes.py"
    (.file "class A:\n  def m(self): pass\nclass B(A): pass\n".toUTF8)

def shapesFacts : Facts := [("shapes.B", ["shapes.A.m"])]

def shapesOptions : Options :=
  ⟨"/r", some ["shapes.py"], [], .given shapesFacts, 4, 64, {}, false⟩

def shapesRead : Extraction := readAll shapesTree "/r" ["/r/shapes.py"] 4 []

theorem gather_shapes :
    Logged.value (gather shapesTree shapesOptions).run [] = .ok (shapesRead, shapesFacts) := by
  have path : Path.toAbsolute "/r" "shapes.py" = "/r/shapes.py" := by decide +kernel
  rw [shapesRead, ← path, ← Extraction.candidates_singleton]
  exact gather_given rfl rfl (by decide +kernel) rfl (by decide +kernel) []

set_option maxRecDepth 100000 in
theorem shapes_passes_keep_links_consistent :
    Logged.value (gather shapesTree shapesOptions).run [] = .ok (shapesRead, shapesFacts) ∧
    shapesRead.components.keys = ["shapes.A", "shapes.A.m", "shapes.B"] ∧
    let p := (passes ⟨false, true⟩ (shapesRead.workspace shapesTree 64) shapesFacts).value
      (Logged.messages (gather shapesTree shapesOptions).run [])
    p.Sound (shapesRead.workspace shapesTree 64) ∧
      ∃ a, Logged.value (run shapesTree shapesOptions).run [] = .ok a ∧ a.Shows p := by
  obtain ⟨sound, result⟩ := passes_keep_links_consistent _ _ _ _ _ gather_shapes
  refine ⟨gather_shapes, by decide +kernel, sound, ?_⟩
  have settings : shapesOptions.importance.settings.isOk = true := by decide +kernel
  cases hs : shapesOptions.importance.settings with
  | error bad =>
    rw [hs] at settings
    cases settings
  | ok s =>
    simp only [hs] at result
    exact result

end Analysis

end RepoAtlas
