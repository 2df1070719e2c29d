import RepoAtlas.Proofs.Analysis.Order
import RepoAtlas.Proofs.Origin.Reading
import RepoAtlas.Text.Alphabet

/-!
What was looked up before does not matter. Origins, files and the dependencies of single components
are asked for on one workspace, one after the other; every request leaves files in the shared cache
and may leave links in the catalog. As long as the cache holds nothing but what the files hold, each
request is answered as it would be on an empty cache, and a pass finds what its components find one
by one.
-/
namespace RepoAtlas
open Text CallGraph Python Reconcile

theorem Catalog.bare_addDependency (c : Catalog) (x y : String) :
    (c.addDependency x y).bare = c.bare := by
  rw [addDependency]
  split
  · simp only [bare, Table.map, Table.modify, List.map_map]
    congr 2
    apply List.map_congr_left
    intro e _
    by_cases here : e.1 = x
    · simp [here, Component.unlinked]
    · simp [here]
  · rfl

theorem Catalog.bare_addAll (c : Catalog) (links : List (String × String)) :
    (c.addAll links).bare = c.bare := by
  induction links generalizing c with
  | nil => rfl
  | cons e links ih => rw [addAll_cons, ih, bare_addDependency]

/-! Where a callee is placed. -/

namespace Reconcile.Context
variable {k l : Context}

structure Alike (k l : Context) : Prop where
  world : k.world = l.world
  steps : k.steps = l.steps
  suffixes : k.suffixes = l.suffixes
  findId : ∀ path, findId k.catalog path = findId l.catalog path
  filePath : k.caller.filePath = l.caller.filePath

theorem Alike.root (h : k.Alike l) : k.root = l.root := by rw [Context.root, h.world, Context.root]

theorem Alike.followKeys (h : k.Alike l) (keys : List String) :
    k.followKeys keys = l.followKeys keys := by
  induction keys with
  | nil => rfl
  | cons key keys ih =>
    have ids : k.idOfOrigin = l.idOfOrigin := by
      funext o
      rw [idOfOrigin, idOfOrigin, h.world, h.findId, h.findId]
    rw [Context.followKeys, Context.followKeys, ih, ids, h.world, h.steps, h.filePath]

theorem Alike.matchResolverSeeded (h : k.Alike l) (callee : String) :
    k.matchResolverSeeded callee = l.matchResolverSeeded callee := by
  have parts : k.calleeParts = l.calleeParts := by
    funext callee
    rw [calleeParts, h.root, calleeParts]
  have followed : k.followKeys = l.followKeys := funext h.followKeys
  have heads : k.isPlausible = l.isPlausible := by
    funext qualifier
    cases qualifier with
    | nil => rfl
    | cons head rest => rw [isPlausible, h.world, h.suffixes, isPlausible]
  have overlap : k.bestOverlap = l.bestOverlap := by
    funext parts
    simp only [bestOverlap, score, callerModule, h.world, h.suffixes, h.filePath]
  rw [Context.matchResolverSeeded, parts, followed, heads, overlap, Context.matchResolverSeeded]

theorem Alike.apply (h : k.Alike l) (callee : String) (s : Strategy) :
    k.apply callee s = l.apply callee s := by
  cases s with
  | normalized => simp only [Context.apply, matchNormalized, h.findId]
  | rootPrefix => simp only [Context.apply, matchRootPrefix, h.root, h.findId]
  | callerPackage =>
    simp only [Context.apply, matchCallerPackage, callerModule, h.root, h.world, h.filePath,
      h.findId]
  | resolverSeeded => exact h.matchResolverSeeded callee

theorem Alike.place (h : k.Alike l) (callee : String) (strategies : List Strategy) :
    k.place callee strategies = l.place callee strategies := by
  induction strategies with
  | nil => rfl
  | cons s strategies ih => rw [Context.place, Context.place, h.apply, ih]

end Reconcile.Context

namespace Reconcile
variable {w v : Workspace} {c d : Component}

theorem contextOf_alike [Collator] (h : w.LooksLike v) (same : c.unlinked = d.unlinked) :
    (contextOf w c).Alike (contextOf v d) where
  world := h.world
  steps := h.steps
  suffixes := by
    simp only [contextOf, SuffixIndex.ofCatalog]
    rw [← Catalog.ids_bare, h.catalog, Catalog.ids_bare]
  findId path := by
    simp only [contextOf]
    rw [← Structure.findId_bare, h.catalog, Structure.findId_bare]
  filePath := Component.filePath_of_unlinked same

theorem judge_congr [Collator] (h : w.LooksLike v) (same : c.unlinked = d.unlinked)
    (strategies : List Strategy) (callee : String) :
    judge (contextOf w c) strategies callee = judge (contextOf v d) strategies callee := by
  have caller : (contextOf w c).caller.id = (contextOf v d).caller.id :=
    Component.id_of_unlinked same
  rw [judge, (contextOf_alike h same).place, caller, judge]

end Reconcile

namespace Workspace
variable {w v : Workspace}

inductive Request where
  | resolve (name file : String)
  | trueOrigin (file name : String)
  | fetch (file : String)
  | bases (c : Component)
  | decorators (c : Component)
  | callee (c : Component) (callee : String)

def events [Collator] (w : Workspace) : Request → List Event
  | .resolve name file => openings (w.world.resolve w.steps name file).opened
  | .trueOrigin file name => openings (w.world.trueOrigin w.steps file name).opened
  | .fetch file => [.opened file]
  | .bases c => Structure.Mention.bases.eventsOf w c
  | .decorators c => Structure.Mention.decorators.eventsOf w c
  | .callee c callee => (judge (contextOf w c) Strategy.all callee).events

/-- Answers a request as the workspace is by now. -/
def serve [Collator] (r : Reporting) (w : Workspace) : Request → Logged Workspace
  | .resolve name file => do return (← w.resolve r name file).1
  | .trueOrigin file name => do return (← w.trueOrigin r file name).1
  | .fetch file => w.openFile r file
  | .bases c => w.performAll r (w.events (.bases c))
  | .decorators c => w.performAll r (w.events (.decorators c))
  | .callee c callee => w.performAll r (w.events (.callee c callee))

def serveAll [Collator] (r : Reporting) (w : Workspace) (history : List Request) :
    Logged Workspace :=
  history.foldlM (serve r) w

theorem serve_eq [Collator] (r : Reporting) (w : Workspace) (q : Request) :
    w.serve r q = w.performAll r (w.events q) := by
  cases q with
  | resolve name file => rfl
  | trueOrigin file name => rfl
  | fetch file => rfl
  | bases c => rfl
  | decorators c => rfl
  | callee c callee => rfl

/-! Links found before and files opened before are not looked at. -/

def Request.unlinked : Request → Request
  | .bases c => .bases c.unlinked
  | .decorators c => .decorators c.unlinked
  | .callee c name => .callee c.unlinked name
  | q => q

theorem events_bare [Collator] (agrees : w.cache.Agrees w.tree) (q : Request) :
    w.bare.events q.unlinked = w.events q := by
  have world := world_bare agrees
  cases q with
  | resolve name file =>
    exact congrArg (fun world => openings (World.resolve world w.steps name file).opened) world
  | trueOrigin file name =>
    exact congrArg (fun world => openings (World.trueOrigin world w.steps file name).opened) world
  | fetch file => rfl
  | bases c => exact Structure.Mention.bases.eventsOf_congr (bare_looksLike agrees) rfl
  | decorators c => exact Structure.Mention.decorators.eventsOf_congr (bare_looksLike agrees) rfl
  | callee c callee =>
    have same : c.unlinked.unlinked = c.unlinked := rfl
    rw [Request.unlinked, events, judge_congr (bare_looksLike agrees) same, events]

theorem events_eq [Collator] (agrees : w.cache.Agrees w.tree) (agrees' : v.cache.Agrees v.tree)
    (same : w.bare = v.bare) (q : Request) : w.events q = v.events q := by
  rw [← events_bare agrees, same, events_bare agrees']

theorem performAll_bare (agrees : w.cache.Agrees w.tree) (r : Reporting) (events : List Event)
    (log : List Log.Entry) : ((w.performAll r events).value log).bare = w.bare := by
  have follows := performAll_follows agrees r events log
  rw [bare, follows.tree, follows.index, follows.steps, performAll_catalog, Catalog.bare_addAll,
    bare]

theorem performAll_append (r : Reporting) (w : Workspace) (events more : List Event) :
    w.performAll r (events ++ more) = (w.performAll r events >>= fun v => v.performAll r more) :=
  List.foldlM_append

def fresh (w : Workspace) : Workspace := { w with cache := .empty }

/-- Requests one after the other, each on what the others left, do what each would do on its own. -/
theorem serveAll_run [Collator] (agrees : w.cache.Agrees w.tree) (agrees' : v.cache.Agrees v.tree)
    (same : v.bare = w.bare) (r : Reporting) (history : List Request) (log : List Log.Entry) :
    StateT.run (v.serveAll r history) log =
      StateT.run (v.performAll r (history.flatMap w.events)) log := by
  -- the workspace changes under way, its bare part does not, and requests look at nothing else
  induction history generalizing v log with
  | nil => rfl
  | cons q history ih =>
    rw [serveAll, List.foldlM_cons, serve_eq, events_eq agrees' agrees same, List.flatMap_cons,
      performAll_append, StateT.run_bind, StateT.run_bind]
    have follows := performAll_follows agrees' r (w.events q) log
    have bare := (performAll_bare agrees' r (w.events q) log).trans same
    exact ih (follows.tree ▸ follows.agrees) bare _

/-! A pass is a list of requests. -/

def mentionRequests [Collator] (w : Workspace) (m : Structure.Mention)
    (request : Component → Request) :
    List Request :=
  (w.catalog.values.filter fun c => m.concerns c.kind).map request

def baseRequests [Collator] (w : Workspace) : List Request := w.mentionRequests .bases .bases

def decoratorRequests [Collator] (w : Workspace) : List Request :=
  w.mentionRequests .decorators .decorators

def calleeRequests [Collator] (w : Workspace) (facts : Facts) : List Request :=
  (sortFacts facts).flatMap fun f =>
    (callerOf w.catalog (callerIndex w.catalog) w.index.rootPackage f.1).toList.flatMap fun c =>
      f.2.map (.callee c)

theorem mentionEvents_eq [Collator] (w : Workspace) (m : Structure.Mention)
    (request : Component → Request) (single : ∀ c, w.events (request c) = m.eventsOf w c) :
    m.events w = (w.mentionRequests m request).flatMap w.events := by
  rw [Structure.Mention.events, mentionRequests, List.flatMap_map]
  simp only [single]

theorem verdictEvents_eq [Collator] (w : Workspace) (facts : Facts) :
    (verdicts w Strategy.all facts).flatMap Verdict.events =
      (w.calleeRequests facts).flatMap w.events := by
  rw [verdicts, calleeRequests, List.flatMap_assoc, List.flatMap_assoc]
  congr 1
  funext f
  obtain ⟨site, callees⟩ := f
  dsimp only
  cases callerOf w.catalog (callerIndex w.catalog) w.index.rootPackage site with
  | none => rfl
  | some c => simp [List.flatMap_map, events, contextOf]

/-! Origins, each file read through the shared cache when the search comes to it. -/

theorem performAll_openings (r : Reporting) (w : Workspace) (files : List String)
    (log : List Log.Entry) :
    (w.performAll r (openings files)).value log =
      { w with cache := w.cache.touchAll w.tree files } := by
  induction files generalizing w log with
  | nil => rfl
  | cons file files ih =>
    rw [performAll, openings, List.map_cons, List.foldlM_cons, Logged.value_bind, perform,
      value_openFile]
    exact ih _ _

def leaving (w : Workspace) (out : Option Origin × Cache) : Workspace × Option Origin :=
  ({ w with cache := out.2 }, out.1)

theorem value_resolve (r : Reporting) (w : Workspace) (name file : String) (log : List Log.Entry) :
    (w.resolve r name file).value log =
      w.leaving ((ReadingSearch.resolve w.index w.tree w.steps name file).run w.cache) := by
  rw [ReadingSearch.run_resolve, leaving, ← performAll_openings r w _ log]
  rfl

theorem value_trueOrigin (r : Reporting) (w : Workspace) (file name : String)
    (log : List Log.Entry) :
    (w.trueOrigin r file name).value log =
      w.leaving ((ReadingSearch.trueOrigin w.index w.tree w.steps file name).run w.cache) := by
  rw [ReadingSearch.run_trueOrigin, leaving, ← performAll_openings r w _ log]
  rfl

/-- The later workspace gives the answers of the fresh one, also while it reads files in the middle
of a search; and what a pass finds on it is what single requests find on the fresh one. -/
structure AnswersLike [Collator] (later fresh : Workspace) : Prop where
  resolve : ∀ r r' log log' name file,
    ((later.resolve r name file).value log).2 = ((fresh.resolve r' name file).value log').2
  trueOrigin : ∀ r r' log log' file name,
    ((later.trueOrigin r file name).value log).2 = ((fresh.trueOrigin r' file name).value log').2
  resolve_reading : ∀ r log name file,
    (later.resolve r name file).value log = later.leaving
      ((ReadingSearch.resolve later.index later.tree later.steps name file).run later.cache)
  trueOrigin_reading : ∀ r log file name,
    (later.trueOrigin r file name).value log = later.leaving
      ((ReadingSearch.trueOrigin later.index later.tree later.steps file name).run later.cache)
  events : ∀ q, later.events q = fresh.events q
  bases : Structure.inheritanceEvents later = later.baseRequests.flatMap fresh.events
  decorators : Structure.decoratorEvents later = later.decoratorRequests.flatMap fresh.events
  calls : ∀ facts, (verdicts later Strategy.all facts).flatMap Verdict.events =
    (later.calleeRequests facts).flatMap fresh.events

theorem answersLike_of_bare [Collator] {later fresh : Workspace}
    (agrees : later.cache.Agrees later.tree) (agrees' : fresh.cache.Agrees fresh.tree)
    (same : later.bare = fresh.bare) :
    later.AnswersLike fresh := by
  have world : later.world = fresh.world := by rw [← world_bare agrees, same, world_bare agrees']
  have steps : later.steps = fresh.steps := by
    change later.bare.steps = fresh.bare.steps
    rw [same]
  have found : later.events = fresh.events := funext (events_eq agrees agrees' same)
  refine ⟨?_, ?_, ?_, ?_, congrFun found, ?_, ?_, ?_⟩
  · intro r r' log log' name file
    change (later.world.resolve later.steps name file).origin =
      (fresh.world.resolve fresh.steps name file).origin
    rw [world, steps]
  · intro r r' log log' file name
    change (later.world.trueOrigin later.steps file name).origin =
      (fresh.world.trueOrigin fresh.steps file name).origin
    rw [world, steps]
  · exact fun r log name file => value_resolve r later name file log
  · exact fun r log file name => value_trueOrigin r later file name log
  · rw [← found]
    exact later.mentionEvents_eq .bases .bases fun _ => rfl
  · rw [← found]
    exact later.mentionEvents_eq .decorators .decorators fun _ => rfl
  · intro facts
    rw [verdictEvents_eq, found]

/-- Whatever was asked before, a request is answered as on an empty cache. The workspace that a
history of requests leaves gives the answers of the fresh one; and the history as a whole does,
messages included, what follows from the events that each of its requests comes to on the fresh
one. -/
theorem history_forgotten [Collator] (w : Workspace) (agrees : w.cache.Agrees w.tree)
    (r : Reporting) (history : List Request) (log : List Log.Entry) :
    ((w.serveAll r history).value log).AnswersLike w.fresh ∧
      StateT.run (w.serveAll r history) log =
        StateT.run (w.performAll r (history.flatMap w.fresh.events)) log := by
  have empty : w.fresh.cache.Agrees w.fresh.tree := Cache.agrees_empty _
  have run := serveAll_run empty agrees rfl r history log
  have value : (w.serveAll r history).value log =
      (w.performAll r (history.flatMap w.fresh.events)).value log := congrArg Prod.fst run
  have follows := performAll_follows agrees r (history.flatMap w.fresh.events) log
  refine ⟨?_, run⟩
  rw [value]
  exact answersLike_of_bare (follows.tree ▸ follows.agrees) empty (performAll_bare agrees r _ log)

open scoped Text.Alphabet

def heirTree : FileTree :=
  (FileTree.empty.write "/r/a.py" (.file "from b import C as D\nclass E(D): pass\n".toUTF8)).write
    "/r/b.py" (.file "class C: pass\n".toUTF8)

def heir : Component := .placed "a.E" .classDef "/r/a.py" "a.py"

def heirs : Workspace where
  tree := heirTree
  index := .ofFiles "/r" ["a.py", "b.py"]
  cache := Cache.empty.touch heirTree "/r/b.py"
  catalog := ⟨⟨[("a.E", heir), ("b.C", .placed "b.C" .classDef "/r/b.py" "b.py")]⟩⟩
  steps := 65

set_option maxRecDepth 100000 in
theorem heirs_history_forgotten :
    heirs.cache.Agrees heirs.tree ∧
      linksOf (heirs.fresh.events (.bases heir)) = [("a.E", "b.C")] ∧
      ((heirs.serveAll ⟨true, true⟩ [.fetch "/r/x.py", .trueOrigin "a.py" "D", .bases heir]).value
        []).AnswersLike heirs.fresh := by
  have agrees : heirs.cache.Agrees heirs.tree := Cache.agrees_touch (Cache.agrees_empty _) _
  have link : linksOf (heirs.fresh.events (.bases heir)) = [("a.E", "b.C")] := by decide +kernel
  exact ⟨agrees, link, (history_forgotten heirs agrees ⟨true, true⟩ _ []).1⟩

end Workspace

end RepoAtlas
