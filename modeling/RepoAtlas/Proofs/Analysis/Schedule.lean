import RepoAtlas.Proofs.Analysis.History
import RepoAtlas.Text.Alphabet

/-!
The order of the passes does not matter. No pass reads what another writes: each looks at components
without their links and at what the files hold, and no pass changes either. A schedule of passes
therefore adds the links that its passes find at the start, however they are arranged, and a pass
that had its turn finds nothing new.
-/
namespace RepoAtlas
open Text CallGraph Python Reconcile

namespace Reconcile
variable {w v : Workspace}

theorem callerIndex_bare [Collator] (c : Catalog) : callerIndex c.bare = callerIndex c := by
  rw [callerIndex, Catalog.values_bare, List.map_map, callerIndex]
  rfl

theorem callerOf_bare (c : Catalog) (keys : List (String × String)) (root site : String) :
    callerOf c.bare keys root site = (callerOf c keys root site).map Component.unlinked := by
  simp only [callerOf, Structure.findId_bare, Option.map_bind]
  congr 1
  funext id
  exact Catalog.get?_bare c id

theorem verdicts_congr [Collator] (h : w.LooksLike v) (strategies : List Strategy) (facts : Facts) :
    verdicts w strategies facts = verdicts v strategies facts := by
  have keys : callerIndex w.catalog = callerIndex v.catalog := by
    rw [← callerIndex_bare, h.catalog, callerIndex_bare]
  rw [verdicts, verdicts]
  congr 1
  funext fact
  obtain ⟨site, callees⟩ := fact
  -- both find the same caller, links apart
  have callers := callerOf_bare w.catalog (callerIndex w.catalog) w.index.rootPackage site
  rw [h.catalog, callerOf_bare, keys, h.index] at callers
  simp only [keys, h.index]
  cases hc : callerOf w.catalog (callerIndex v.catalog) v.index.rootPackage site with
  | none =>
    rw [hc, Option.map_none, Option.map_eq_none_iff] at callers
    rw [callers]
  | some c =>
    rw [hc, Option.map_some, Option.map_eq_some_iff] at callers
    obtain ⟨d, hd, same⟩ := callers
    rw [hd]
    exact List.map_congr_left fun callee _ => judge_congr h same.symm strategies callee

end Reconcile

/-! Carrying out events changes nothing that is looked at. -/

theorem Catalog.bare_rebuildUsedBy (c : Catalog) : c.rebuildUsedBy.bare = c.bare :=
  bare_eq_of_outline (rebuildUsedBy_outline c)

theorem Workspace.perform_looksLike (r : Reporting) (w : Workspace) (e : Event)
    (log : List Log.Entry) :
    ((w.perform r e).value log).LooksLike w := by
  cases e with
  | opened file =>
    rw [perform, value_openFile]
    exact ⟨World.ofTree_touchAll w.index w.tree w.cache [file], rfl, rfl⟩
  | noted message => exact .refl w
  | linked source target => exact ⟨rfl, rfl, Catalog.bare_addDependency w.catalog source target⟩

theorem Workspace.performAll_looksLike (r : Reporting) (w : Workspace) (events : List Event)
    (log : List Log.Entry) : ((w.performAll r events).value log).LooksLike w :=
  Logged.foldlM_keeps (P := (LooksLike · w))
    (fun v h e _ log => (perform_looksLike r v e log).trans h) (.refl w) log

namespace Catalog

theorem addAll_of_rejected {c : Catalog} {links : List (String × String)}
    (h : ∀ e ∈ links, c.accepts e.1 e.2 = false) : c.addAll links = c ∧ c.countNew links = 0 := by
  induction links with
  | nil => exact ⟨rfl, rfl⟩
  | cons e links ih =>
    have first := h e (List.mem_cons_self ..)
    have same : c.addDependency e.1 e.2 = c := by
      rw [addDependency, first]
      rfl
    obtain ⟨rest, count⟩ := ih fun e' he' => h e' (List.mem_cons_of_mem _ he')
    rw [addAll_cons, countNew, same, first]
    exact ⟨rest, by simpa using count⟩

end Catalog

namespace Analysis
variable {w v : Workspace} {strategies : List Strategy} {facts : Facts}

inductive Stage where
  | calls
  | methods
  | bases
  | decorators
  deriving DecidableEq, Repr

namespace Stage

def run [Collator] (r : Reporting) (strategies : List Strategy) (facts : Facts) (w : Workspace) :
    Stage → Logged (Workspace × Nat)
  | .calls => do
    let (after, stats) ← Reconcile.run r w strategies facts
    return (after, stats.linked)
  | .methods => Structure.addMethods r w
  | .bases => Structure.addBases r w
  | .decorators => Structure.addDecorators r w

def events [Collator] (strategies : List Strategy) (facts : Facts) (w : Workspace) :
    Stage → List Event
  | .calls => (verdicts w strategies facts).flatMap Verdict.events
  | .methods => Structure.methodEvents w.catalog
  | .bases => Structure.inheritanceEvents w
  | .decorators => Structure.decoratorEvents w

theorem events_congr [Collator] (h : w.LooksLike v) (s : Stage) :
    s.events strategies facts w = s.events strategies facts v := by
  cases s with
  | calls => rw [events, verdicts_congr h, events]
  | methods => exact Structure.methodEvents_congr h
  | bases => exact Structure.Mention.bases.events_congr h
  | decorators => exact Structure.Mention.decorators.events_congr h

theorem value_run [Collator] (r : Reporting) (s : Stage) (log : List Log.Entry) :
    (s.run r strategies facts w).value log =
      ((w.performAll r (s.events strategies facts w)).value log,
        w.catalog.countNew (linksOf (s.events strategies facts w))) := by
  cases s with
  | calls => rfl
  | methods => rfl
  | bases => rfl
  | decorators => rfl

end Stage

/-- A pass finds that one component depends on another. -/
def Finds [Collator] (strategies : List Strategy) (facts : Facts) (w : Workspace) (s : Stage)
    (x y : String) :
    Prop :=
  (x, y) ∈ linksOf (s.events strategies facts w) ∧ x ∈ w.catalog.components.keys ∧
    y ∈ w.catalog.components.keys ∧ x ≠ y

inductive Move where
  | stage (s : Stage)
  | users
  deriving DecidableEq, Repr

def Move.make [Collator] (r : Reporting) (strategies : List Strategy) (facts : Facts)
    (w : Workspace) :
    Move → Logged Workspace
  | .stage s => do return (← s.run r strategies facts w).1
  | .users => return w.rebuildUsedBy

def runSchedule [Collator] (r : Reporting) (strategies : List Strategy) (facts : Facts)
    (w : Workspace) (moves : List Move) : Logged Workspace :=
  moves.foldlM (Move.make r strategies facts) w

theorem keys_of_looksLike (h : w.LooksLike v) :
    w.catalog.components.keys = v.catalog.components.keys :=
  Catalog.keys_eq_of_outline (congrArg (fun c => c.components.entries) h.catalog)

/-- What one move does, on a workspace that others have worked on. -/
theorem make_step [Collator] (strategies : List Strategy) (facts : Facts) (h : v.LooksLike w)
    (r : Reporting) (m : Move) (log : List Log.Entry) :
    ((m.make r strategies facts v).value log).LooksLike w ∧
      ∀ x y, ((m.make r strategies facts v).value log).catalog.Depends x y ↔
        v.catalog.Depends x y ∨ ∃ s, m = .stage s ∧ Finds strategies facts w s x y := by
  cases m with
  | stage s =>
    have value : ((Move.stage s).make r strategies facts v).value log =
        (v.performAll r (s.events strategies facts w)).value log := by
      rw [Move.make, Logged.value_bind, Stage.value_run, Stage.events_congr h]
      rfl
    rw [value]
    refine ⟨(Workspace.performAll_looksLike r v _ log).trans h, fun x y => ?_⟩
    rw [Workspace.performAll_catalog, Catalog.depends_addAll, keys_of_looksLike h]
    simp [Finds]
  | users =>
    have rebuilt : v.rebuildUsedBy.LooksLike v := ⟨rfl, rfl, Catalog.bare_rebuildUsedBy v.catalog⟩
    refine ⟨rebuilt.trans h, fun x y => ?_⟩
    change v.catalog.rebuildUsedBy.Depends x y ↔ _
    simp [Catalog.Alike.depends_rebuildUsedBy]

/-- A schedule adds what its passes find at the start. -/
theorem runSchedule_adds [Collator] (strategies : List Strategy) (facts : Facts) (h : v.LooksLike w)
    (r : Reporting) (moves : List Move) (log : List Log.Entry) :
    ((runSchedule r strategies facts v moves).value log).LooksLike w ∧
      ∀ x y, ((runSchedule r strategies facts v moves).value log).catalog.Depends x y ↔
        v.catalog.Depends x y ∨ ∃ s, .stage s ∈ moves ∧ Finds strategies facts w s x y := by
  induction moves generalizing v log with
  | nil => exact ⟨h, by simp [runSchedule]⟩
  | cons m moves ih =>
    obtain ⟨looks, first⟩ := make_step strategies facts h r m log
    obtain ⟨looks', rest⟩ := ih looks ((m.make r strategies facts v).messages log)
    rw [runSchedule, List.foldlM_cons, Logged.value_bind]
    refine ⟨looks', fun x y => ?_⟩
    refine (rest x y).trans ?_
    simp only [first, List.mem_cons, or_assoc, ← exists_or, ← or_and_right, eq_comm]

/-- The same components, whose dependencies are the same sets. -/
structure SameDependencies (c d : Catalog) : Prop where
  outline : c.outline = d.outline
  dependsOn : ∀ id s t, c.get? id = some s → d.get? id = some t →
    ∀ y, y ∈ s.dependsOn ↔ y ∈ t.dependsOn

/-- Passes may be run in any order and as often as one likes, and users worked out in between:
schedules of the same passes leave the same dependencies, and a pass that had its turn adds nothing
and leaves the catalog as it is. -/
theorem schedules_commute [Collator] (w : Workspace) (strategies : List Strategy) (facts : Facts)
    (moves moves' : List Move) (same : ∀ s : Stage, .stage s ∈ moves ↔ .stage s ∈ moves')
    (r r' : Reporting) (log log' : List Log.Entry) :
    let after := (runSchedule r strategies facts w moves).value log
    SameDependencies after.catalog ((runSchedule r' strategies facts w moves').value log').catalog ∧
      ∀ s : Stage, .stage s ∈ moves → ∀ r log,
        ((s.run r strategies facts after).value log).1.catalog = after.catalog ∧
          ((s.run r strategies facts after).value log).2 = 0 := by
  intro after
  obtain ⟨looks, adds⟩ := runSchedule_adds strategies facts (.refl w) r moves log
  obtain ⟨looks', adds'⟩ := runSchedule_adds strategies facts (.refl w) r' moves' log'
  constructor
  · constructor
    · exact congrArg (fun c => c.components.entries) (looks.catalog.trans looks'.catalog.symm)
    · intro id s t hs ht y
      rw [← Catalog.depends_iff_mem hs, ← Catalog.depends_iff_mem ht, adds, adds']
      simp only [same]
  · intro s hs r log
    -- whatever the pass finds is there already, or it joins no two distinct components
    have rejected : ∀ e ∈ linksOf (s.events strategies facts after),
        after.catalog.accepts e.1 e.2 = false := by
      intro e he
      rw [Stage.events_congr looks] at he
      rw [← Bool.not_eq_true, Catalog.accepts_iff_depends, keys_of_looksLike looks]
      rintro ⟨hx, hy, hne, hnew⟩
      exact hnew ((adds e.1 e.2).mpr (Or.inr ⟨s, hs, he, hx, hy, hne⟩))
    obtain ⟨unchanged, none⟩ := Catalog.addAll_of_rejected rejected
    rw [Stage.value_run]
    exact ⟨(Workspace.performAll_catalog ..).trans unchanged, none⟩

open scoped Text.Alphabet

def forwards : List Move := [.stage .calls, .stage .methods, .stage .bases, .stage .decorators]

def backwards : List Move :=
  [.stage .decorators, .users, .stage .bases, .stage .bases, .stage .methods, .users, .stage .calls]

set_option maxRecDepth 100000 in
theorem shapes_finds_method (facts : Facts) :
    Finds Strategy.all facts (shapesRead.workspace shapesTree 64) .methods "shapes.A"
      "shapes.A.m" := by
  have read : (shapesRead.components.entries.map fun e => (e.1, e.2.id, e.2.kind)) =
      [("shapes.A", "shapes.A", .classDef), ("shapes.A.m", "shapes.A.m", .method),
        ("shapes.B", "shapes.B", .classDef)] := by decide +kernel
  have owner : dotted (segments '.' "shapes.A.m").dropLast = "shapes.A" := by decide +kernel
  have own : lastSegment '.' "shapes.A.m" ≠ Component.constructorName := by decide +kernel
  have keys : shapesRead.components.keys = ["shapes.A", "shapes.A.m", "shapes.B"] := by
    simpa [Function.comp_def, Table.keys] using congrArg (List.map (·.1)) read
  have known : "shapes.A.m" ∈ shapesRead.components.keys := by simp [keys]
  obtain ⟨c, hc⟩ := Catalog.exists_component (c := ⟨shapesRead.components⟩) known
  have entry := List.mem_map_of_mem (f := fun e => (e.1, e.2.id, e.2.kind)) (Table.mem_of_get? hc)
  obtain ⟨hid, hkind⟩ : c.id = "shapes.A.m" ∧ c.kind = .method := by simpa [read] using entry
  refine ⟨?_, by simp [keys, Extraction.workspace], known, by decide⟩
  rw [mem_linksOf]
  refine List.mem_filterMap.mpr ⟨c, List.mem_filterMap.mpr ⟨_, Catalog.mem_ids.mpr known, hc⟩, ?_⟩
  rw [Structure.ownerId, Structure.localName, hid, owner, if_pos ⟨hkind, own⟩]

theorem shapes_schedules_commute :
    let w := shapesRead.workspace shapesTree 64
    let after := (runSchedule ⟨true, true⟩ Strategy.all shapesFacts w forwards).value []
    let after' := (runSchedule ⟨false, false⟩ Strategy.all shapesFacts w backwards).value []
    Logged.value (gather shapesTree shapesOptions).run [] = .ok (shapesRead, shapesFacts) ∧
      (∀ s : Stage, .stage s ∈ forwards ↔ .stage s ∈ backwards) ∧
      after.catalog.Depends "shapes.A" "shapes.A.m" ∧
      SameDependencies after.catalog after'.catalog ∧
      ((Stage.calls.run ⟨true, true⟩ Strategy.all shapesFacts after).value []).2 = 0 := by
  intro w after after'
  have same : ∀ s : Stage, .stage s ∈ forwards ↔ .stage s ∈ backwards := by
    intro s
    cases s <;> decide
  obtain ⟨alike, again⟩ := schedules_commute w Strategy.all shapesFacts forwards backwards same
    ⟨true, true⟩ ⟨false, false⟩ [] []
  obtain ⟨_, adds⟩ := runSchedule_adds Strategy.all shapesFacts (.refl w) ⟨true, true⟩ forwards []
  refine ⟨gather_shapes, same, ?_, alike, (again .calls (by decide) ⟨true, true⟩ []).2⟩
  exact (adds _ _).mpr (Or.inr ⟨.methods, by decide, shapes_finds_method shapesFacts⟩)

end Analysis

end RepoAtlas
