import RepoAtlas.Proofs.Analysis
import RepoAtlas.Proofs.Origin.Catalogued
import RepoAtlas.Text.Alphabet

/-!
Reconciliation is exact. What a call-graph table adds to a catalog is a plain set of pairs: a caller
with each component in which one of its callees can be placed. In which order call sites and callees
are gone through, how often a pair turns up and by which strategy it was found leaves no trace, and
the counts are those of that set and of the callees that were left out.
-/
namespace RepoAtlas.Reconcile
open Text CallGraph

/-! Whatever a strategy finds is an id of the catalog. -/

theorem findId_has {c : Catalog} {path id : String} (h : findId c path = some id) :
    c.has id = true := by
  rw [findId] at h
  split at h
  · cases h
  · exact List.find?_some h

/-- Under a key stand the ids filed there before and those gone through with that key. -/
theorem mem_filed {es : List (String × String)} {index : SuffixIndex} {key id : String} :
    id ∈ ((es.foldl (fun index e =>
        index.insert e.1 ((index.get? e.1).getD [] ++ [e.2])) index).get? key).getD [] ↔
      id ∈ (index.get? key).getD [] ∨ (key, id) ∈ es := by
  induction es generalizing index with
  | nil => simp
  | cons e es ih =>
    rw [List.foldl_cons, ih, Table.get?_insert, List.mem_cons, Prod.ext_iff]
    by_cases same : key = e.1
    · simp [same, or_assoc]
    · simp [same]

/-- Every id is filed under exactly its keys. -/
theorem mem_bucket [Collator] {c : Catalog} {key id : String} :
    id ∈ ((SuffixIndex.ofCatalog c).get? key).getD [] ↔ c.has id = true ∧ key ∈ suffixKeys id := by
  rw [SuffixIndex.ofCatalog, mem_filed, Catalog.has_iff, ← Catalog.mem_ids]
  simp [Table.empty, Table.get?]

theorem mem_of_best {candidates : List (String × Nat)} {p : String × Nat}
    (h : Context.best candidates = some p) : p ∈ candidates := by
  refine (World.mem_of_foldl_pick ?_ h).resolve_left (by simp)
  intro best next
  cases best with
  | none => exact Or.inr rfl
  | some held =>
    by_cases more : Context.better next held = true
    · exact Or.inr (if_pos more)
    · exact Or.inl (if_neg more)

section
variable {k : Context} {callee target : String}

theorem bestOverlap_has [Collator] (hk : k.suffixes = .ofCatalog k.catalog) {parts : List String}
    (h : k.bestOverlap parts = some target) : k.catalog.has target = true := by
  obtain ⟨key, _, h⟩ := List.exists_of_findSome?_eq_some h
  obtain ⟨p, hp, rfl⟩ := Option.map_eq_some_iff.mp h
  obtain ⟨id, hid, rfl⟩ := List.mem_map.mp (mem_of_best hp)
  exact (mem_bucket.mp (hk ▸ hid)).1

theorem idOfOrigin_has {o : Origin} (h : k.idOfOrigin o = some target) :
    k.catalog.has target = true := by
  rcases Option.or_eq_some_iff.mp h with h | ⟨_, h⟩
  · exact findId_has h
  · exact findId_has h

theorem followKeys_has {keys : List String} (h : (k.followKeys keys).id = some target) :
    k.catalog.has target = true := by
  induction keys with
  | nil => cases h
  | cons key rest ih =>
    simp only [Context.followKeys] at h
    split at h
    · rename_i id hid
      obtain ⟨o, _, ho⟩ := Option.bind_eq_some_iff.mp hid
      cases h
      exact idOfOrigin_has ho
    · exact ih h

theorem matchResolverSeeded_has [Collator] (hk : k.suffixes = .ofCatalog k.catalog)
    (h : (k.matchResolverSeeded callee).id = some target) : k.catalog.has target = true := by
  simp only [Context.matchResolverSeeded] at h
  split at h
  · cases h
  · split at h
    · exact followKeys_has h
    · split at h
      · simp only at h
        exact bestOverlap_has hk h
      · exact followKeys_has h

theorem apply_has [Collator] (hk : k.suffixes = .ofCatalog k.catalog) {s : Strategy}
    (h : (k.apply callee s).id = some target) : k.catalog.has target = true := by
  cases s with
  | normalized =>
    simp only [Context.apply, Context.matchNormalized] at h
    exact findId_has h
  | rootPrefix =>
    simp only [Context.apply, Context.matchRootPrefix] at h
    split at h
    · exact findId_has h
    · exact findId_has h
  | callerPackage =>
    simp only [Context.apply, Context.matchCallerPackage] at h
    obtain ⟨_, _, h⟩ := List.exists_of_findSome?_eq_some h
    exact findId_has h
  | resolverSeeded =>
    simp only [Context.apply] at h
    exact matchResolverSeeded_has hk h

theorem place_has [Collator] (hk : k.suffixes = .ofCatalog k.catalog) {strategies : List Strategy}
    (h : (k.place callee strategies).id = some target) : k.catalog.has target = true := by
  induction strategies with
  | nil => cases h
  | cons s rest ih =>
    simp only [Context.place] at h
    split at h
    · exact apply_has hk h
    · exact ih h

end

/-! The calls that a table reports. -/

/-- The component that a call site is attributed to: the one that is reported under that key, or
else the one whose id the call site spells. -/
def caller? [Collator] (w : Workspace) (site : String) : Option Component :=
  (((callerIndex w.catalog).lookup site).or
    (findId w.catalog (withoutRoot w.index.rootPackage (normalizeSeparators site)))).bind
      w.catalog.get?

def callsMade [Collator] (w : Workspace) (facts : Facts) : List (Component × String) :=
  facts.flatMap fun f => (caller? w f.1).toList.flatMap fun c => f.2.map fun callee => (c, callee)

def placed [Collator] (w : Workspace) (c : Component) (callee : String) : Option String :=
  ((contextOf w c).place callee Strategy.all).id

/-- Some callee of the component that is not built in is placed in the target. -/
def Calls [Collator] (w : Workspace) (facts : Facts) (c : Component) (target : String) : Prop :=
  ∃ callee, (c, callee) ∈ callsMade w facts ∧ isBuiltin callee = false ∧
    placed w c callee = some target

variable {w : Workspace} {facts : Facts}

theorem callerOf_eq [Collator] (named : w.catalog.get? "" = none) (site : String) :
    callerOf w.catalog (callerIndex w.catalog) w.index.rootPackage site = caller? w site := by
  have drop : ∀ found : Option String,
      (found.filter fun id => id != "").bind w.catalog.get? = found.bind w.catalog.get? := by
    intro found
    cases found with
    | none => rfl
    | some id =>
      rw [Option.filter_some]
      by_cases h : id = ""
      · simp [h, named]
      · simp [h]
  rw [callerOf, caller?]
  simp only [drop]
  cases (callerIndex w.catalog).lookup site with
  | none => rw [Option.none_or]
  | some id => rw [Option.some_or]

def verdictsAt [Collator] (w : Workspace) (f : String × List String) : List Verdict :=
  (caller? w f.1).elim [.unknownCaller] fun c => f.2.map (judge (contextOf w c) Strategy.all)

theorem verdicts_perm [Collator] (named : w.catalog.get? "" = none) (facts : Facts) :
    (verdicts w Strategy.all facts).Perm (facts.flatMap (verdictsAt w)) := by
  have entry : verdicts w Strategy.all facts = (sortFacts facts).flatMap (verdictsAt w) := by
    refine congrArg (fun g => (sortFacts facts).flatMap g) (funext fun f => ?_)
    obtain ⟨site, callees⟩ := f
    simp only [verdictsAt, callerOf_eq named]
    cases caller? w site with
    | none => rfl
    | some c => rfl
  rw [entry]
  exact (Collation.sortBy_perm _ facts).flatMap_right _

theorem judge_resolved_iff {k : Context} {callee x t : String} {opened : List String} :
    judge k Strategy.all callee = .resolved x t opened ↔
      isBuiltin callee = false ∧ x = k.caller.id ∧ (k.place callee Strategy.all).id = some t ∧
        opened = (k.place callee Strategy.all).opened := by
  rw [judge]
  by_cases builtin : isBuiltin callee = true
  · simp [builtin]
  · simp only [builtin, Bool.false_eq_true, ↓reduceIte, true_and]
    cases (k.place callee Strategy.all).id with
    | none => simp
    | some target => simp [eq_comm]

theorem mem_linksOf {events : List Event} {x t : String} :
    (x, t) ∈ linksOf events ↔ Event.linked x t ∈ events := by
  rw [linksOf, List.mem_filterMap]
  constructor
  · rintro ⟨e, he, heq⟩
    cases e with
    | linked source target =>
      cases heq
      exact he
    | opened file => cases heq
    | noted message => cases heq
  · exact fun h => ⟨_, h, rfl⟩

theorem linked_mem_events {v : Verdict} {x t : String} :
    Event.linked x t ∈ v.events ↔ ∃ opened, v = .resolved x t opened := by
  cases v <;> simp [Verdict.events, openings, eq_comm, and_comm]

/-- The dependencies that the facts give are the calls. -/
theorem mem_links [Collator] (named : w.catalog.get? "" = none) {x t : String} :
    (x, t) ∈ linksOf ((verdicts w Strategy.all facts).flatMap Verdict.events) ↔
      ∃ c, c.id = x ∧ Calls w facts c t := by
  simp only [mem_linksOf, List.mem_flatMap, linked_mem_events, (verdicts_perm named facts).mem_iff]
  constructor
  · rintro ⟨v, ⟨f, hf, hv⟩, opened, rfl⟩
    rw [verdictsAt] at hv
    cases hc : caller? w f.1 with
    | none => simp [hc] at hv
    | some c =>
      rw [hc] at hv
      obtain ⟨callee, hcallee, hv⟩ := List.mem_map.mp hv
      obtain ⟨builtin, rfl, hplace, _⟩ := judge_resolved_iff.mp hv
      refine ⟨c, rfl, callee, ?_, builtin, hplace⟩
      refine List.mem_flatMap.mpr ⟨f, hf, ?_⟩
      simp [hc, hcallee]
  · rintro ⟨c, rfl, callee, hmade, builtin, hplace⟩
    obtain ⟨f, hf, hmade⟩ := List.mem_flatMap.mp hmade
    obtain ⟨c', hc', hmade⟩ := List.mem_flatMap.mp hmade
    obtain ⟨_, hcallee, heq⟩ := List.mem_map.mp hmade
    obtain ⟨rfl, rfl⟩ := Prod.mk.inj heq
    refine ⟨_, ⟨f, hf, ?_⟩, _, judge_resolved_iff.mpr ⟨builtin, rfl, hplace, rfl⟩⟩
    rw [verdictsAt, Option.mem_toList.mp hc']
    exact List.mem_map.mpr ⟨_, hcallee, rfl⟩

/-- Counting verdicts on callees is counting calls. -/
theorem countP_verdicts [Collator] {p : Verdict → Bool} {q : Component × String → Bool}
    (unknown : p .unknownCaller = false)
    (judged : ∀ c callee, p (judge (contextOf w c) Strategy.all callee) = q (c, callee)) :
    (facts.flatMap (verdictsAt w)).countP p = (callsMade w facts).countP q := by
  induction facts with
  | nil => rfl
  | cons f facts ih =>
    have here : (verdictsAt w f).countP p =
        ((caller? w f.1).toList.flatMap fun c => f.2.map fun callee => (c, callee)).countP q := by
      rw [verdictsAt]
      cases caller? w f.1 with
      | none => simp [unknown]
      | some c => simp [List.countP_map, Function.comp_def, judged]
    simp only [callsMade, List.flatMap_cons, List.countP_append] at ih ⊢
    rw [here, ih]

theorem countP_unknown [Collator] :
    ((facts.flatMap (verdictsAt w)).countP fun v => v == .unknownCaller) =
      facts.countP fun f => (caller? w f.1).isNone := by
  induction facts with
  | nil => rfl
  | cons f facts ih =>
    have here : ((verdictsAt w f).countP fun v => v == .unknownCaller) =
        if (caller? w f.1).isNone = true then 1 else 0 := by
      rw [verdictsAt]
      cases caller? w f.1 with
      | none => rfl
      | some c =>
        refine List.countP_eq_zero.mpr fun v hv => ?_
        obtain ⟨callee, _, rfl⟩ := List.mem_map.mp hv
        rw [judge]
        split
        · simp
        · simp only
          split <;> simp
    rw [List.flatMap_cons, List.countP_append, here, ih, List.countP_cons, Nat.add_comm]

theorem Calls.caller [Collator] {c : Component} {t : String} (linked : w.catalog.WellLinked)
    (h : Calls w facts c t) : w.catalog.get? c.id = some c := by
  obtain ⟨_, h, _⟩ := h
  obtain ⟨f, _, h⟩ := List.mem_flatMap.mp h
  obtain ⟨c', hc', h⟩ := List.mem_flatMap.mp h
  obtain ⟨_, _, heq⟩ := List.mem_map.mp h
  obtain ⟨rfl, _⟩ := Prod.mk.inj heq
  obtain ⟨id, _, hid⟩ := Option.bind_eq_some_iff.mp (Option.mem_toList.mp hc')
  rwa [linked.id_eq id c' (linked.get?_iff.mp hid)]

theorem Calls.known [Collator] {c : Component} {t : String} (h : Calls w facts c t) :
    w.catalog.has t = true := by
  obtain ⟨callee, _, _, hplace⟩ := h
  exact place_has (k := contextOf w c) rfl hplace

/-- What reconciliation promises: the calls are added to the dependencies, nothing else happens, and
the counts are right. -/
structure Exact [Collator] (w : Workspace) (facts : Facts) (after : Catalog) (stats : Stats) :
    Prop where
  outline : after.outline = w.catalog.outline
  dependsOn : ∀ id c, w.catalog.get? id = some c → ∃ c', after.get? id = some c' ∧
    ∀ t, t ∈ c'.dependsOn ↔ t ∈ c.dependsOn ∨ (t ≠ c.id ∧ Calls w facts c t)
  known : ∀ c t, Calls w facts c t → w.catalog.has t = true
  callSites : stats.callSites = facts.length
  unknownCallSites : stats.unknownCallSites = facts.countP fun f => (caller? w f.1).isNone
  linked : {p : Component × String | Calls w facts p.1 p.2 ∧ p.2 ≠ p.1.id ∧
    p.2 ∉ p.1.dependsOn}.encard = stats.linked
  skippedBuiltins : stats.skippedBuiltins = (callsMade w facts).countP fun p => isBuiltin p.2
  unresolved : stats.unresolved =
    (callsMade w facts).countP fun p => !isBuiltin p.2 && (placed w p.1 p.2).isNone

/-- New pairs of ids are new pairs of a caller and a target. -/
theorem encard_new [Collator] (linked : w.catalog.WellLinked) (named : w.catalog.get? "" = none) :
    {p : Component × String | Calls w facts p.1 p.2 ∧ p.2 ≠ p.1.id ∧ p.2 ∉ p.1.dependsOn}.encard =
      w.catalog.countNew (linksOf ((verdicts w Strategy.all facts).flatMap Verdict.events)) := by
  have distinct : Set.InjOn (fun p : Component × String => (p.1.id, p.2))
      {p | Calls w facts p.1 p.2 ∧ p.2 ≠ p.1.id ∧ p.2 ∉ p.1.dependsOn} := by
    rintro ⟨c, t⟩ ⟨calls, _⟩ ⟨c', t'⟩ ⟨calls', _⟩ heq
    obtain ⟨hid, ht⟩ := Prod.mk.inj heq
    have same := calls.caller linked
    rw [hid, calls'.caller linked, Option.some.injEq] at same
    exact Prod.ext same.symm ht
  rw [← Catalog.encard_accepted, ← distinct.encard_image]
  congr 1
  ext ⟨x, t⟩
  simp only [Set.mem_image, Set.mem_ofPred_eq, Prod.exists, Prod.mk.injEq, mem_links named,
    Catalog.accepts_iff_depends]
  constructor
  · rintro ⟨c, t, ⟨calls, hne, hnew⟩, rfl, rfl⟩
    have hget := calls.caller linked
    refine ⟨⟨c, rfl, calls⟩, ?_, Catalog.has_iff.mp calls.known, Ne.symm hne, ?_⟩
    · exact Table.mem_keys_of_mem (linked.get?_iff.mp hget)
    · rwa [Catalog.depends_iff_mem hget]
  · rintro ⟨⟨c, rfl, calls⟩, _, _, hne, hnew⟩
    rw [Catalog.depends_iff_mem (calls.caller linked)] at hnew
    exact ⟨c, t, ⟨calls, Ne.symm hne, hnew⟩, rfl, rfl⟩

/-- With the links of the facts added, a component depends on what it called as well. -/
theorem dependsOn_after [Collator] (linked : w.catalog.WellLinked)
    (named : w.catalog.get? "" = none) {id : String} {c c' : Component}
    (hc : w.catalog.get? id = some c)
    (hc' : (w.catalog.addAll
      (linksOf ((verdicts w Strategy.all facts).flatMap Verdict.events))).get? id = some c')
    (t : String) :
    t ∈ c'.dependsOn ↔ t ∈ c.dependsOn ∨ (t ≠ c.id ∧ Calls w facts c t) := by
  have hkey : id ∈ w.catalog.components.keys := Table.mem_keys_of_mem (linked.get?_iff.mp hc)
  have hid : c.id = id := linked.id_eq id c (linked.get?_iff.mp hc)
  rw [← Catalog.depends_iff_mem hc', Catalog.depends_addAll, Catalog.depends_iff_mem hc,
    mem_links named]
  refine or_congr_right ⟨?_, ?_⟩
  · rintro ⟨⟨d, hd, calls⟩, _, _, hne⟩
    have same := calls.caller linked
    rw [hd, hc, Option.some.injEq] at same
    subst same
    exact ⟨hid ▸ Ne.symm hne, calls⟩
  · rintro ⟨hne, calls⟩
    exact ⟨⟨c, hid, calls⟩, hkey, Catalog.has_iff.mp calls.known, hid ▸ Ne.symm hne⟩

theorem run_exact [Collator] (linked : w.catalog.WellLinked) (named : w.catalog.get? "" = none)
    (r : Reporting) (log : List Log.Entry) :
    Exact w facts ((run r w Strategy.all facts).value log).1.catalog
      ((run r w Strategy.all facts).value log).2 := by
  have catalog : ((run r w Strategy.all facts).value log).1.catalog =
      w.catalog.addAll (linksOf ((verdicts w Strategy.all facts).flatMap Verdict.events)) :=
    w.performAll_catalog r _ log
  have perm := verdicts_perm named facts
  have outline := Catalog.addAll_outline linked
    (linksOf ((verdicts w Strategy.all facts).flatMap Verdict.events))
  refine ⟨catalog ▸ outline, ?_, fun c t calls => calls.known, rfl, ?_, ?_, ?_, ?_⟩
  · intro id c hc
    have hkey : id ∈ w.catalog.components.keys := Table.mem_keys_of_mem (linked.get?_iff.mp hc)
    obtain ⟨c', hc'⟩ := Catalog.exists_component ((Catalog.keys_eq_of_outline outline).symm ▸ hkey)
    exact ⟨c', catalog ▸ hc', dependsOn_after linked named hc hc'⟩
  · exact (perm.countP_eq _).trans countP_unknown
  · exact encard_new linked named
  · refine (perm.countP_eq _).trans (countP_verdicts rfl fun c callee => ?_)
    rw [judge]
    by_cases builtin : isBuiltin callee = true
    · simp [builtin]
    · simp only [builtin, Bool.false_eq_true, ↓reduceIte]
      split <;> simp
  · refine (perm.countP_eq _).trans (countP_verdicts rfl fun c callee => ?_)
    rw [judge, placed]
    by_cases builtin : isBuiltin callee = true
    · simp [builtin, Verdict.isUnresolved]
    · simp only [builtin, Bool.false_eq_true, ↓reduceIte]
      cases ((contextOf w c).place callee Strategy.all).id <;> rfl

/-- On a catalog as extraction leaves it, whatever dependencies were recorded since, reconciliation
with any table of facts is exact. -/
theorem reconciliation_exact [Collator] (tree : FileTree) (rootDir : String) (files : List String)
    (lanes : Float) (verbose : Bool) (before : List Log.Entry) (e : Extraction)
    (extracted : (Extraction.run tree rootDir files lanes verbose).value before = .ok e)
    (earlier : List (String × String)) (w : Workspace)
    (recorded : w.catalog = Catalog.addAll ⟨e.components⟩ earlier) (r : Reporting) (facts : Facts)
    (log : List Log.Entry) :
    Exact w facts ((run r w Strategy.all facts).value log).1.catalog
      ((run r w Strategy.all facts).value log).2 := by
  have fresh : Catalog.WellLinked ⟨e.components⟩ := (Extraction.run_unlinked extracted).wellLinked
  apply run_exact
  · exact recorded ▸ Catalog.addAll_wellLinked fresh earlier
  · obtain ⟨index, paths, rfl⟩ := Extraction.run_gathered extracted
    rw [Catalog.get?, Table.get?_eq_none_iff, recorded, Catalog.addAll_keys]
    exact Table.get?_eq_none_iff.mp (Extraction.gathered_named tree index paths)

open scoped Text.Alphabet

def aliasFacts : Facts :=
  [("b.C.m", ["b.C", "<builtin>.print", "nowhere", "b.C.m"]), ("outside", ["b.C"])]

theorem alias_reconciliation_exact :
    (Extraction.run aliasTree "/r" ["a.py", "b.py"] 4 false).value [] = .ok aliasExtraction ∧
    (aliasExtraction.workspace aliasTree 64).catalog =
      Catalog.addAll ⟨aliasExtraction.components⟩ [] ∧
    Exact (aliasExtraction.workspace aliasTree 64) aliasFacts
      ((run ⟨true, true⟩ (aliasExtraction.workspace aliasTree 64) Strategy.all aliasFacts).value
        []).1.catalog
      ((run ⟨true, true⟩ (aliasExtraction.workspace aliasTree 64) Strategy.all aliasFacts).value
        []).2 := by
  have lanes : Number.toPositive? 4 = some 4 := by decide +kernel
  have extracted : (Extraction.run aliasTree "/r" ["a.py", "b.py"] 4 false).value [] =
      .ok aliasExtraction := Extraction.run_of_lanes lanes ..
  exact ⟨extracted, rfl, reconciliation_exact aliasTree "/r" ["a.py", "b.py"] 4 false
    [] aliasExtraction extracted [] _ rfl ⟨true, true⟩ aliasFacts []⟩

end RepoAtlas.Reconcile
