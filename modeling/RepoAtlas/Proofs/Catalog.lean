import Mathlib.Data.Set.Card
import RepoAtlas.Catalog
import RepoAtlas.Proofs.Graph.Reach
import RepoAtlas.Proofs.Table
import RepoAtlas.Proofs.Text.Collation

/-!
What recording dependencies does to a catalog. A dependency is recorded only between two distinct
known components and only once, so the links of a catalog stay a simple graph on its ids; nothing
else about a component changes. Users are the other end of links, once they are worked out.
-/
namespace RepoAtlas

def Component.unlinked (s : Component) : Component := { s with dependsOn := [], usedBy := [] }

namespace Catalog
open Text

def outline (c : Catalog) : List (String × Component) :=
  c.components.entries.map fun e => (e.1, e.2.unlinked)

def links (c : Catalog) : List (String × String) :=
  c.components.entries.flatMap fun e => e.2.dependsOn.map fun target => (e.1, target)

/-- Ids are those of the components below them, and links join distinct ids, each pair once. -/
structure WellLinked (c : Catalog) : Prop where
  keys_nodup : c.components.keys.Nodup
  id_eq : ∀ k s, (k, s) ∈ c.components.entries → s.id = k
  nodup : ∀ k s, (k, s) ∈ c.components.entries → s.dependsOn.Nodup
  known : ∀ k s, (k, s) ∈ c.components.entries → ∀ y ∈ s.dependsOn, y ∈ c.components.keys
  irreflexive : ∀ k s, (k, s) ∈ c.components.entries → k ∉ s.dependsOn

/-- What the maintained sets promise: targets are known and distinct from their source, and users
are exactly the other ends. -/
structure Consistent (c : Catalog) : Prop where
  known : ∀ x s, c.get? x = some s → ∀ y ∈ s.dependsOn, c.has y = true
  irreflexive : ∀ x s, c.get? x = some s → x ∉ s.dependsOn
  inverse : ∀ x s y t, c.get? x = some s → c.get? y = some t →
    (y ∈ s.dependsOn ↔ x ∈ t.usedBy)
  users_known : ∀ y t, c.get? y = some t → ∀ x ∈ t.usedBy, c.has x = true

theorem has_iff {c : Catalog} {x : String} : c.has x = true ↔ x ∈ c.components.keys :=
  Table.contains_iff

theorem WellLinked.get?_iff {c : Catalog} (h : c.WellLinked) {x : String} {s : Component} :
    c.get? x = some s ↔ (x, s) ∈ c.components.entries := Table.get?_eq_some_iff h.keys_nodup

theorem accepts_iff {c : Catalog} {x y : String} : c.accepts x y = true ↔
    ∃ s, c.get? x = some s ∧ x ≠ y ∧ y ∈ c.components.keys ∧ y ∉ s.dependsOn := by
  rw [accepts, ← has_iff]
  cases c.get? x with
  | none => simp
  | some s => simp [and_assoc]

/-- Either nothing changes, or exactly one entry gets exactly one new target. -/
theorem addDependency_cases {c : Catalog} (hn : c.components.keys.Nodup) (x y : String) :
    (c.accepts x y = false ∧ c.addDependency x y = c) ∨
    (c.accepts x y = true ∧ ∃ s before after, c.components.entries = before ++ (x, s) :: after ∧
      x ≠ y ∧ y ∈ c.components.keys ∧ y ∉ s.dependsOn ∧
      (c.addDependency x y).components.entries =
        before ++ (x, { s with dependsOn := s.dependsOn ++ [y] }) :: after) := by
  cases ha : c.accepts x y with
  | false => exact Or.inl ⟨rfl, by simp [addDependency, ha]⟩
  | true =>
    obtain ⟨s, hs, hne, hy, hnew⟩ := accepts_iff.mp ha
    obtain ⟨before, after, he, hb, hf⟩ := Table.split_of_get? hn hs
    refine Or.inr ⟨rfl, s, before, after, he, hne, hy, hnew, ?_⟩
    rw [addDependency, if_pos ha]
    exact Table.modify_of_split he hb hf _

theorem addDependency_outline {c : Catalog} (hn : c.components.keys.Nodup) (x y : String) :
    (c.addDependency x y).outline = c.outline := by
  rcases addDependency_cases hn x y with ⟨_, he⟩ | ⟨_, s, before, after, he, _, _, _, he'⟩
  · rw [he]
  · simp [outline, he, he', Component.unlinked]

theorem keys_eq_of_outline {c d : Catalog} (h : c.outline = d.outline) :
    c.components.keys = d.components.keys := by
  have := congrArg (List.map (·.1)) h
  simpa [outline, Table.keys, Function.comp_def] using this

theorem addDependency_length_links {c : Catalog} (hn : c.components.keys.Nodup) (x y : String) :
    (c.addDependency x y).links.length = c.links.length + if c.accepts x y then 1 else 0 := by
  rcases addDependency_cases hn x y with ⟨ha, he⟩ | ⟨ha, s, before, after, he, _, _, _, he'⟩
  · simp [ha, he]
  · simp only [links, he, he', ha, List.flatMap_append, List.flatMap_cons, List.length_append,
      List.length_map, List.length_singleton, ↓reduceIte]
    omega

theorem addDependency_wellLinked {c : Catalog} (h : c.WellLinked) (x y : String) :
    (c.addDependency x y).WellLinked := by
  have keys := keys_eq_of_outline (addDependency_outline h.keys_nodup x y)
  rcases addDependency_cases h.keys_nodup x y with
    ⟨_, he⟩ | ⟨_, s, before, after, he, hne, hy, hnew, he'⟩
  · rw [he]
    exact h
  · have hs : (x, s) ∈ c.components.entries := by simp [he]
    -- an entry is as it was, or it is the one that got a new target
    have old : ∀ k t, (k, t) ∈ (c.addDependency x y).components.entries →
        (k, t) ∈ c.components.entries ∨
          (k = x ∧ t = { s with dependsOn := s.dependsOn ++ [y] }) := by
      intro k t ht
      rw [he'] at ht
      rw [he]
      simp only [List.mem_append, List.mem_cons, Prod.mk.injEq] at ht ⊢
      tauto
    constructor
    · rw [keys]
      exact h.keys_nodup
    · intro k t ht
      rcases old k t ht with ht | ⟨rfl, rfl⟩
      · exact h.id_eq k t ht
      · exact h.id_eq k s hs
    · intro k t ht
      rcases old k t ht with ht | ⟨rfl, rfl⟩
      · exact h.nodup k t ht
      · simpa using List.Nodup.concat hnew (h.nodup k s hs)
    · intro k t ht z hz
      rw [keys]
      rcases old k t ht with ht | ⟨rfl, rfl⟩
      · exact h.known k t ht z hz
      · rcases List.mem_append.mp hz with hz | hz
        · exact h.known k s hs z hz
        · exact List.mem_singleton.mp hz ▸ hy
    · intro k t ht hk
      rcases old k t ht with ht | ⟨rfl, rfl⟩
      · exact h.irreflexive k t ht hk
      · rcases List.mem_append.mp hk with hk | hk
        · exact h.irreflexive k s hs hk
        · exact hne (List.mem_singleton.mp hk)

/-! Recording a list of dependencies, step by step. -/

theorem addAll_cons (c : Catalog) (e : String × String) (rest : List (String × String)) :
    c.addAll (e :: rest) = (c.addDependency e.1 e.2).addAll rest := rfl

theorem addAll_wellLinked {c : Catalog} (h : c.WellLinked) (links : List (String × String)) :
    (c.addAll links).WellLinked := by
  induction links generalizing c with
  | nil => exact h
  | cons e rest ih => exact ih (addDependency_wellLinked h e.1 e.2)

theorem addAll_outline {c : Catalog} (h : c.WellLinked) (links : List (String × String)) :
    (c.addAll links).outline = c.outline := by
  induction links generalizing c with
  | nil => rfl
  | cons e rest ih =>
    rw [addAll_cons, ih (addDependency_wellLinked h e.1 e.2)]
    exact addDependency_outline h.keys_nodup e.1 e.2

/-- The count of new dependencies is by how much the links grow. -/
theorem addAll_length_links {c : Catalog} (h : c.WellLinked) (links : List (String × String)) :
    (c.addAll links).links.length = c.links.length + c.countNew links := by
  induction links generalizing c with
  | nil => rfl
  | cons e rest ih =>
    rw [addAll_cons, ih (addDependency_wellLinked h e.1 e.2), countNew,
      addDependency_length_links h.keys_nodup]
    omega

/-! Which ids depend on which. -/

def Depends (c : Catalog) (x y : String) : Prop := ∃ s, c.get? x = some s ∧ y ∈ s.dependsOn

theorem accepts_iff_depends {c : Catalog} {x y : String} : c.accepts x y = true ↔
    x ∈ c.components.keys ∧ y ∈ c.components.keys ∧ x ≠ y ∧ ¬ c.Depends x y := by
  rw [accepts_iff]
  constructor
  · rintro ⟨s, hs, hne, hy, hnew⟩
    refine ⟨has_iff.mp (Option.isSome_iff_exists.mpr ⟨s, hs⟩), hy, hne, ?_⟩
    rintro ⟨s', hs', hold⟩
    obtain rfl : s = s' := Option.some.inj (hs.symm.trans hs')
    exact hnew hold
  · rintro ⟨hx, hy, hne, hnew⟩
    obtain ⟨s, hs⟩ := Option.isSome_iff_exists.mp (has_iff.mpr hx)
    exact ⟨s, hs, hne, hy, fun hold => hnew ⟨s, hs, hold⟩⟩

theorem addDependency_keys (c : Catalog) (x y : String) :
    (c.addDependency x y).components.keys = c.components.keys := by
  rw [addDependency]
  split
  · exact Table.keys_modify ..
  · rfl

theorem addAll_keys (c : Catalog) (links : List (String × String)) :
    (c.addAll links).components.keys = c.components.keys := by
  induction links generalizing c with
  | nil => rfl
  | cons e rest ih => rw [addAll_cons, ih, addDependency_keys]

theorem depends_addDependency {c : Catalog} {x y a b : String} :
    (c.addDependency x y).Depends a b ↔
      c.Depends a b ∨ (c.accepts x y = true ∧ a = x ∧ b = y) := by
  rw [addDependency]
  by_cases ha : c.accepts x y = true
  · rw [if_pos ha]
    simp only [Depends, get?, Table.get?_modify, Option.map_eq_some_iff, ha, true_and]
    by_cases hax : a = x
    · subst hax
      obtain ⟨s, hs, _⟩ := accepts_iff.mp ha
      simp only [get?] at hs
      simp [hs]
    · simp [hax]
  · simp [ha]

theorem depends_addAll {c : Catalog} {links : List (String × String)} {a b : String} :
    (c.addAll links).Depends a b ↔ c.Depends a b ∨
      ((a, b) ∈ links ∧ a ∈ c.components.keys ∧ b ∈ c.components.keys ∧ a ≠ b) := by
  induction links generalizing c with
  | nil => simp [addAll]
  | cons e rest ih =>
    obtain ⟨x, y⟩ := e
    rw [addAll_cons, ih, depends_addDependency, addDependency_keys, accepts_iff_depends,
      List.mem_cons, Prod.mk.injEq]
    -- a pair that is refused although its ends are known and differ is there already
    by_cases there : c.Depends a b
    · simp [there]
    · by_cases here : a = x ∧ b = y
      · obtain ⟨rfl, rfl⟩ := here
        tauto
      · simp [there, here]

/-- The count of new dependencies is the number of pairs that are new at the outset. -/
theorem encard_accepted (c : Catalog) (links : List (String × String)) :
    {e | e ∈ links ∧ c.accepts e.1 e.2 = true}.encard = c.countNew links := by
  induction links generalizing c with
  | nil => simp [countNew]
  | cons e rest ih =>
    by_cases ha : c.accepts e.1 e.2 = true
    · have rest' : {e' | e' ∈ e :: rest ∧ c.accepts e'.1 e'.2 = true} = insert e
          {e' | e' ∈ rest ∧ (c.addDependency e.1 e.2).accepts e'.1 e'.2 = true} := by
        ext e'
        simp only [Set.mem_ofPred_eq, Set.mem_insert_iff, List.mem_cons, accepts_iff_depends,
          addDependency_keys, depends_addDependency]
        by_cases heq : e' = e
        · subst heq
          simp [accepts_iff_depends.mp ha]
        · have other : ¬ (e'.1 = e.1 ∧ e'.2 = e.2) := fun h => heq (Prod.ext h.1 h.2)
          tauto
      have fresh : e ∉ {e' | e' ∈ rest ∧ (c.addDependency e.1 e.2).accepts e'.1 e'.2 = true} := by
        rintro ⟨_, again⟩
        exact (accepts_iff_depends.mp again).2.2.2
          (depends_addDependency.mpr (Or.inr ⟨ha, rfl, rfl⟩))
      rw [rest', Set.encard_insert_of_notMem fresh, ih, countNew, if_pos ha, Nat.cast_add, add_comm]
      rfl
    · have same : c.addDependency e.1 e.2 = c := if_neg ha
      have rest' : {e' | e' ∈ e :: rest ∧ c.accepts e'.1 e'.2 = true} =
          {e' | e' ∈ rest ∧ c.accepts e'.1 e'.2 = true} := by
        ext e'
        simp only [Set.mem_ofPred_eq, List.mem_cons]
        constructor
        · rintro ⟨rfl | hm, h⟩
          · exact absurd h ha
          · exact ⟨hm, h⟩
        · rintro ⟨hm, h⟩
          exact ⟨Or.inr hm, h⟩
      rw [rest', ih, countNew, if_neg ha, same, Nat.zero_add]

/-! Working out users. -/

theorem get?_rebuildUsedBy (c : Catalog) (x : String) :
    c.rebuildUsedBy.get? x = (c.get? x).map fun s => { s with usedBy := c.usersOf x } :=
  Table.get?_map_entries c.components.entries
    (fun k s => ({ s with usedBy := c.usersOf k } : Component)) x

theorem rebuildUsedBy_outline (c : Catalog) : c.rebuildUsedBy.outline = c.outline := by
  simp [outline, rebuildUsedBy, Component.unlinked]

theorem rebuildUsedBy_links (c : Catalog) : c.rebuildUsedBy.links = c.links := by
  simp [links, rebuildUsedBy, List.flatMap_map]

theorem rebuildUsedBy_wellLinked {c : Catalog} (h : c.WellLinked) : c.rebuildUsedBy.WellLinked := by
  have keys := keys_eq_of_outline c.rebuildUsedBy_outline
  have old : ∀ k t, (k, t) ∈ c.rebuildUsedBy.components.entries →
      ∃ s, (k, s) ∈ c.components.entries ∧ t = { s with usedBy := c.usersOf k } := by
    intro k t ht
    obtain ⟨⟨k', s⟩, hs, heq⟩ := List.mem_map.mp ht
    obtain ⟨rfl, rfl⟩ := Prod.mk.inj heq
    exact ⟨s, hs, rfl⟩
  constructor
  · rw [keys]
    exact h.keys_nodup
  · intro k t ht
    obtain ⟨s, hs, rfl⟩ := old k t ht
    exact h.id_eq k s hs
  · intro k t ht
    obtain ⟨s, hs, rfl⟩ := old k t ht
    exact h.nodup k s hs
  · intro k t ht y hy
    rw [keys]
    obtain ⟨s, hs, rfl⟩ := old k t ht
    exact h.known k s hs y hy
  · intro k t ht
    obtain ⟨s, hs, rfl⟩ := old k t ht
    exact h.irreflexive k s hs

theorem mem_usersOf {c : Catalog} (h : c.WellLinked) {x y : String} :
    x ∈ c.usersOf y ↔ ∃ s, c.get? x = some s ∧ y ∈ s.dependsOn := by
  simp only [usersOf, Table.values, List.mem_map, List.mem_filter, List.contains_iff_mem]
  constructor
  · rintro ⟨s, ⟨⟨⟨k, t⟩, he, rfl⟩, hy⟩, rfl⟩
    exact ⟨t, h.get?_iff.mpr (h.id_eq k t he ▸ he), hy⟩
  · rintro ⟨s, hs, hy⟩
    have he := h.get?_iff.mp hs
    exact ⟨s, ⟨⟨(x, s), he, rfl⟩, hy⟩, h.id_eq x s he⟩

theorem rebuildUsedBy_consistent {c : Catalog} (h : c.WellLinked) : c.rebuildUsedBy.Consistent := by
  have keys := keys_eq_of_outline c.rebuildUsedBy_outline
  have old : ∀ x s, c.rebuildUsedBy.get? x = some s →
      ∃ t, c.get? x = some t ∧ s = { t with usedBy := c.usersOf x } := by
    intro x s hs
    rw [get?_rebuildUsedBy] at hs
    obtain ⟨t, ht, rfl⟩ := Option.map_eq_some_iff.mp hs
    exact ⟨t, ht, rfl⟩
  constructor
  · intro x s hs y hy
    obtain ⟨t, ht, rfl⟩ := old x s hs
    rw [has_iff, keys]
    exact h.known x t (h.get?_iff.mp ht) y hy
  · intro x s hs
    obtain ⟨t, ht, rfl⟩ := old x s hs
    exact h.irreflexive x t (h.get?_iff.mp ht)
  · intro x s y t hs ht
    obtain ⟨s', hs', rfl⟩ := old x s hs
    obtain ⟨t', _, rfl⟩ := old y t ht
    simp [mem_usersOf h, hs']
  · intro y t ht x hx
    obtain ⟨t, ht, rfl⟩ := old y t ht
    obtain ⟨s, hs, _⟩ := (mem_usersOf h).mp hx
    rw [has_iff, keys]
    exact Table.mem_keys_of_mem (h.get?_iff.mp hs)

/-! The graph of a catalog. -/

theorem mem_ids [Collator] {c : Catalog} {x : String} : x ∈ c.ids ↔ x ∈ c.components.keys :=
  Collation.mem_sort

theorem exists_component {c : Catalog} {x : String} (hx : x ∈ c.components.keys) :
    ∃ s, c.get? x = some s := Option.isSome_iff_exists.mp (Table.contains_iff.mpr hx)

theorem mem_values [Collator] {c : Catalog} (h : c.WellLinked) {s : Component} :
    s ∈ c.values ↔ c.get? s.id = some s := by
  simp only [values, List.mem_filterMap]
  constructor
  · rintro ⟨k, _, hs⟩
    rwa [h.id_eq k s (h.get?_iff.mp hs)]
  · intro hs
    exact ⟨s.id, mem_ids.mpr (Table.mem_keys_of_mem (h.get?_iff.mp hs)), hs⟩

theorem map_id_values [Collator] {c : Catalog} (h : c.WellLinked) :
    c.values.map (·.id) = c.ids := by
  have known : ∀ xs : List String, (∀ x ∈ xs, x ∈ c.components.keys) →
      (xs.filterMap c.get?).map (·.id) = xs := by
    intro xs hxs
    induction xs with
    | nil => rfl
    | cons x xs ih =>
      obtain ⟨s, hs⟩ := exists_component (hxs x (List.mem_cons_self ..))
      have hid := h.id_eq x s (h.get?_iff.mp hs)
      simp [hs, hid, ih fun y hy => hxs y (List.mem_cons_of_mem _ hy)]
  exact known c.ids fun x hx => mem_ids.mp hx

theorem ids_nodup [Collator] {c : Catalog} (h : c.WellLinked) : c.ids.Nodup :=
  (Collation.sort_perm _).nodup_iff.mpr h.keys_nodup

theorem graph_nodes [Collator] {c : Catalog} (h : c.WellLinked) : c.graph.nodes = c.ids := by
  change (c.values.map (·.id)).foldl Digraph.addNew [] = c.ids
  rw [map_id_values h, Digraph.foldl_addNew_of_nodup (by simpa using ids_nodup h), List.nil_append]

theorem graph_edge_iff [Collator] {c : Catalog} (h : c.WellLinked) {x y : String} :
    c.graph.Edge x y ↔ ∃ s, c.get? x = some s ∧ y ∈ s.dependsOn := by
  simp only [graph, Digraph.ofLists, Digraph.Edge, Digraph.mem_foldl_addNew, List.not_mem_nil,
    false_or, List.mem_flatMap, List.mem_map, List.mem_filter, Component.sortedDependsOn,
    Collation.mem_sort, Prod.mk.injEq, mem_values h]
  constructor
  · rintro ⟨s, hs, z, ⟨hz, _⟩, rfl, rfl⟩
    exact ⟨s, hs, hz⟩
  · rintro ⟨s, hs, hy⟩
    have he := h.get?_iff.mp hs
    have hid := h.id_eq x s he
    exact ⟨s, hid ▸ hs, y, ⟨hy, has_iff.mpr (h.known x s he y hy)⟩, hid, rfl⟩

theorem graph_wellFormed [Collator] {c : Catalog} (h : c.WellLinked) : c.graph.WellFormed where
  nodes_nodup := graph_nodes h ▸ ids_nodup h
  edges_nodup := Digraph.nodup_foldl_addNew .nil
  ends := by
    intro x y he
    obtain ⟨s, hs, hy⟩ := (graph_edge_iff h).mp he
    have hm := h.get?_iff.mp hs
    rw [graph_nodes h]
    exact ⟨mem_ids.mpr (Table.mem_keys_of_mem hm), mem_ids.mpr (h.known x s hm y hy)⟩

theorem links_nodup {c : Catalog} (h : c.WellLinked) : c.links.Nodup := by
  refine List.nodup_flatMap.mpr ⟨?_, ?_⟩
  · rintro ⟨k, s⟩ he
    exact (h.nodup k s he).map fun _ _ heq => (Prod.mk.inj heq).2
  · refine (List.pairwise_map.mp h.keys_nodup).imp ?_
    intro e e' hne p hp hp'
    obtain ⟨_, _, rfl⟩ := List.mem_map.mp hp
    obtain ⟨_, _, heq⟩ := List.mem_map.mp hp'
    exact hne (Prod.mk.inj heq).1.symm

theorem graph_edges_perm [Collator] {c : Catalog} (h : c.WellLinked) :
    c.graph.edges.Perm c.links := by
  refine (List.perm_ext_iff_of_nodup (graph_wellFormed h).edges_nodup (links_nodup h)).mpr ?_
  rintro ⟨x, y⟩
  refine (graph_edge_iff h).trans ?_
  simp only [links, List.mem_flatMap, List.mem_map, Prod.mk.injEq]
  constructor
  · rintro ⟨s, hs, hy⟩
    exact ⟨(x, s), h.get?_iff.mp hs, y, hy, rfl, rfl⟩
  · rintro ⟨⟨k, s⟩, he, z, hz, rfl, rfl⟩
    exact ⟨s, h.get?_iff.mpr he, hz⟩

/-! Catalogs that differ in the order of links only. -/

/-- The same components, and the same links in whatever order. -/
structure Alike (c d : Catalog) : Prop where
  linked : c.WellLinked
  linked_other : d.WellLinked
  outline : c.outline = d.outline
  depends : ∀ x y, c.Depends x y ↔ d.Depends x y

theorem depends_iff_mem {c : Catalog} {x y : String} {s : Component} (h : c.get? x = some s) :
    c.Depends x y ↔ y ∈ s.dependsOn := by
  constructor
  · rintro ⟨s', hs', hy⟩
    obtain rfl := Option.some.inj (h.symm.trans hs')
    exact hy
  · exact fun hy => ⟨s, h, hy⟩

namespace Alike
variable {c d : Catalog}

theorem keys (h : Alike c d) : c.components.keys = d.components.keys := keys_eq_of_outline h.outline

theorem refl (h : c.WellLinked) : Alike c c := ⟨h, h, rfl, fun _ _ => Iff.rfl⟩

theorem addAll (h : Alike c d) {links links' : List (String × String)}
    (same : ∀ e, e ∈ links ↔ e ∈ links') : Alike (c.addAll links) (d.addAll links') where
  linked := addAll_wellLinked h.linked links
  linked_other := addAll_wellLinked h.linked_other links'
  outline := by rw [addAll_outline h.linked, addAll_outline h.linked_other, h.outline]
  depends := by
    intro x y
    rw [depends_addAll, depends_addAll, h.depends, h.keys, same]

theorem depends_rebuildUsedBy {c : Catalog} {x y : String} :
    c.rebuildUsedBy.Depends x y ↔ c.Depends x y := by
  rw [Depends, get?_rebuildUsedBy]
  cases hs : c.get? x with
  | none => simp [Depends, hs]
  | some s => simp [depends_iff_mem hs]

theorem rebuildUsedBy (h : Alike c d) : Alike c.rebuildUsedBy d.rebuildUsedBy where
  linked := rebuildUsedBy_wellLinked h.linked
  linked_other := rebuildUsedBy_wellLinked h.linked_other
  outline := by rw [rebuildUsedBy_outline, rebuildUsedBy_outline, h.outline]
  depends := by
    intro x y
    rw [depends_rebuildUsedBy, depends_rebuildUsedBy, h.depends]

theorem mem_dependsOn (h : Alike c d) {x y : String} {s t : Component} (hs : c.get? x = some s)
    (ht : d.get? x = some t) : y ∈ s.dependsOn ↔ y ∈ t.dependsOn := by
  rw [← depends_iff_mem hs, h.depends, depends_iff_mem ht]

theorem sortedDependsOn [Collator] (h : Alike c d)
    (separate : Collation.Separates c.components.keys) {x : String} {s t : Component}
    (hs : c.get? x = some s) (ht : d.get? x = some t) :
    s.sortedDependsOn = t.sortedDependsOn := by
  have hs' := h.linked.get?_iff.mp hs
  have ht' := h.linked_other.get?_iff.mp ht
  apply Collation.sort_eq_of_perm
  · refine (List.perm_ext_iff_of_nodup (h.linked.nodup x s hs') (h.linked_other.nodup x t ht')).mpr
      ?_
    exact fun y => h.mem_dependsOn hs ht
  · intro y hy z hz
    exact separate y (h.linked.known x s hs' y hy) z (h.linked.known x s hs' z hz)

/-- Nodes and edges come out in one order. -/
theorem graph [Collator] (h : Alike c d) (separate : Collation.Separates c.components.keys) :
    c.graph = d.graph := by
  have ids : c.ids = d.ids := by rw [Catalog.ids, h.keys, Catalog.ids]
  have has : c.has = d.has := by
    funext x
    rw [Bool.eq_iff_iff, has_iff, has_iff, h.keys]
  have edges : ∀ xs : List String, (∀ x ∈ xs, x ∈ c.components.keys) →
      ((xs.filterMap c.get?).flatMap fun s =>
        (s.sortedDependsOn.filter c.has).map fun target => (s.id, target)) =
      (xs.filterMap d.get?).flatMap fun s =>
        (s.sortedDependsOn.filter d.has).map fun target => (s.id, target) := by
    intro xs hxs
    induction xs with
    | nil => rfl
    | cons x xs ih =>
      have hx := hxs x (List.mem_cons_self ..)
      obtain ⟨s, hs⟩ := exists_component hx
      obtain ⟨t, ht⟩ := exists_component (h.keys ▸ hx)
      have own : s.id = t.id := (h.linked.id_eq x s (h.linked.get?_iff.mp hs)).trans
        (h.linked_other.id_eq x t (h.linked_other.get?_iff.mp ht)).symm
      rw [List.filterMap_cons_some hs, List.filterMap_cons_some ht, List.flatMap_cons,
        List.flatMap_cons, ih fun y hy => hxs y (List.mem_cons_of_mem _ hy),
        h.sortedDependsOn separate hs ht, own, has]
  rw [Catalog.graph, Catalog.graph]
  simp only [map_id_values h.linked, map_id_values h.linked_other]
  rw [ids, values, values, edges c.ids fun x hx => mem_ids.mp hx, ids]

end Alike

end Catalog

end RepoAtlas
