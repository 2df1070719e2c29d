import RepoAtlas.Proofs.Graph.Order

/-!
The order in which a graph was put together is forgotten. Graphs with the same nodes and edges have
the same classes of mutual reachability, though the classes are found in different orders. Sorting
the members of a class, the classes and the edges between them leaves no trace of that, so the queue
starts from the same condensation and takes the groups in the same order.
-/
namespace RepoAtlas

namespace Digraph
variable {g h : Digraph}

/-- The same nodes and edges, added in whatever order. -/
structure Same (g h : Digraph) : Prop where
  nodes : ∀ v, v ∈ g.nodes ↔ v ∈ h.nodes
  edges : ∀ a b, g.Edge a b ↔ h.Edge a b

theorem Same.mutual_iff (same : g.Same h) (v w : String) : g.Mutual v w ↔ h.Mutual v w := by
  have edge : g.Edge = h.Edge := funext fun a => funext fun b => propext (same.edges a b)
  rw [Mutual, Mutual, Reaches, Reaches, edge]

theorem Same.edges_perm (same : g.Same h) (hg : g.WellFormed) (hh : h.WellFormed) :
    g.edges.Perm h.edges :=
  (List.perm_ext_iff_of_nodup hg.edges_nodup hh.edges_nodup).mpr fun e => same.edges e.1 e.2

theorem component_nodup (hg : g.nodes.Nodup) (v : String) : (g.component v).Nodup := hg.filter _

theorem Same.component_perm (same : g.Same h) (hg : g.nodes.Nodup) (hh : h.nodes.Nodup)
    (v : String) :
    (g.component v).Perm (h.component v) := by
  refine (List.perm_ext_iff_of_nodup (component_nodup hg v) (component_nodup hh v)).mpr fun w => ?_
  rw [mem_component, mem_component, same.nodes, same.mutual_iff]

theorem component_eq_of_mutual {v w : String} (hm : g.Mutual v w) :
    g.component v = g.component w := by
  rw [component, component]
  refine List.filter_congr fun x _ => ?_
  rw [Bool.eq_iff_iff]
  simp only [Bool.and_eq_true, decide_eq_true_eq, mem_reachable, reverse_reaches]
  exact ⟨fun hx => hm.symm.trans hx, fun hx => hm.trans hx⟩

theorem mem_components {c : List String} : c ∈ g.components ↔ ∃ v ∈ g.nodes, c = g.component v := by
  constructor
  · exact (components_classes g).is_component c
  · rintro ⟨v, hv, rfl⟩
    obtain ⟨c, hc, hvc⟩ :=
      (componentsOf_classes ⟨by simp, .nil⟩ (List.Subset.refl g.nodes)).2.2 v hv
    obtain ⟨w, _, rfl⟩ := (components_classes g).is_component c hc
    rwa [← component_eq_of_mutual (mem_component.mp hvc).2]

end Digraph

namespace Condensation
open Text RepoAtlas.Digraph
variable {g h : Digraph}

/-! Groups. -/

theorem mem_sortedComponents [Collator] {c : List String} :
    c ∈ sortedComponents g ↔ ∃ v ∈ g.nodes, c = Collation.sort (g.component v) := by
  rw [(sortedComponents_perm g).mem_iff, List.mem_map]
  constructor
  · rintro ⟨c, hc, rfl⟩
    obtain ⟨v, hv, rfl⟩ := mem_components.mp hc
    exact ⟨v, hv, rfl⟩
  · rintro ⟨v, hv, rfl⟩
    exact ⟨_, mem_components.mpr ⟨v, hv, rfl⟩, rfl⟩

theorem eq_of_mem_sortedComponents [Collator] {c d : List String} (hc : c ∈ sortedComponents g)
    (hd : d ∈ sortedComponents g) {v : String} (hvc : v ∈ c) (hvd : v ∈ d) : c = d := by
  obtain ⟨x, _, rfl⟩ := mem_sortedComponents.mp hc
  obtain ⟨y, _, rfl⟩ := mem_sortedComponents.mp hd
  have hx := (mem_component.mp (Collation.mem_sort.mp hvc)).2
  have hy := (mem_component.mp (Collation.mem_sort.mp hvd)).2
  rw [component_eq_of_mutual (hx.trans hy.symm)]

theorem sortedComponents_nodup [Collator] (g : Digraph) : (sortedComponents g).Nodup := by
  rw [(sortedComponents_perm g).nodup_iff, List.Nodup, List.pairwise_map]
  refine (components_classes g).disjoint.imp_of_mem ?_
  intro c d hc _ apart same
  obtain ⟨v, hv, rfl⟩ := mem_components.mp hc
  have own : v ∈ g.component v := mem_component.mpr ⟨hv, .refl g v⟩
  exact apart own (Collation.mem_sort.mp (same ▸ Collation.mem_sort.mpr own))

theorem head_mem_component [Collator] {c : List String} (hc : c ∈ sortedComponents g) :
    c.headD "" ∈ c ∧ c.headD "" ∈ g.nodes := by
  obtain ⟨v, hv, rfl⟩ := mem_sortedComponents.mp hc
  have own : v ∈ Collation.sort (g.component v) :=
    Collation.mem_sort.mpr (mem_component.mpr ⟨hv, .refl g v⟩)
  have head : (Collation.sort (g.component v)).headD "" ∈ Collation.sort (g.component v) := by
    obtain ⟨first, rest, split⟩ := List.exists_cons_of_ne_nil (List.ne_nil_of_mem own)
    rw [split]
    exact List.mem_cons_self ..
  exact ⟨head, (mem_component.mp (Collation.mem_sort.mp head)).1⟩

theorem sortedComponents_eq [Collator] (same : g.Same h) (hg : g.nodes.Nodup) (hh : h.nodes.Nodup)
    (separate : Collation.Separates g.nodes) : sortedComponents g = sortedComponents h := by
  have each : ∀ v, Collation.sort (g.component v) = Collation.sort (h.component v) := by
    intro v
    refine Collation.sort_eq_of_perm (same.component_perm hg hh v) fun x hx y hy => ?_
    exact separate x (mem_component.mp hx).1 y (mem_component.mp hy).1
  have perm : (sortedComponents g).Perm (sortedComponents h) := by
    refine (List.perm_ext_iff_of_nodup (sortedComponents_nodup g) (sortedComponents_nodup h)).mpr ?_
    intro c
    simp only [mem_sortedComponents, each, same.nodes]
  -- both are in order already, and two of them whose first nodes tie share that node
  have sorted : ∀ g : Digraph, Collation.sortBy (·.headD "") (sortedComponents g) =
      sortedComponents g :=
    fun g => Collation.sortBy_of_ascending (Collation.sortBy_ascending ..)
  rw [← sorted g, ← sorted h]
  refine Collation.sortBy_eq_of_perm perm fun c hc d hd tie => ?_
  obtain ⟨hcc, hcn⟩ := head_mem_component hc
  obtain ⟨hdd, hdn⟩ := head_mem_component hd
  have first := separate _ hcn _ hdn tie
  exact eq_of_mem_sortedComponents hc hd hcc (first ▸ hdd)

theorem groups_eq [Collator] (same : g.Same h) (hg : g.nodes.Nodup) (hh : h.nodes.Nodup)
    (separate : Collation.Separates g.nodes) : (ofGraph g).groups = (ofGraph h).groups := by
  rw [ofGraph_groups, ofGraph_groups, sortedComponents_eq same hg hh separate]

/-! Edges between groups. -/

theorem groupKey_of_collate [NumeralCollator] {i j : Nat}
    (h : Collation.collate (groupKey i) (groupKey j) = .eq) : groupKey i = groupKey j := by
  rw [NumeralCollator.numerals "scc:" i j h]

theorem exists_groupKey [Collator] (hg : g.nodes.Nodup) {v : String} (hv : v ∈ g.nodes) :
    ∃ i, keyOf (ofGraph g).groups v = groupKey i := by
  have grouping := ofGraph_grouping hg
  obtain ⟨a, ha, hva⟩ := grouping.exists_group hv
  have key := List.mem_map_of_mem (f := Group.key) ha
  rw [ofGraph_groups, numbered_keys] at key
  obtain ⟨i, _, hi⟩ := List.mem_map.mp key
  exact ⟨i, (grouping.keyOf_eq ha hva).trans hi.symm⟩

def crossing (groups : List Group) (edges : List (String × String)) : List (String × String) :=
  edges.filterMap fun e =>
    if keyOf groups e.1 = keyOf groups e.2 then none else some (keyOf groups e.2, keyOf groups e.1)

theorem ofGraph_edges [Collator] (g : Digraph) :
    (ofGraph g).edges = (sortEdges (crossing (ofGraph g).groups g.edges)).foldl addNew [] := rfl

theorem keys_of_crossing [Collator] (hg : g.WellFormed) {e : String × String}
    (he : e ∈ crossing (ofGraph g).groups g.edges) : ∃ i j, e = (groupKey i, groupKey j) := by
  obtain ⟨⟨v, w⟩, hvw, hs⟩ := List.mem_filterMap.mp he
  obtain ⟨hv, hw⟩ := hg.ends v w hvw
  obtain ⟨i, hi⟩ := exists_groupKey hg.nodes_nodup hw
  obtain ⟨j, hj⟩ := exists_groupKey hg.nodes_nodup hv
  split at hs
  · cases hs
  · cases hs
    exact ⟨i, j, Prod.ext hi hj⟩

theorem edges_eq [NumeralCollator] (same : g.Same h) (hg : g.WellFormed) (hh : h.WellFormed)
    (groups : (ofGraph g).groups = (ofGraph h).groups) : (ofGraph g).edges = (ofGraph h).edges := by
  have perm : (crossing (ofGraph g).groups g.edges).Perm (crossing (ofGraph g).groups h.edges) :=
    (same.edges_perm hg hh).filterMap _
  have sorted : sortEdges (crossing (ofGraph g).groups g.edges) =
      sortEdges (crossing (ofGraph g).groups h.edges) := by
    refine Collation.sortBy_sortBy_eq_of_perm perm fun x hx y hy first second => ?_
    obtain ⟨i, j, rfl⟩ := keys_of_crossing hg hx
    obtain ⟨k, l, rfl⟩ := keys_of_crossing hg hy
    exact Prod.ext (groupKey_of_collate first) (groupKey_of_collate second)
  rw [ofGraph_edges, ofGraph_edges, sorted, groups]

/-- Graphs with the same nodes and edges, whatever the order in which they were added, have the same
groups, the same edges between them in the same order, and are put into the same order. -/
theorem insertion_order_forgotten [NumeralCollator] (g h : Digraph) (hg : g.WellFormed)
    (hh : h.WellFormed) (nodes : ∀ v, v ∈ g.nodes ↔ v ∈ h.nodes)
    (edges : ∀ a b, g.Edge a b ↔ h.Edge a b) (separate : Collation.Separates g.nodes) :
    (ofGraph g).groups = (ofGraph h).groups ∧
      (∀ v, (ofGraph g).groupOf v = (ofGraph h).groupOf v) ∧
      (ofGraph g).graph = (ofGraph h).graph ∧
      ∃ order, (ofGraph g).order = .ok order ∧ (ofGraph h).order = .ok order := by
  have same : g.Same h := ⟨nodes, edges⟩
  have groups := groups_eq same hg.nodes_nodup hh.nodes_nodup separate
  have whole : ofGraph g = ofGraph h := by
    rw [Condensation.mk.injEq]
    exact ⟨groups, edges_eq same hg hh groups⟩
  refine ⟨groups, fun v => by rw [whole], by rw [whole], _, ofGraph_order hg, ?_⟩
  rw [← whole, ofGraph_order hg]

open scoped Text.Alphabet

def knottedBackwards : Digraph := ⟨knotted.nodes.reverse, knotted.edges.reverse⟩

theorem knotted_insertion_order_forgotten :
    (knotted.WellFormed ∧ knottedBackwards.WellFormed ∧ Collation.Separates knotted.nodes) ∧
      (ofGraph knotted).groups = (ofGraph knottedBackwards).groups ∧
      (ofGraph knotted).groupOf "c" = (ofGraph knottedBackwards).groupOf "c" ∧
      (ofGraph knotted).graph = (ofGraph knottedBackwards).graph ∧
      ∃ order, (ofGraph knotted).order = .ok order ∧
        (ofGraph knottedBackwards).order = .ok order := by
  have separate : Collation.Separates knotted.nodes := by
    rw [Collation.Separates]
    decide +kernel
  have same := insertion_order_forgotten knotted knottedBackwards (by decide) (by decide)
    (fun _ => List.mem_reverse.symm) (fun _ _ => List.mem_reverse.symm) separate
  exact ⟨⟨by decide, by decide, separate⟩, same.1, same.2.1 "c", same.2.2⟩

end Condensation

end RepoAtlas
