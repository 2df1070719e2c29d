import Mathlib.Data.List.Pairwise
import RepoAtlas.Graph.Condensation
import RepoAtlas.Proofs.Graph.Reach
import RepoAtlas.Proofs.Text.Collation
import RepoAtlas.Text.Alphabet

/-!
A condensation is determined by what it condenses: its groups are the classes of mutual
reachability, and an edge joins two groups exactly where an edge of the graph crosses from one to
the other. A cycle of groups would make their members reach each other, so there is none.
-/
namespace RepoAtlas.Condensation
open Text RepoAtlas.Digraph

theorem groupKey_injective : Function.Injective groupKey := by
  intro i j h
  have hr : Nat.repr i = Nat.repr j := (String.append_right_inj _).mp h
  have hd := congrArg String.toList hr
  rw [Nat.toList_repr, Nat.toList_repr] at hd
  have hi := Nat.ofDigitChars_toDigits (b := 10) (n := i) (by decide) (by decide)
  have hj := Nat.ofDigitChars_toDigits (b := 10) (n := j) (by decide) (by decide)
  rw [← hi, hd, hj]

theorem numbered_members (components : List (List String)) :
    (numbered components).map (·.members) = components := by
  simp only [numbered, List.map_map]
  exact List.zipIdx_map_fst 0 components

theorem numbered_keys (components : List (List String)) :
    (numbered components).map (·.key) = (List.range components.length).map groupKey := by
  have h := congrArg (List.map groupKey) (List.zipIdx_map_snd 0 components)
  rw [List.map_map] at h
  simpa [numbered, Function.comp_def, List.range_eq_range'] using h

theorem find?_of_unique {groups : List Group} {p : Group → Bool} {a : Group} (ha : a ∈ groups)
    (hp : p a = true) (unique : ∀ b ∈ groups, p b = true → b = a) : groups.find? p = some a := by
  cases hf : groups.find? p with
  | none => exact absurd hp (by simpa using List.find?_eq_none.mp hf a ha)
  | some b => rw [unique b (List.mem_of_find?_eq_some hf) (List.find?_some hf)]

/-- Groups under distinct keys whose members are the given nodes, each once. -/
structure Grouping (groups : List Group) (nodes : List String) : Prop where
  nodes_nodup : nodes.Nodup
  keys_nodup : (groups.map (·.key)).Nodup
  members_perm : (groups.flatMap (·.members)).Perm nodes

namespace Grouping
variable {groups : List Group} {nodes : List String}

theorem exists_group (h : Grouping groups nodes) {v : String} (hv : v ∈ nodes) :
    ∃ a ∈ groups, v ∈ a.members :=
  List.mem_flatMap.mp (h.members_perm.mem_iff.mpr hv)

theorem mem_nodes (h : Grouping groups nodes) {a : Group} (ha : a ∈ groups) {v : String}
    (hv : v ∈ a.members) : v ∈ nodes :=
  h.members_perm.mem_iff.mp (List.mem_flatMap.mpr ⟨a, ha, hv⟩)

theorem eq_of_key (h : Grouping groups nodes) {a b : Group} (ha : a ∈ groups) (hb : b ∈ groups)
    (hk : a.key = b.key) : a = b :=
  List.inj_on_of_nodup_map h.keys_nodup ha hb hk

theorem eq_of_mem (h : Grouping groups nodes) {a b : Group} (ha : a ∈ groups) (hb : b ∈ groups)
    {v : String} (hva : v ∈ a.members) (hvb : v ∈ b.members) : a = b := by
  have hd := (List.nodup_flatMap.mp (h.members_perm.nodup_iff.mpr h.nodes_nodup)).2
  have : Std.Symm (Function.onFun List.Disjoint Group.members) := ⟨fun _ _ => List.disjoint_symm⟩
  by_contra hne
  exact hd.forall ha hb hne hva hvb

/-- The key of a node is that of the group it is a member of. -/
theorem keyOf_eq (h : Grouping groups nodes) {a : Group} (ha : a ∈ groups) {v : String}
    (hv : v ∈ a.members) : keyOf groups v = a.key := by
  have found : groups.find? (fun b => v ∈ b.members) = some a := by
    apply find?_of_unique ha (by simpa using hv)
    intro b hb hvb
    exact h.eq_of_mem hb ha (by simpa using hvb) hv
  simp [keyOf, found]

/-- The group that a key names. -/
theorem group_of_key (h : Grouping groups nodes) {a : Group} (ha : a ∈ groups) {v : String}
    (hv : v ∈ nodes) (hk : keyOf groups v = a.key) : v ∈ a.members := by
  obtain ⟨b, hb, hvb⟩ := h.exists_group hv
  have hab : b = a := h.eq_of_key hb ha ((h.keyOf_eq hb hvb).symm.trans hk)
  exact hab ▸ hvb

end Grouping

/-! The groups of a graph. -/

section
variable [Collator]

def sortedComponents (g : Digraph) : List (List String) :=
  Collation.sortBy (·.headD "") (g.components.map Collation.sort)

theorem ofGraph_groups (g : Digraph) : (ofGraph g).groups = numbered (sortedComponents g) := rfl

theorem sortedComponents_perm (g : Digraph) :
    (sortedComponents g).Perm (g.components.map Collation.sort) := Collation.sortBy_perm _ _

theorem group_members_mem {g : Digraph} {a : Group} (ha : a ∈ (ofGraph g).groups) :
    ∃ c ∈ g.components, a.members = Collation.sort c := by
  have hm : a.members ∈ sortedComponents g := by
    rw [← numbered_members (sortedComponents g), ← ofGraph_groups]
    exact List.mem_map_of_mem ha
  obtain ⟨c, hc, he⟩ := List.mem_map.mp ((sortedComponents_perm g).mem_iff.mp hm)
  exact ⟨c, hc, he.symm⟩

/-- A group is the class of one of its nodes. -/
theorem group_is_class {g : Digraph} {a : Group} (ha : a ∈ (ofGraph g).groups) :
    ∃ v ∈ g.nodes, ∀ w, w ∈ a.members ↔ w ∈ g.nodes ∧ g.Mutual v w := by
  obtain ⟨c, hc, he⟩ := group_members_mem ha
  obtain ⟨v, hv, rfl⟩ := (components_classes g).is_component c hc
  refine ⟨v, hv, fun w => ?_⟩
  rw [he, Collation.mem_sort, mem_component]

theorem group_nonempty {g : Digraph} {a : Group} (ha : a ∈ (ofGraph g).groups) :
    a.members ≠ [] := by
  obtain ⟨v, hv, hm⟩ := group_is_class ha
  exact List.ne_nil_of_mem ((hm v).mpr ⟨hv, .refl g v⟩)

theorem ofGraph_grouping {g : Digraph} (h : g.nodes.Nodup) :
    Grouping (ofGraph g).groups g.nodes where
  nodes_nodup := h
  keys_nodup := by
    rw [ofGraph_groups, numbered_keys]
    exact List.nodup_range.map groupKey_injective
  members_perm := by
    have sorted : ((g.components.map Collation.sort).flatten).Perm g.components.flatten := by
      rw [← List.flatMap_def]
      have each := List.Perm.flatMap_left (f := Collation.sort) (g := id) g.components
        fun c _ => Collation.sort_perm c
      simpa [List.flatMap_id] using each
    rw [List.flatMap_def, ofGraph_groups, numbered_members]
    exact ((sortedComponents_perm g).flatten.trans sorted).trans (components_partition h)

/-- Members of one group reach each other. -/
theorem mutual_of_members {g : Digraph} {a : Group} (ha : a ∈ (ofGraph g).groups) {v w : String}
    (hv : v ∈ a.members) (hw : w ∈ a.members) : g.Mutual v w := by
  obtain ⟨u, _, hm⟩ := group_is_class ha
  exact ((hm v).mp hv).2.symm.trans ((hm w).mp hw).2

/-- Nodes that reach each other are in one group. -/
theorem mem_of_mutual {g : Digraph} {a : Group} (ha : a ∈ (ofGraph g).groups) {v w : String}
    (hv : v ∈ a.members) (hw : w ∈ g.nodes) (hm : g.Mutual v w) : w ∈ a.members := by
  obtain ⟨u, _, hu⟩ := group_is_class ha
  exact (hu w).mpr ⟨hw, ((hu v).mp hv).2.trans hm⟩

theorem groupOf_eq_iff {g : Digraph} (h : g.nodes.Nodup) {v w : String} (hv : v ∈ g.nodes)
    (hw : w ∈ g.nodes) : (ofGraph g).groupOf v = (ofGraph g).groupOf w ↔ g.Mutual v w := by
  have grouping := ofGraph_grouping h
  obtain ⟨a, ha, hva⟩ := grouping.exists_group hv
  have hkey : (ofGraph g).groupOf v = a.key := grouping.keyOf_eq ha hva
  rw [hkey]
  constructor
  · intro hk
    exact mutual_of_members ha hva (grouping.group_of_key ha hw hk.symm)
  · intro hm
    exact (grouping.keyOf_eq ha (mem_of_mutual ha hva hw hm)).symm

/-! The edges between groups. -/

/-- An edge of the graph that leaves a group gives an edge of the condensation, the other way
round. -/
theorem ofGraph_edge {g : Digraph} {k l : String} :
    (ofGraph g).graph.Edge k l ↔
      k ≠ l ∧ ∃ v w, g.Edge v w ∧ (ofGraph g).groupOf v = l ∧ (ofGraph g).groupOf w = k := by
  simp only [graph, Edge, ofGraph, groupOf, mem_foldl_addNew, sortEdges, Collation.mem_sortBy,
    List.mem_filterMap, List.not_mem_nil, false_or]
  constructor
  · rintro ⟨⟨v, w⟩, he, hs⟩
    split at hs
    · cases hs
    · rename_i hne
      obtain ⟨rfl, rfl⟩ := Prod.mk.inj (Option.some.inj hs)
      exact ⟨Ne.symm hne, v, w, he, rfl, rfl⟩
  · rintro ⟨hne, v, w, he, rfl, rfl⟩
    exact ⟨(v, w), he, if_neg (Ne.symm hne)⟩

theorem ofGraph_edge_iff {g : Digraph} (h : g.WellFormed) {a b : Group}
    (ha : a ∈ (ofGraph g).groups) (hb : b ∈ (ofGraph g).groups) :
    (ofGraph g).graph.Edge a.key b.key ↔ a ≠ b ∧ ∃ v ∈ b.members, ∃ w ∈ a.members, g.Edge v w := by
  have grouping := ofGraph_grouping h.nodes_nodup
  rw [ofGraph_edge]
  constructor
  · rintro ⟨hne, v, w, he, hv, hw⟩
    obtain ⟨hvn, hwn⟩ := h.ends v w he
    exact ⟨fun hab => hne (hab ▸ rfl), v, grouping.group_of_key hb hvn hv, w,
      grouping.group_of_key ha hwn hw, he⟩
  · rintro ⟨hne, v, hv, w, hw, he⟩
    exact ⟨fun hk => hne (grouping.eq_of_key ha hb hk), v, w, he, grouping.keyOf_eq hb hv,
      grouping.keyOf_eq ha hw⟩

/-- The ends of an edge between groups are keys of groups. -/
theorem ofGraph_edge_ends {g : Digraph} (h : g.WellFormed) {k l : String}
    (he : (ofGraph g).graph.Edge k l) :
    ∃ a ∈ (ofGraph g).groups, ∃ b ∈ (ofGraph g).groups, a.key = k ∧ b.key = l := by
  have grouping := ofGraph_grouping h.nodes_nodup
  obtain ⟨_, v, w, hvw, rfl, rfl⟩ := ofGraph_edge.mp he
  obtain ⟨hv, hw⟩ := h.ends v w hvw
  obtain ⟨b, hb, hvb⟩ := grouping.exists_group hv
  obtain ⟨a, ha, hwa⟩ := grouping.exists_group hw
  exact ⟨a, ha, b, hb, (grouping.keyOf_eq ha hwa).symm, (grouping.keyOf_eq hb hvb).symm⟩

theorem ofGraph_wellFormed {g : Digraph} (h : g.WellFormed) : (ofGraph g).graph.WellFormed where
  nodes_nodup := (ofGraph_grouping h.nodes_nodup).keys_nodup
  edges_nodup := nodup_foldl_addNew .nil
  ends := by
    intro k l he
    obtain ⟨a, ha, b, hb, rfl, rfl⟩ := ofGraph_edge_ends h he
    exact ⟨List.mem_map_of_mem ha, List.mem_map_of_mem hb⟩

/-- Along a walk of groups the members of the last one reach those of the first. -/
theorem reaches_of_walk {g : Digraph} (h : g.WellFormed) {k l : String}
    (walk : (ofGraph g).graph.Reaches k l) {v w : String} (hv : v ∈ g.nodes)
    (hw : w ∈ g.nodes) (hk : (ofGraph g).groupOf v = k) (hl : (ofGraph g).groupOf w = l) :
    g.Reaches w v := by
  induction walk generalizing w with
  | refl => exact ((groupOf_eq_iff h.nodes_nodup hw hv).mp (hl.trans hk.symm)).1
  | tail _ e ih =>
    obtain ⟨_, x, y, hxy, hx, hy⟩ := ofGraph_edge.mp e
    obtain ⟨hxn, hyn⟩ := h.ends x y hxy
    have hwx := (groupOf_eq_iff h.nodes_nodup hw hxn).mp (hl.trans hx.symm)
    exact (hwx.1.tail hxy).trans (ih hyn hy)

theorem ofGraph_acyclic {g : Digraph} (h : g.WellFormed) : (ofGraph g).graph.Acyclic := by
  intro k cycle
  -- the first edge of the cycle crosses to a group that leads back, so its ends are in one group
  obtain ⟨l, e, back⟩ := Relation.TransGen.head'_iff.mp cycle
  obtain ⟨hne, v, w, hvw, hv, hw⟩ := ofGraph_edge.mp e
  obtain ⟨hvn, hwn⟩ := h.ends v w hvw
  have hm : g.Mutual v w := ⟨.single hvw, reaches_of_walk h back hvn hwn hv hw⟩
  have same := (groupOf_eq_iff h.nodes_nodup hvn hwn).mpr hm
  exact hne (hw.symm.trans (same.symm.trans hv))

theorem group_members_ascending {g : Digraph} {a : Group} (ha : a ∈ (ofGraph g).groups) :
    a.members.Pairwise fun v w => (Collation.collate v w).isLE := by
  obtain ⟨c, _, he⟩ := group_members_mem ha
  rw [he]
  exact Collation.sort_ascending c

theorem groups_ascending (g : Digraph) :
    (ofGraph g).groups.Pairwise fun a b =>
      (Collation.collate (a.members.headD "") (b.members.headD "")).isLE := by
  have h := Collation.sortBy_ascending (·.headD "") (g.components.map Collation.sort)
  change (sortedComponents g).Pairwise _ at h
  rw [← numbered_members (sortedComponents g), List.pairwise_map] at h
  exact h

end

/-- What makes a condensation that of a graph: its groups are the classes of mutual reachability,
sorted and numbered, and its edges are the crossing edges of the graph turned round. -/
structure Condenses [Collator] (c : Condensation) (g : Digraph) : Prop where
  same_group_iff : ∀ v ∈ g.nodes, ∀ w ∈ g.nodes,
    c.groupOf v = c.groupOf w ↔ g.Reaches v w ∧ g.Reaches w v
  members_perm : (c.groups.flatMap (·.members)).Perm g.nodes
  members_nodup : (c.groups.flatMap (·.members)).Nodup
  members_nonempty : ∀ a ∈ c.groups, a.members ≠ []
  groupOf_member : ∀ a ∈ c.groups, ∀ v ∈ a.members, c.groupOf v = a.key
  members_sorted : ∀ a ∈ c.groups, a.members.Pairwise fun v w => (Collation.collate v w).isLE
  keys_numbered : c.groups.map (·.key) = (List.range c.groups.length).map groupKey
  groups_sorted : c.groups.Pairwise fun a b =>
    ∀ v ∈ a.members.head?, ∀ w ∈ b.members.head?, (Collation.collate v w).isLE
  nodes_eq : c.graph.nodes = c.groups.map (·.key)
  wellFormed : c.graph.WellFormed
  edge_iff : ∀ a ∈ c.groups, ∀ b ∈ c.groups,
    c.graph.Edge a.key b.key ↔ a ≠ b ∧ ∃ v ∈ b.members, ∃ w ∈ a.members, g.Edge v w
  acyclic : c.graph.Acyclic

theorem ofGraph_condenses [Collator] (g : Digraph) (h : g.WellFormed) :
    (ofGraph g).Condenses g where
  same_group_iff := fun _ hv _ hw => groupOf_eq_iff h.nodes_nodup hv hw
  members_perm := (ofGraph_grouping h.nodes_nodup).members_perm
  members_nodup := (ofGraph_grouping h.nodes_nodup).members_perm.nodup_iff.mpr h.nodes_nodup
  members_nonempty := fun _ ha => group_nonempty ha
  groupOf_member := fun _ ha _ hv => (ofGraph_grouping h.nodes_nodup).keyOf_eq ha hv
  members_sorted := fun _ ha => group_members_ascending ha
  keys_numbered := by
    rw [ofGraph_groups, numbered_keys]
    congr 2
    simpa using (congrArg List.length (numbered_members (sortedComponents g))).symm
  groups_sorted := by
    refine (groups_ascending g).imp ?_
    intro a b hab v hv w hw
    simpa [List.headD_eq_head?_getD, Option.mem_def.mp hv, Option.mem_def.mp hw] using hab
  nodes_eq := rfl
  wellFormed := ofGraph_wellFormed h
  edge_iff := fun _ ha _ hb => ofGraph_edge_iff h ha hb
  acyclic := ofGraph_acyclic h

open scoped Text.Alphabet

/-- Two nodes on a cycle, one with an edge to itself and one that depends on it, added in no
particular order. -/
def knotted : Digraph :=
  ⟨["d", "b", "c", "a"], [("d", "c"), ("c", "c"), ("c", "a"), ("b", "a"), ("a", "b")]⟩

theorem knotted_condenses : knotted.WellFormed ∧ (ofGraph knotted).Condenses knotted :=
  ⟨by decide, ofGraph_condenses knotted (by decide)⟩

end RepoAtlas.Condensation
