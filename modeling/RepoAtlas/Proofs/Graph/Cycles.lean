import RepoAtlas.Proofs.Graph.Order

/-!
Ordering fails on cycles and on nothing else. A queue that takes nodes behind their predecessors
runs dry early exactly where a depth-first search comes back to the node it left, so checking for
cycles first and then taking nodes from the queue is the same as looking at what the queue leaves
over. Any other graph of groups is written out whole, whatever the members of its groups are.
-/
namespace RepoAtlas

namespace Digraph

def hasCycle (g : Digraph) : Bool :=
  g.nodes.any fun v => (g.successors v).any fun w => v ∈ g.reachable w

theorem hasCycle_iff {g : Digraph} (h : g.WellFormed) :
    g.hasCycle = true ↔ ∃ v, Relation.TransGen g.Edge v v := by
  simp only [hasCycle, List.any_eq_true, mem_successors, decide_eq_true_eq, mem_reachable]
  constructor
  · rintro ⟨v, _, w, he, back⟩
    exact ⟨v, Relation.TransGen.head' he back⟩
  · rintro ⟨v, cycle⟩
    obtain ⟨w, he, back⟩ := Relation.TransGen.head'_iff.mp cycle
    exact ⟨v, (h.ends v w he).1, w, he, back⟩

theorem not_acyclic_iff {g : Digraph} : ¬ g.Acyclic ↔ ∃ v, Relation.TransGen g.Edge v v := by
  simp only [Acyclic, not_forall, not_not]

end Digraph

namespace Condensation
open RepoAtlas.Digraph

theorem PredecessorsFirst.idxOf_lt {g : Digraph} {xs : List String} (h : PredecessorsFirst g xs)
    {u v : String} (walk : Relation.TransGen g.Edge u v) (hv : v ∈ xs) :
    xs.idxOf u < xs.idxOf v := by
  induction walk with
  | single he => exact h _ hv _ he
  | tail _ he ih => exact (ih (h.mem hv he)).trans (h _ hv _ he)

theorem Exhausts.acyclic {g : Digraph} (hg : g.WellFormed) {xs : List String} (h : Exhausts g xs)
    (all : xs.Perm g.nodes) : g.Acyclic := by
  intro v cycle
  obtain ⟨w, he, _⟩ := Relation.TransGen.head'_iff.mp cycle
  have hv : v ∈ xs := all.mem_iff.mpr (hg.ends v w he).1
  exact (h.ordered.idxOf_lt cycle hv).false

/-- Nodes are left over exactly if there is a cycle. -/
theorem length_sorted_iff {g : Digraph} (h : g.WellFormed) :
    (sorted g).length = g.nodes.length ↔ g.Acyclic := by
  have exhausts := sorted_exhausts h
  constructor
  · intro hlen
    have taken : sorted g ⊆ g.nodes := fun v hv => ((exhausts.mem_iff v).mp hv).1
    have all := (List.subperm_of_subset exhausts.nodup taken).perm_of_length_le hlen.ge
    exact exhausts.acyclic h all
  · exact fun ha => (exhausts.perm_nodes h ha).length_eq

/-- Ordering is a search for cycles and then a run of the queue. -/
theorem order_eq_check {c : Condensation} (h : c.graph.WellFormed) :
    c.order = if c.graph.hasCycle then .error ⟨⟩
      else .ok ((sorted c.graph).flatMap c.membersOf) := by
  have count : c.graph.nodes.length = c.groups.length := List.length_map ..
  have ends := length_sorted_iff h
  rw [count] at ends
  by_cases cycle : c.graph.hasCycle = true
  · have stuck : ¬ c.graph.Acyclic := not_acyclic_iff.mpr ((hasCycle_iff h).mp cycle)
    rw [if_pos cycle, order, if_neg (mt ends.mp stuck)]
  · have acyclic : c.graph.Acyclic := by
      rwa [hasCycle_iff h, ← not_acyclic_iff, not_not] at cycle
    rw [if_neg cycle, order, if_pos (ends.mpr acyclic)]

theorem exists_groups_of_perm {c : Condensation} {order : List String} (hk : order.Perm c.keys) :
    ∃ groups : List Group, groups.Perm c.groups ∧ groups.map (·.key) = order := by
  -- a permutation of the keys is the list of keys of a permutation
  have taken := congrFun (congrFun (List.eq_map_comp_perm Group.key) order) c.groups
  obtain ⟨groups, heq, perm⟩ := taken.symm ▸ hk
  exact ⟨groups, perm, heq.symm⟩

theorem flatMap_membersOf {c : Condensation} (h : c.keys.Nodup) {groups : List Group}
    (perm : groups.Perm c.groups) :
    (groups.map (·.key)).flatMap c.membersOf = groups.flatMap (·.members) := by
  rw [List.flatMap_map]
  exact List.flatMap_congr fun a ha => membersOf_key h (perm.mem_iff.mp ha)

/-- Groups with any members and any edges between them are refused exactly if the edges have a
cycle, as a depth-first search finds it. Otherwise the order is made of the members of all groups,
each group written out once and in front of those that an edge leads to. -/
theorem order_refuses_only_cycles (c : Condensation) (h : c.graph.WellFormed) :
    (c.order = .error ⟨⟩ ↔ ∃ key, Relation.TransGen c.graph.Edge key key) ∧
      (c.graph.hasCycle = true ↔ ∃ key, Relation.TransGen c.graph.Edge key key) ∧
      ((¬ ∃ key, Relation.TransGen c.graph.Edge key key) →
        ∃ groups : List Group, groups.Perm c.groups ∧ c.order = .ok (groups.flatMap (·.members)) ∧
          ∀ x y, c.graph.Edge x y →
            (groups.map (·.key)).idxOf x < (groups.map (·.key)).idxOf y) := by
  have checked := order_eq_check h
  have exhausts := sorted_exhausts h
  refine ⟨?_, hasCycle_iff h, ?_⟩
  · rw [checked, ← hasCycle_iff h]
    split <;> simp_all
  · intro loopless
    have acyclic : c.graph.Acyclic := not_not.mp (mt not_acyclic_iff.mp loopless)
    have all := exhausts.perm_nodes h acyclic
    obtain ⟨groups, perm, taken⟩ := exists_groups_of_perm all
    refine ⟨groups, perm, ?_, ?_⟩
    · rw [checked, if_neg (mt (hasCycle_iff h).mp loopless), ← taken,
        flatMap_membersOf h.nodes_nodup perm]
    · intro x y he
      rw [taken]
      exact exhausts.ordered y (all.mem_iff.mpr (h.ends x y he).2) x he

def forked : Condensation :=
  ⟨[⟨"t", ["y", "x"]⟩, ⟨"e", []⟩, ⟨"s", ["x"]⟩], [("s", "t"), ("s", "e"), ("e", "t")]⟩

def forkedBack : Condensation := { forked with edges := forked.edges ++ [("e", "e")] }

theorem forked_refuses_only_cycles :
    (forkedBack.graph.WellFormed ∧ forkedBack.order = .error ⟨⟩) ∧
      forked.graph.WellFormed ∧ (¬ ∃ key, Relation.TransGen forked.graph.Edge key key) ∧
      ∃ groups : List Group, groups.Perm forked.groups ∧
        forked.order = .ok (groups.flatMap (·.members)) ∧
        (groups.map (·.key)).idxOf "s" < (groups.map (·.key)).idxOf "e" := by
  have refused := order_refuses_only_cycles forkedBack (by decide)
  obtain ⟨_, search, written⟩ := order_refuses_only_cycles forked (by decide)
  have loopless : ¬ ∃ key, Relation.TransGen forked.graph.Edge key key := by
    rw [← search]
    decide
  obtain ⟨groups, perm, order, before⟩ := written loopless
  exact ⟨⟨by decide, refused.1.mpr ⟨"e", .single (by decide)⟩⟩, by decide, loopless, groups, perm,
    order, before "s" "e" (by decide)⟩

end Condensation

end RepoAtlas
