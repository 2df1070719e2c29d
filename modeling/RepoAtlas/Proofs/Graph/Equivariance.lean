import RepoAtlas.Proofs.Graph.Convergence
import RepoAtlas.Proofs.Graph.Insertion

/-!
Importance does not depend on what nodes are called or in which order they and their edges were
added. Scores are kept by position; seen as functions of the nodes, one iteration is a formula in
which positions do not occur. Two runs on graphs that differ by a renaming go side by side: their
scores stay the same up to the renaming, so they change by the same amount and stop at the same
time. Floating-point sums, which depend on the order of their terms, are not covered.
-/
namespace RepoAtlas

namespace Digraph
variable {g h : Digraph} {σ : String → String}

/-- The renaming takes the nodes of one graph one to one to those of the other, and edges to
edges. -/
structure Carries (g h : Digraph) (σ : String → String) : Prop where
  nodes : Set.BijOn σ {v | v ∈ g.nodes} {v | v ∈ h.nodes}
  edges : ∀ a ∈ g.nodes, ∀ b ∈ g.nodes, (g.Edge a b ↔ h.Edge (σ a) (σ b))

theorem Same.carries (same : g.Same h) : g.Carries h id where
  nodes := by
    have nodes : {v | v ∈ g.nodes} = {v | v ∈ h.nodes} := Set.ext same.nodes
    rw [nodes]
    exact Set.bijOn_id _
  edges a _ b _ := same.edges a b

/-- On two listed graphs this is a matter of computation. -/
theorem carries_of_perm (hh : h.nodes.Nodup) (perm : (g.nodes.map σ).Perm h.nodes)
    (edges : ∀ a ∈ g.nodes, ∀ b ∈ g.nodes, (g.Edge a b ↔ h.Edge (σ a) (σ b))) : g.Carries h σ := by
  refine ⟨⟨?_, ?_, ?_⟩, edges⟩
  · intro v hv
    exact perm.mem_iff.mp (List.mem_map_of_mem hv)
  · intro v hv w hw same
    exact List.inj_on_of_nodup_map (perm.nodup_iff.mpr hh) hv hw same
  · intro w hw
    obtain ⟨v, hv, heq⟩ := List.mem_map.mp (perm.mem_iff.mpr hw)
    exact ⟨v, hv, heq⟩

namespace Carries

theorem mem (c : g.Carries h σ) {v : String} (hv : v ∈ g.nodes) : σ v ∈ h.nodes := c.nodes.mapsTo hv

/-- Lists of nodes that correspond are the same up to order. -/
theorem map_perm (c : g.Carries h σ) {xs ys : List String} (hx : xs.Nodup) (hy : ys.Nodup)
    (inside : ∀ v ∈ xs, v ∈ g.nodes) (inside' : ∀ w ∈ ys, w ∈ h.nodes)
    (same : ∀ v ∈ g.nodes, (v ∈ xs ↔ σ v ∈ ys)) : (xs.map σ).Perm ys := by
  have nodup : (xs.map σ).Nodup := by
    refine hx.map_on fun a ha b hb heq => ?_
    exact c.nodes.injOn (inside a ha) (inside b hb) heq
  refine (List.perm_ext_iff_of_nodup nodup hy).mpr fun w => ?_
  constructor
  · intro hw
    obtain ⟨v, hv, rfl⟩ := List.mem_map.mp hw
    exact (same v (inside v hv)).mp hv
  · intro hw
    obtain ⟨v, hv, rfl⟩ := c.nodes.surjOn (inside' w hw)
    exact List.mem_map_of_mem ((same v hv).mpr hw)

theorem nodes_perm (c : g.Carries h σ) (hg : g.WellFormed) (hh : h.WellFormed) :
    (g.nodes.map σ).Perm h.nodes := by
  refine c.map_perm hg.nodes_nodup hh.nodes_nodup (fun _ => id) (fun _ => id) fun v hv => ?_
  exact ⟨fun _ => c.mem hv, fun _ => hv⟩

theorem predecessors_perm (c : g.Carries h σ) (hg : g.WellFormed) (hh : h.WellFormed) {v : String}
    (hv : v ∈ g.nodes) : ((g.predecessors v).map σ).Perm (h.predecessors (σ v)) := by
  refine c.map_perm (g.predecessors_nodup hg v) (h.predecessors_nodup hh _) ?_ ?_ ?_
  · exact fun u hu => (hg.ends u v (mem_predecessors.mp hu)).1
  · exact fun u hu => (hh.ends u _ (mem_predecessors.mp hu)).1
  · intro u hu
    rw [mem_predecessors, mem_predecessors]
    exact c.edges u hu v hv

theorem length_successors (c : g.Carries h σ) (hg : g.WellFormed) (hh : h.WellFormed) {v : String}
    (hv : v ∈ g.nodes) : (h.successors (σ v)).length = (g.successors v).length := by
  have perm : ((g.successors v).map σ).Perm (h.successors (σ v)) := by
    refine c.map_perm (successors_nodup hg v) (successors_nodup hh _) ?_ ?_ ?_
    · exact fun u hu => (hg.ends v u (mem_successors.mp hu)).2
    · exact fun u hu => (hh.ends _ u (mem_successors.mp hu)).2
    · intro u hu
      rw [mem_successors, mem_successors]
      exact c.edges v hv u hu
  rw [← perm.length_eq, List.length_map]

end Carries

end Digraph

namespace Importance
open Text
variable {g h : Digraph} {σ : String → String}

/-! One iteration on functions of the nodes. -/

theorem total_of_perm {xs ys : List ℚ} (perm : xs.Perm ys) : total xs = total ys := by
  rw [total_eq_sum, total_eq_sum, perm.sum_eq]

def degree (g : Digraph) (v : String) : Nat := (g.successors v).length

def idleMass (g : Digraph) (f : String → ℚ) : ℚ :=
  total (g.nodes.filterMap fun u => if degree g u = 0 then some (f u) else none)

def inflow (g : Digraph) (f : String → ℚ) (v : String) : ℚ :=
  total ((g.predecessors v).map fun u => f u / (degree g u : ℚ))

def spread (g : Digraph) (alpha : ℚ) (f : String → ℚ) (v : String) : ℚ :=
  (1 - alpha) / g.nodes.length + alpha * (idleMass g f / g.nodes.length + inflow g f v)

theorem danglingMass_map (g : Digraph) (f : String → ℚ) :
    danglingMass (Layout.ofGraph g) (g.nodes.map f) = idleMass g f := by
  have degrees : (Layout.ofGraph g).outDegree = g.nodes.map (degree g) := rfl
  rw [danglingMass, degrees, List.zip_map', List.filterMap_map, idleMass]
  rfl

theorem flow_map (hg : g.WellFormed) (f : String → ℚ) (v : String) :
    flow (Layout.ofGraph g) (g.nodes.map f) (sources g v) = inflow g f v := by
  rw [flow, sources, List.map_filterMap, inflow,
    ← List.filterMap_eq_map' (f := fun u => f u / (degree g u : ℚ))]
  congr 1
  refine List.filterMap_congr fun u hu => ?_
  -- an in-neighbour is a node, so it has a position, and there stand its score and its degree
  have known : u ∈ g.nodes := (hg.ends u v (Digraph.mem_predecessors.mp hu)).1
  obtain ⟨i, hi⟩ := List.mem_iff_getElem?.mp known
  have position := (idxOf?_eq_some_iff_getElem? hg.nodes_nodup).mpr hi
  have score : (g.nodes.map f).getD i ((0 : Nat) : ℚ) = f u := by simp [List.getD, hi]
  have share : (Layout.ofGraph g).outDegree.getD i 0 = degree g u := by
    simp [Layout.ofGraph, List.getD, hi, degree]
  rw [position, Option.map_some, score, share]

theorem next_map (hg : g.WellFormed) (alpha : ℚ) (f : String → ℚ) :
    next (Layout.ofGraph g) alpha (g.nodes.map f) = g.nodes.map (spread g alpha f) := by
  have size : (Layout.ofGraph g).incoming.length = g.nodes.length := List.length_map _
  rw [next_eq, size, ofGraph_incoming, List.map_map]
  refine List.map_congr_left fun v _ => ?_
  rw [Function.comp_apply, received, size, danglingMass_map, flow_map hg, spread]

/-! Two runs side by side. -/

/-- Scores of two graphs that are the same up to the renaming. -/
def Agree (g h : Digraph) (σ : String → String) (rank rank' : List ℚ) : Prop :=
  ∃ f f' : String → ℚ, rank = g.nodes.map f ∧ rank' = h.nodes.map f' ∧ ∀ v ∈ g.nodes, f' (σ v) = f v

section
variable (c : g.Carries h σ) (hg : g.WellFormed) (hh : h.WellFormed)
include c hg hh

theorem length_nodes_of_carries : h.nodes.length = g.nodes.length := by
  rw [← (c.nodes_perm hg hh).length_eq, List.length_map]

theorem spread_of_carries {f f' : String → ℚ} (same : ∀ v ∈ g.nodes, f' (σ v) = f v) (alpha : ℚ)
    {v : String} (hv : v ∈ g.nodes) : spread h alpha f' (σ v) = spread g alpha f v := by
  have degrees : ∀ u ∈ g.nodes, degree h (σ u) = degree g u := fun u => c.length_successors hg hh
  have idle : idleMass h f' = idleMass g f := by
    rw [idleMass, ← total_of_perm ((c.nodes_perm hg hh).filterMap _), List.filterMap_map, idleMass]
    congr 1
    refine List.filterMap_congr fun u hu => ?_
    rw [Function.comp_apply, degrees u hu, same u hu]
  have handed : inflow h f' (σ v) = inflow g f v := by
    rw [inflow, ← total_of_perm ((c.predecessors_perm hg hh hv).map _), List.map_map, inflow]
    congr 1
    refine List.map_congr_left fun u hu => ?_
    have known : u ∈ g.nodes := (hg.ends u v (Digraph.mem_predecessors.mp hu)).1
    rw [Function.comp_apply, degrees u known, same u known]
  rw [spread, spread, length_nodes_of_carries c hg hh, idle, handed]

/-- One iteration keeps the agreement, and changes both by the same amount. -/
theorem Agree.step {rank rank' : List ℚ} (agree : Agree g h σ rank rank') (alpha : ℚ) :
    Agree g h σ (next (Layout.ofGraph g) alpha rank) (next (Layout.ofGraph h) alpha rank') ∧
      change rank' (next (Layout.ofGraph h) alpha rank') =
        change rank (next (Layout.ofGraph g) alpha rank) := by
  obtain ⟨f, f', rfl, rfl, same⟩ := agree
  have after : ∀ v ∈ g.nodes, spread h alpha f' (σ v) = spread g alpha f v :=
    fun v => spread_of_carries c hg hh same alpha
  rw [next_map hg, next_map hh]
  refine ⟨⟨_, _, rfl, rfl, after⟩, ?_⟩
  rw [change_map, change_map, ← ((c.nodes_perm hg hh).map _).sum_eq, List.map_map]
  congr 1
  refine List.map_congr_left fun v hv => ?_
  rw [Function.comp_apply, after v hv, same v hv]

/-- Runs from scores that agree end together, with scores that agree. -/
theorem iterate_agree {rank rank' : List ℚ} (agree : Agree g h σ rank rank') (alpha limit : ℚ)
    (bound done : Nat) :
    let a := iterate (Layout.ofGraph g) alpha limit bound done rank
    let b := iterate (Layout.ofGraph h) alpha limit bound done rank'
    Agree g h σ a.rank b.rank ∧ b.iterations = a.iterations ∧ b.converged = a.converged := by
  induction bound generalizing done rank rank' with
  | zero => exact ⟨agree, rfl, rfl⟩
  | succ bound ih =>
    obtain ⟨later, changes⟩ := agree.step c hg hh alpha
    simp only [iterate, changes]
    by_cases small : change rank (next (Layout.ofGraph g) alpha rank) < limit
    · rw [if_pos small, if_pos small]
      exact ⟨later, rfl, rfl⟩
    · rw [if_neg small, if_neg small]
      exact ih later (done + 1)

theorem run_agree (alpha tolerance : ℚ) (maxIterations : Nat) :
    let a := run (Layout.ofGraph g) alpha tolerance maxIterations
    let b := run (Layout.ofGraph h) alpha tolerance maxIterations
    Agree g h σ a.rank b.rank ∧ b.iterations = a.iterations ∧ b.converged = a.converged := by
  have size (g : Digraph) : (Layout.ofGraph g).incoming.length = g.nodes.length := List.length_map _
  simp only [run, size, length_nodes_of_carries c hg hh]
  by_cases empty : g.nodes.length = 0
  · rw [if_pos empty, if_pos empty]
    have none' : h.nodes = [] := by
      rw [← List.length_eq_zero_iff, length_nodes_of_carries c hg hh, empty]
    have none : g.nodes = [] := List.length_eq_zero_iff.mp empty
    refine ⟨⟨fun _ => 0, fun _ => 0, ?_, ?_, fun _ _ => rfl⟩, rfl, rfl⟩
    · rw [none, List.map_nil]
    · rw [none', List.map_nil]
  · rw [if_neg empty, if_neg empty]
    let equal : String → ℚ := fun _ => ((1 : Nat) : ℚ) / (g.nodes.length : ℚ)
    have start :
        Agree g h σ (List.replicate g.nodes.length (((1 : Nat) : ℚ) / (g.nodes.length : ℚ)))
        (List.replicate g.nodes.length (((1 : Nat) : ℚ) / (g.nodes.length : ℚ))) := by
      refine ⟨equal, equal, List.map_const'.symm, ?_, fun _ _ => rfl⟩
      rw [List.map_const', length_nodes_of_carries c hg hh]
    exact iterate_agree c hg hh start _ _ _ _

end

/-! The ranking. -/

section
variable [Collator]

def precedes (a b : String × ℚ) : Bool :=
  if b.2 < a.2 then true else if a.2 < b.2 then false else (Collation.collate a.1 b.1).isLE

theorem precedes_iff {a b : String × ℚ} :
    precedes a b ↔ b.2 < a.2 ∨ a.2 = b.2 ∧ (Collation.collate a.1 b.1).isLE := by
  rw [precedes]
  rcases lt_trichotomy a.2 b.2 with less | same | more
  · simp [less, less.ne]
  · simp [same]
  · simp [more]

theorem precedes_total (a b : String × ℚ) : precedes a b || precedes b a := by
  rw [Bool.or_eq_true, precedes_iff, precedes_iff]
  rcases lt_trichotomy a.2 b.2 with less | same | more
  · exact .inr (.inl less)
  · rcases Bool.or_eq_true _ _ ▸ Collation.collate_total a.1 b.1 with le | le
    · exact .inl (.inr ⟨same, le⟩)
    · exact .inr (.inr ⟨same.symm, le⟩)
  · exact .inl (.inl more)

theorem precedes_trans {a b c : String × ℚ} (hab : precedes a b) (hbc : precedes b c) :
    precedes a c := by
  rw [precedes_iff] at *
  rcases hab with hab | ⟨hab, le⟩
  · rcases hbc with hbc | ⟨hbc, _⟩
    · exact .inl (hbc.trans hab)
    · exact .inl (hbc ▸ hab)
  · rcases hbc with hbc | ⟨hbc, le'⟩
    · exact .inl (hab ▸ hbc)
    · exact .inr ⟨hab.trans hbc, Collation.collate_isLE_trans le le'⟩

theorem ranking_eq_mergeSort (scores : List (String × ℚ)) :
    ranking scores = (scores.mergeSort precedes).map (·.1) := rfl

theorem mergeSort_precedes (scores : List (String × ℚ)) :
    (scores.mergeSort precedes).Pairwise fun a b => precedes a b := by
  apply List.pairwise_mergeSort
  · exact fun _ _ _ => precedes_trans
  · exact precedes_total

theorem ranking_perm (nodes : List String) (f : String → ℚ) :
    (ranking (nodes.map fun v => (v, f v))).Perm nodes := by
  rw [ranking_eq_mergeSort]
  have perm := (List.mergeSort_perm (nodes.map fun v => (v, f v)) precedes).map (·.1)
  rw [List.map_map] at perm
  exact perm.trans (List.Perm.of_eq (List.map_id nodes))

theorem ranking_descending (nodes : List String) (f : String → ℚ) :
    (ranking (nodes.map fun v => (v, f v))).Pairwise fun v w =>
      f w < f v ∨ f v = f w ∧ (Collation.collate v w).isLE := by
  rw [ranking_eq_mergeSort, List.pairwise_map]
  refine (mergeSort_precedes _).imp_of_mem ?_
  intro a b ha hb before
  obtain ⟨v, _, rfl⟩ := List.mem_map.mp (List.mem_mergeSort.mp ha)
  obtain ⟨w, _, rfl⟩ := List.mem_map.mp (List.mem_mergeSort.mp hb)
  exact precedes_iff.mp before

/-- A ranking forgets in which order the scores were listed, if no two names collate as equal. -/
theorem ranking_eq_of_perm {xs ys : List (String × ℚ)} (perm : xs.Perm ys)
    (settled : ∀ a ∈ xs, ∀ b ∈ xs, Collation.collate a.1 b.1 = .eq → a = b) :
    ranking xs = ranking ys := by
  rw [ranking_eq_mergeSort, ranking_eq_mergeSort]
  congr 1
  refine List.Perm.eq_of_pairwise ?_ (mergeSort_precedes xs) (mergeSort_precedes ys)
    ((List.mergeSort_perm xs _).trans (perm.trans (List.mergeSort_perm ys _).symm))
  intro a b ha hb hab hba
  have ha := List.mem_mergeSort.mp ha
  have hb := perm.mem_iff.mpr (List.mem_mergeSort.mp hb)
  rw [precedes_iff] at hab hba
  rcases hab with more | ⟨same, le⟩
  · rcases hba with more' | ⟨same', _⟩
    · exact absurd more' more.asymm
    · exact absurd same' more.ne
  · rcases hba with more' | ⟨_, le'⟩
    · exact absurd same more'.ne
    · exact settled a ha b hb (Collation.collate_eq_of_isLE le le')

end

/-! Scores and their nodes. -/

theorem zip_map_self (nodes : List String) (f : String → ℚ) :
    nodes.zip (nodes.map f) = nodes.map fun v => (v, f v) := by
  have own : (nodes.map id).zip (nodes.map f) = nodes.map fun v => (v, f v) := List.zip_map'
  rwa [List.map_id] at own

/-- What two runs on graphs that differ by a renaming tell of their nodes. -/
theorem scores_of_carries (c : g.Carries h σ) (hg : g.WellFormed) (hh : h.WellFormed)
    (s : Settings ℚ) (verbose : Bool) (log : List Log.Entry) :
    let a := (computeWith g s verbose).value log
    let b := (computeWith h s verbose).value log
    (∃ f f' : String → ℚ, a.scores = g.nodes.map (fun v => (v, f v)) ∧
      b.scores = h.nodes.map (fun v => (v, f' v)) ∧ ∀ v ∈ g.nodes, f' (σ v) = f v) ∧
      b.iterations = a.iterations ∧ b.converged = a.converged := by
  obtain ⟨⟨f, f', rank, rank', same⟩, ends⟩ := run_agree c hg hh s.alpha s.tolerance s.maxIterations
  simp only [computeWith_value]
  refine ⟨⟨f, f', ?_, ?_, same⟩, ends⟩
  · rw [rank, zip_map_self]
  · rw [rank', zip_map_self]

/-- The order in which nodes and edges were added shows in the order of the scores only. -/
theorem scores_perm_of_same (same : g.Same h) (hg : g.WellFormed) (hh : h.WellFormed)
    (s : Settings ℚ) (verbose : Bool) (log : List Log.Entry) :
    ((computeWith h s verbose).value log).scores.Perm
      ((computeWith g s verbose).value log).scores := by
  obtain ⟨⟨f, f', scores, scores', equal⟩, _⟩ := scores_of_carries same.carries hg hh s verbose log
  have nodes : g.nodes.Perm h.nodes := by simpa using same.carries.nodes_perm hg hh
  have pairs : g.nodes.map (fun v => (v, f' v)) = g.nodes.map fun v => (v, f v) :=
    List.map_congr_left fun v hv => by rw [← equal v hv, id]
  rw [scores, scores', ← pairs]
  exact (nodes.map _).symm

open scoped Text.Alphabet

def fork : Digraph := ⟨["a", "b", "c", "d"], [("a", "c"), ("b", "c"), ("d", "d")]⟩

def forkBackwards : Digraph := ⟨fork.nodes.reverse, fork.edges.reverse⟩

def forkPrimed : Digraph := ⟨["d'", "b'", "c'", "a'"], [("d'", "d'"), ("b'", "c'"), ("a'", "c'")]⟩

def exchange (v : String) : String := if v = "a" then "b" else if v = "b" then "a" else v

end Importance

end RepoAtlas
