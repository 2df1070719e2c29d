import Mathlib.Algebra.BigOperators.Ring.Finset
import Mathlib.Algebra.BigOperators.Ring.List
import Mathlib.Algebra.Order.BigOperators.Group.Finset
import Mathlib.Algebra.Order.BigOperators.Group.List
import Mathlib.Algebra.Order.Field.Rat
import Mathlib.Data.List.GetD
import Mathlib.Order.Interval.Finset.Nat
import Mathlib.Tactic.Linarith
import Mathlib.Tactic.Ring
import RepoAtlas.Graph.Importance
import RepoAtlas.Proofs.Graph.Reach
import RepoAtlas.Proofs.Log

/-!
Importance over the rationals. Each node is listed as an in-neighbour as often as its out-degree
says, so the shares it hands out add up to what it has. One iteration therefore keeps the sum of the
scores, and so does every run of the loop. Floating-point rounding is not covered.
-/
namespace RepoAtlas.Digraph

theorem length_successors (g : Digraph) (u : String) :
    (g.successors u).length = g.edges.countP fun e => e.1 = u := by
  rw [successors, List.length_filterMap_eq_countP]
  refine List.countP_congr fun e _ => ?_
  by_cases h : e.1 = u <;> simp [h]

theorem count_predecessors (g : Digraph) (u v : String) :
    (g.predecessors v).count u = g.edges.count (u, v) := by
  rw [predecessors, List.count_filterMap, List.count_eq_countP]
  refine List.countP_congr fun e _ => ?_
  by_cases h : e.2 = v <;> simp [h, Prod.ext_iff]

theorem predecessors_nodup (g : Digraph) (h : g.WellFormed) (v : String) :
    (g.predecessors v).Nodup := by
  refine List.nodup_iff_count_le_one.mpr fun u => ?_
  rw [count_predecessors]
  exact List.nodup_iff_count_le_one.mp h.edges_nodup (u, v)

/-- Over all nodes, a node is listed as a predecessor once for each edge out of it. -/
theorem count_flatMap_predecessors {g : Digraph} (h : g.WellFormed) (u : String) :
    (g.nodes.flatMap g.predecessors).count u = (g.successors u).length := by
  have ends : ∀ e ∈ g.edges, e.2 ∈ g.nodes := fun e he => (h.ends e.1 e.2 he).2
  rw [length_successors, List.count_flatMap]
  simp only [Function.comp_def, count_predecessors]
  generalize g.edges = es at ends
  induction es with
  | nil => simp
  | cons e es ih =>
    -- the new edge is counted at its target, and there only
    have target : (g.nodes.map fun v => if e = (u, v) then 1 else 0).sum =
        if e.1 = u then 1 else 0 := by
      have known : e.2 ∈ g.nodes.toFinset := List.mem_toFinset.mpr (ends e (by simp))
      rw [← List.sum_toFinset _ h.nodes_nodup]
      by_cases source : e.1 = u
      · simp [Prod.ext_iff, source, known]
      · simp [Prod.ext_iff, source]
    simp only [List.count_cons, List.countP_cons, beq_iff_eq, decide_eq_true_eq, List.sum_map_add,
      target, ih fun e' he => ends e' (List.mem_cons_of_mem _ he)]

end RepoAtlas.Digraph

namespace RepoAtlas.Importance

/-- Every node is listed as a source as often as its out-degree says. -/
structure Layout.Balanced (l : Layout) : Prop where
  size : l.outDegree.length = l.incoming.length
  count : ∀ i, l.incoming.flatten.count i = l.outDegree.getD i 0

theorem idxOf?_eq_some_iff_getElem? {nodes : List String} (h : nodes.Nodup) {u : String} {i : Nat} :
    nodes.idxOf? u = some i ↔ nodes[i]? = some u := by
  rw [List.idxOf?_eq_some_iff, List.getElem?_eq_some_iff]
  constructor
  · rintro ⟨hi, hu, _⟩
    exact ⟨hi, hu⟩
  · rintro ⟨hi, rfl⟩
    refine ⟨hi, rfl, fun j hj same => ?_⟩
    exact absurd (h.getElem_inj_iff.mp same) (Nat.ne_of_lt hj)

theorem Layout.ofGraph_balanced {g : Digraph} (h : g.WellFormed) : (Layout.ofGraph g).Balanced := by
  refine ⟨by simp [ofGraph], fun i => ?_⟩
  have flat : (ofGraph g).incoming.flatten =
      (g.nodes.flatMap g.predecessors).filterMap fun u => g.nodes.idxOf? u := by
    rw [ofGraph, List.flatMap_def, List.filterMap_flatten, List.map_map]
    rfl
  rw [flat, List.count_filterMap]
  by_cases hi : i < g.nodes.length
  · have node : ∀ u, (g.nodes.idxOf? u == some i) = (u == g.nodes[i]) := by
      intro u
      rw [Bool.eq_iff_iff, beq_iff_eq, beq_iff_eq, idxOf?_eq_some_iff_getElem? h.nodes_nodup,
        List.getElem?_eq_getElem hi, Option.some_inj, eq_comm]
    simp only [node, ← List.count_eq_countP, Digraph.count_flatMap_predecessors h]
    simp [ofGraph, hi]
  · have missing : ∀ u, (g.nodes.idxOf? u == some i) = false := by
      intro u
      rw [beq_eq_false_iff_ne, ne_eq, idxOf?_eq_some_iff_getElem? h.nodes_nodup]
      simp [hi]
    simp [missing, ofGraph, hi]

theorem Layout.Balanced.degree_pos {l : Layout} (h : l.Balanced) {sources : List Nat}
    (hs : sources ∈ l.incoming) {i : Nat} (hi : i ∈ sources) : 1 ≤ l.outDegree.getD i 0 := by
  rw [← h.count i]
  exact List.one_le_count_iff.mpr (List.mem_flatten.mpr ⟨sources, hs, hi⟩)

def Layout.dangling (l : Layout) : List Nat :=
  (List.range l.outDegree.length).filter fun i => l.outDegree.getD i 0 = 0

theorem total_eq_sum (xs : List ℚ) : total xs = xs.sum := by
  rw [total, Nat.cast_zero, List.sum_eq_foldl]

theorem eq_map_range {α : Type} (xs : List α) (d : α) :
    xs = (List.range xs.length).map fun i => xs.getD i d := by
  refine List.ext_getElem (by simp) fun i hi _ => ?_
  rw [List.getElem_map, List.getElem_range, List.getD_eq_getElem _ _ hi]

theorem danglingMass_eq {l : Layout} {rank : List ℚ} (h : rank.length = l.outDegree.length) :
    danglingMass l rank = (l.dangling.map fun i => rank.getD i 0).sum := by
  have pairs : rank.zip l.outDegree = (List.range l.outDegree.length).map fun i =>
      (rank.getD i 0, l.outDegree.getD i 0) := by
    rw [← List.zip_map', ← h, ← eq_map_range, h, ← eq_map_range]
  rw [danglingMass, total_eq_sum, pairs, List.filterMap_map, Layout.dangling,
    ← List.filterMap_eq_filter, List.map_filterMap]
  congr 2
  funext i
  simp [Option.guard]

theorem flow_eq (l : Layout) (rank : List ℚ) (sources : List Nat) : flow l rank sources =
    (sources.map fun i => rank.getD i 0 / (l.outDegree.getD i 0 : Nat)).sum := by
  rw [flow, total_eq_sum, Nat.cast_zero]

theorem danglingMass_eq_sum_range {l : Layout} {rank : List ℚ}
    (h : rank.length = l.outDegree.length) : danglingMass l rank =
      ∑ i ∈ Finset.range rank.length, if l.outDegree.getD i 0 = 0 then rank.getD i 0 else 0 := by
  have nodup : l.dangling.Nodup := List.nodup_range.filter _
  rw [danglingMass_eq h, ← List.sum_toFinset _ nodup, Layout.dangling, List.toFinset_filter,
    List.toFinset_range, Finset.sum_filter, h]
  simp only [decide_eq_true_eq]

/-- Each in-neighbour is counted as often as its out-degree says, which makes up for the shares. -/
theorem sum_flows_eq_sum_range {l : Layout} (h : l.Balanced) {rank : List ℚ}
    (hr : rank.length = l.outDegree.length) : (l.incoming.map (flow l rank)).sum =
      ∑ i ∈ Finset.range rank.length, if l.outDegree.getD i 0 = 0 then 0 else rank.getD i 0 := by
  have together : (l.incoming.map (flow l rank)).sum = (l.incoming.flatten.map fun i =>
      rank.getD i 0 / (l.outDegree.getD i 0 : Nat)).sum := by
    rw [List.map_flatten, List.sum_flatten, List.map_map]
    exact congrArg List.sum (List.map_congr_left fun sources _ => flow_eq l rank sources)
  have known : l.incoming.flatten.toFinset ⊆ Finset.range rank.length := by
    intro i hi
    rw [List.mem_toFinset, ← List.count_pos_iff, h.count] at hi
    rw [Finset.mem_range, hr]
    by_contra outside
    rw [List.getD_eq_default _ _ (not_lt.mp outside)] at hi
    exact Nat.lt_irrefl 0 hi
  rw [together, Finset.sum_list_map_count, Finset.sum_subset known]
  · refine Finset.sum_congr rfl fun i _ => ?_
    rw [h.count, nsmul_eq_mul]
    split
    case isTrue zero => rw [zero, Nat.cast_zero, zero_mul]
    case isFalse pos => exact mul_div_cancel₀ _ (Nat.cast_ne_zero.mpr pos)
  · intro i _ hi
    rw [List.mem_toFinset] at hi
    rw [List.count_eq_zero_of_not_mem hi, zero_nsmul]

/-- What a node is handed in one iteration: shares of its in-neighbours, and of the nodes that
depend on nothing. -/
def received (l : Layout) (rank : List ℚ) (sources : List Nat) : ℚ :=
  danglingMass l rank / l.incoming.length + flow l rank sources

theorem next_eq (l : Layout) (alpha : ℚ) (rank : List ℚ) :
    next l alpha rank = l.incoming.map fun sources =>
      (1 - alpha) / l.incoming.length + alpha * received l rank sources := by
  rw [next]
  refine List.map_congr_left fun sources _ => ?_
  rw [received, Nat.cast_one]
  ring

@[simp] theorem length_next (l : Layout) (alpha : ℚ) (rank : List ℚ) :
    (next l alpha rank).length = l.incoming.length := List.length_map _

theorem length_incoming_ne_zero {l : Layout} (hne : l.incoming ≠ []) :
    (l.incoming.length : ℚ) ≠ 0 :=
  Nat.cast_ne_zero.mpr (mt List.length_eq_zero_iff.mp hne)

/-- All nodes together hand out what they have, so nothing is lost. -/
theorem sum_received {l : Layout} (h : l.Balanced) (hne : l.incoming ≠ []) {rank : List ℚ}
    (hr : rank.length = l.incoming.length) : (l.incoming.map (received l rank)).sum = rank.sum := by
  have size : rank.length = l.outDegree.length := hr.trans h.size.symm
  have nodes := length_incoming_ne_zero hne
  have all : rank.sum = ∑ i ∈ Finset.range rank.length, rank.getD i 0 := by
    rw [← List.toFinset_range, List.sum_toFinset _ List.nodup_range, ← eq_map_range]
  have split : (l.incoming.map (received l rank)).sum =
      danglingMass l rank + (l.incoming.map (flow l rank)).sum := by
    unfold received
    rw [List.sum_map_add, List.map_const', List.sum_replicate, nsmul_eq_mul,
      mul_div_cancel₀ _ nodes]
  rw [split, danglingMass_eq_sum_range size, sum_flows_eq_sum_range h size, all,
    ← Finset.sum_add_distrib]
  refine Finset.sum_congr rfl fun i _ => ?_
  split
  · exact add_zero _
  · exact zero_add _

theorem sum_next {l : Layout} (h : l.Balanced) (hne : l.incoming ≠ []) {rank : List ℚ}
    (hr : rank.length = l.incoming.length) (alpha : ℚ) :
    (next l alpha rank).sum = 1 - alpha + alpha * rank.sum := by
  have nodes := length_incoming_ne_zero hne
  rw [next_eq, List.sum_map_add, List.sum_map_mul_left, List.map_const', List.sum_replicate,
    nsmul_eq_mul, mul_div_cancel₀ _ nodes, sum_received h hne hr]

theorem getD_nonneg {rank : List ℚ} (h : ∀ r ∈ rank, 0 ≤ r) (i : Nat) : 0 ≤ rank.getD i 0 := by
  by_cases hi : i < rank.length
  · rw [List.getD_eq_getElem _ _ hi]
    exact h _ (List.getElem_mem hi)
  · rw [List.getD_eq_default _ _ (not_lt.mp hi)]

theorem received_nonneg {l : Layout} {rank : List ℚ} (hr : rank.length = l.outDegree.length)
    (h : ∀ r ∈ rank, 0 ≤ r) (sources : List Nat) : 0 ≤ received l rank sources := by
  have dangling : 0 ≤ danglingMass l rank := by
    rw [danglingMass_eq hr]
    exact List.sum_nonneg (List.forall_mem_map.mpr fun i _ => getD_nonneg h i)
  have shares : 0 ≤ flow l rank sources := by
    rw [flow_eq]
    refine List.sum_nonneg (List.forall_mem_map.mpr fun i _ => ?_)
    exact div_nonneg (getD_nonneg h i) (Nat.cast_nonneg _)
  exact add_nonneg (div_nonneg dangling (Nat.cast_nonneg _)) shares

theorem received_le_of_subset (l : Layout) {rank : List ℚ} (h : ∀ r ∈ rank, 0 ≤ r)
    {sources more : List Nat} (nodup : sources.Nodup) (nodup' : more.Nodup) (sub : sources ⊆ more) :
    received l rank sources ≤ received l rank more := by
  apply add_le_add_right
  rw [flow_eq, flow_eq, ← List.sum_toFinset _ nodup, ← List.sum_toFinset _ nodup']
  refine Finset.sum_le_sum_of_subset_of_nonneg ?_ fun i _ _ => ?_
  · exact fun i hi => List.mem_toFinset.mpr (sub (List.mem_toFinset.mp hi))
  · exact div_nonneg (getD_nonneg h i) (Nat.cast_nonneg _)

/-- Scores that share out one unit of mass, each with at least its part of what is spread evenly. -/
structure Distribution (n : Nat) (alpha : ℚ) (rank : List ℚ) : Prop where
  length : rank.length = n
  total : total rank = 1
  least : ∀ r ∈ rank, (1 - alpha) / n ≤ r
  most : ∀ r ∈ rank, r ≤ 1

theorem nonneg_of_least {n : Nat} {alpha : ℚ} {rank : List ℚ} (h1 : alpha ≤ 1)
    (least : ∀ r ∈ rank, (1 - alpha) / n ≤ r) : ∀ r ∈ rank, 0 ≤ r := by
  intro r hr
  have even : 0 ≤ (1 - alpha) / n := div_nonneg (sub_nonneg.mpr h1) (Nat.cast_nonneg n)
  exact even.trans (least r hr)

/-- Scores that sum to one stay below one if none is negative. -/
theorem Distribution.of_least {n : Nat} {alpha : ℚ} {rank : List ℚ} (h1 : alpha ≤ 1)
    (length : rank.length = n) (sum : rank.sum = 1) (least : ∀ r ∈ rank, (1 - alpha) / n ≤ r) :
    Distribution n alpha rank := by
  refine ⟨length, (total_eq_sum rank).trans sum, least, fun r hr => ?_⟩
  exact sum ▸ List.single_le_sum (nonneg_of_least h1 least) r hr

def equalRanks (n : Nat) : List ℚ := List.replicate n (1 / n)

theorem sum_equalRanks {n : Nat} (hn : (n : ℚ) ≠ 0) : (equalRanks n).sum = 1 := by
  rw [equalRanks, List.sum_replicate, nsmul_eq_mul, mul_div_cancel₀ _ hn]

theorem Distribution.equalRanks {n : Nat} (hn : (n : ℚ) ≠ 0) {alpha : ℚ} (h0 : 0 ≤ alpha)
    (h1 : alpha ≤ 1) : Distribution n alpha (equalRanks n) := by
  refine .of_least h1 List.length_replicate (sum_equalRanks hn) fun r hr => ?_
  rw [List.eq_of_mem_replicate hr]
  gcongr
  linarith

/-- The step of the iteration: one unit of mass stays one unit, and every node gets its part of what
is spread evenly. -/
theorem Distribution.next {l : Layout} (h : l.Balanced) {alpha : ℚ} (h0 : 0 ≤ alpha)
    (h1 : alpha ≤ 1) (hne : l.incoming ≠ []) {rank : List ℚ}
    (hr : Distribution l.incoming.length alpha rank) :
    Distribution l.incoming.length alpha (next l alpha rank) := by
  have nonneg := nonneg_of_least h1 hr.least
  have sum : rank.sum = 1 := (total_eq_sum rank).symm.trans hr.total
  refine .of_least h1 (length_next ..) ?_ ?_
  · rw [sum_next h hne hr.length, sum]
    ring
  · rw [next_eq]
    refine List.forall_mem_map.mpr fun sources _ => le_add_of_nonneg_right (mul_nonneg h0 ?_)
    exact received_nonneg (hr.length.trans h.size.symm) nonneg sources

def ranksAfter (l : Layout) (alpha : ℚ) (k : Nat) : List ℚ :=
  (next l alpha)^[k] (equalRanks l.incoming.length)

theorem ranksAfter_succ (l : Layout) (alpha : ℚ) (k : Nat) :
    ranksAfter l alpha (k + 1) = next l alpha (ranksAfter l alpha k) :=
  Function.iterate_succ_apply' ..

theorem length_ranksAfter (l : Layout) (alpha : ℚ) (k : Nat) :
    (ranksAfter l alpha k).length = l.incoming.length := by
  cases k with
  | zero => exact List.length_replicate
  | succ k => rw [ranksAfter_succ, length_next]

theorem ranksAfter_distribution {l : Layout} (h : l.Balanced) (hne : l.incoming ≠ []) {alpha : ℚ}
    (h0 : 0 ≤ alpha) (h1 : alpha ≤ 1) (k : Nat) :
    Distribution l.incoming.length alpha (ranksAfter l alpha k) := by
  induction k with
  | zero => exact .equalRanks (length_incoming_ne_zero hne) h0 h1
  | succ k ih =>
    rw [ranksAfter_succ]
    exact ih.next h h0 h1 hne

def changeAfter (l : Layout) (alpha : ℚ) (k : Nat) : ℚ :=
  change (ranksAfter l alpha k) (ranksAfter l alpha (k + 1))

/-! The loop. -/

/-- How the loop can end that has `done` iterations behind it and so many ahead: after the first
small change, or with none left. -/
structure Ends (l : Layout) (alpha limit : ℚ) (bound done : Nat) (out : Outcome ℚ) : Prop where
  rank : out.rank = ranksAfter l alpha out.iterations
  within : out.iterations ≤ done + bound
  earlier : ∀ k, done ≤ k → k + 1 < out.iterations → limit ≤ changeAfter l alpha k
  small : out.converged = true →
    ∃ k, done ≤ k ∧ out.iterations = k + 1 ∧ changeAfter l alpha k < limit
  exhausted : out.converged = false → out.iterations = done + bound ∧
    ∀ k, done ≤ k → k < done + bound → limit ≤ changeAfter l alpha k

theorem iterate_ends (l : Layout) (alpha limit : ℚ) (bound done : Nat) :
    Ends l alpha limit bound done (iterate l alpha limit bound done (ranksAfter l alpha done)) := by
  induction bound generalizing done with
  | zero =>
    refine ⟨rfl, Nat.le_refl _, ?_, nofun, fun _ => ⟨rfl, ?_⟩⟩
    · intro k hk (hlt : k + 1 < done)
      omega
    · intro k hk hlt
      omega
  | succ bound ih =>
    rw [iterate, ← ranksAfter_succ]
    split
    case isTrue small =>
      refine ⟨rfl, Nat.add_le_add_left (Nat.le_add_left 1 bound) done, ?_,
        fun _ => ⟨done, Nat.le_refl _, rfl, small⟩, nofun⟩
      intro k hk (hlt : k + 1 < done + 1)
      omega
    case isFalse large =>
      have here : limit ≤ changeAfter l alpha done := not_lt.mp large
      obtain ⟨rank, within, earlier, small, exhausted⟩ := ih (done + 1)
      refine ⟨rank, by omega, ?_, ?_, ?_⟩
      · intro k hk hlt
        rcases Nat.eq_or_lt_of_le hk with rfl | hk
        · exact here
        · exact earlier k hk hlt
      · intro converged
        obtain ⟨k, hk, last, hsmall⟩ := small converged
        exact ⟨k, by omega, last, hsmall⟩
      · intro converged
        obtain ⟨last, hlarge⟩ := exhausted converged
        refine ⟨by omega, fun k hk hlt => ?_⟩
        rcases Nat.eq_or_lt_of_le hk with rfl | hk
        · exact here
        · exact hlarge k hk (by omega)

theorem run_ends (l : Layout) (alpha tolerance : ℚ) (maxIterations : Nat) (hne : l.incoming ≠ []) :
    Ends l alpha (l.incoming.length * tolerance) maxIterations 0
      (run l alpha tolerance maxIterations) := by
  rw [run, if_neg (mt List.length_eq_zero_iff.mp hne), Nat.cast_one]
  exact iterate_ends ..

structure Settings.Valid (s : Settings ℚ) : Prop where
  alpha_nonneg : 0 ≤ s.alpha
  alpha_le : s.alpha ≤ 1
  maxIterations_pos : 1 ≤ s.maxIterations
  tolerance_pos : 0 < s.tolerance

def sources (g : Digraph) (v : String) : List Nat :=
  (g.predecessors v).filterMap fun u => g.nodes.idxOf? u

theorem ofGraph_incoming (g : Digraph) : (Layout.ofGraph g).incoming = g.nodes.map (sources g) :=
  rfl

theorem incoming_ne_nil {g : Digraph} (h : g.nodes ≠ []) : (Layout.ofGraph g).incoming ≠ [] := by
  intro empty
  exact h (List.map_eq_nil_iff.mp empty)

theorem sources_nodup {g : Digraph} (h : g.WellFormed) (v : String) : (sources g v).Nodup := by
  refine (g.predecessors_nodup h v).filterMap fun u u' i hu hu' => ?_
  rw [Option.mem_def, idxOf?_eq_some_iff_getElem? h.nodes_nodup] at hu hu'
  exact Option.some_inj.mp (hu.symm.trans hu')

theorem sources_subset {g : Digraph} {v w : String} (h : ∀ u, g.Edge u v → g.Edge u w) :
    sources g v ⊆ sources g w := by
  intro i hi
  obtain ⟨u, hu, found⟩ := List.mem_filterMap.mp hi
  rw [Digraph.mem_predecessors] at hu
  exact List.mem_filterMap.mpr ⟨u, Digraph.mem_predecessors.mpr (h u hu), found⟩

theorem score_le_of_edges {g : Digraph} (h : g.WellFormed) {alpha : ℚ} (h0 : 0 ≤ alpha)
    {rank : List ℚ} (nonneg : ∀ r ∈ rank, 0 ≤ r) {v w : String} {x y : ℚ}
    (hv : (v, x) ∈ g.nodes.zip (next (Layout.ofGraph g) alpha rank))
    (hw : (w, y) ∈ g.nodes.zip (next (Layout.ofGraph g) alpha rank))
    (sub : ∀ u, g.Edge u v → g.Edge u w) : x ≤ y := by
  have pairs : ∀ f : List Nat → ℚ, g.nodes.zip ((Layout.ofGraph g).incoming.map f) =
      g.nodes.map fun v => (v, f (sources g v)) := by
    intro f
    rw [ofGraph_incoming, List.map_map]
    simpa using List.zip_map' (f := id) (g := f ∘ sources g) (l := g.nodes)
  rw [next_eq, pairs] at hv hw
  obtain ⟨v, _, ev⟩ := List.mem_map.mp hv
  obtain ⟨w, _, ew⟩ := List.mem_map.mp hw
  cases ev
  cases ew
  have more := received_le_of_subset (Layout.ofGraph g) nonneg (sources_nodup h v)
    (sources_nodup h w) (sources_subset sub)
  gcongr

theorem computeWith_value (g : Digraph) (s : Settings ℚ) (verbose : Bool) (log : List Log.Entry) :
    (computeWith g s verbose).value log =
      let out := run (Layout.ofGraph g) s.alpha s.tolerance s.maxIterations
      ⟨g.nodes.zip out.rank, out.iterations, out.converged⟩ := rfl

/-- The scores stay a distribution in every iteration, no share is divided by zero, and the result
is what the last iteration leaves: nodes with more in-neighbours score no less, and only a change
that is still large when the iterations are used up goes without convergence. -/
theorem scores_stay_distributed (g : Digraph) (h : g.WellFormed) (hne : g.nodes ≠ [])
    (s : Settings ℚ) (valid : s.Valid) (verbose : Bool) (log : List Log.Entry) :
    let l := Layout.ofGraph g
    let n := g.nodes.length
    let result := (computeWith g s verbose).value log
    (∀ k, Distribution n s.alpha (ranksAfter l s.alpha k)) ∧
      (1 ≤ n ∧ ∀ sources ∈ l.incoming, ∀ i ∈ sources, 1 ≤ l.outDegree.getD i 0) ∧
      result.scores = g.nodes.zip (ranksAfter l s.alpha result.iterations) ∧
      (∀ v x w y, (v, x) ∈ result.scores → (w, y) ∈ result.scores →
        (∀ u, g.Edge u v → g.Edge u w) → x ≤ y) ∧
      1 ≤ result.iterations ∧ result.iterations ≤ s.maxIterations ∧
      (result.converged = false → result.iterations = s.maxIterations ∧
        n * s.tolerance ≤ changeAfter l s.alpha (result.iterations - 1)) := by
  intro l n result
  have balanced := Layout.ofGraph_balanced h
  have size : l.incoming.length = n := List.length_map _
  have nonempty : l.incoming ≠ [] := incoming_ne_nil hne
  have ranks := ranksAfter_distribution balanced nonempty valid.alpha_nonneg valid.alpha_le
  obtain ⟨rank, within, _, small, exhausted⟩ :=
    run_ends l s.alpha s.tolerance s.maxIterations nonempty
  rw [Nat.zero_add] at within exhausted
  have scores : result.scores = g.nodes.zip (ranksAfter l s.alpha result.iterations) :=
    congrArg _ rank
  -- either the last change was small, or the iterations, of which there is one, are used up
  obtain ⟨k, last⟩ : ∃ k, result.iterations = k + 1 := by
    cases converged : result.converged with
    | true =>
      obtain ⟨k, _, last, _⟩ := small converged
      exact ⟨k, last⟩
    | false =>
      have all : result.iterations = s.maxIterations := (exhausted converged).1
      have positive := valid.maxIterations_pos
      exact ⟨s.maxIterations - 1, by omega⟩
  rw [← size]
  refine ⟨ranks, ⟨List.length_pos_iff.mpr nonempty, fun sources hs i => balanced.degree_pos hs⟩,
    scores, ?_, by omega, within, ?_⟩
  · intro v x w y hv hw sub
    rw [scores, last, ranksAfter_succ] at hv hw
    exact score_le_of_edges h valid.alpha_nonneg
      (nonneg_of_least valid.alpha_le (ranks k).least) hv hw sub
  · intro converged
    have all : result.iterations = s.maxIterations := (exhausted converged).1
    exact ⟨all, (exhausted converged).2 _ (Nat.zero_le _) (by omega)⟩

def looped : Digraph := ⟨["a", "b", "c"], [("a", "b"), ("c", "c"), ("c", "b")]⟩

def oneHalf : Settings ℚ := ⟨1 / 2, 1, 1 / 100⟩

theorem looped_scores_stay_distributed :
    looped.WellFormed ∧ looped.nodes ≠ [] ∧ oneHalf.Valid ∧
      Distribution 3 (1 / 2) (ranksAfter (Layout.ofGraph looped) (1 / 2) 1) ∧
      ((computeWith looped oneHalf false).value []).scores =
        [("a", 2 / 9), ("b", 17 / 36), ("c", 11 / 36)] ∧ (11 : ℚ) / 36 ≤ 17 / 36 := by
  have valid : oneHalf.Valid := ⟨by decide +kernel, by decide +kernel, by decide, by decide +kernel⟩
  have scores : ((computeWith looped oneHalf false).value []).scores =
      [("a", 2 / 9), ("b", 17 / 36), ("c", 11 / 36)] := by decide +kernel
  obtain ⟨ranks, _, _, ordered, _⟩ :=
    scores_stay_distributed looped (by decide) (by decide) oneHalf valid false []
  refine ⟨by decide, by decide, valid, ranks 1, scores, ?_⟩
  exact ordered "c" _ "b" _ (by simp [scores]) (by simp [scores]) (by simp [Digraph.Edge, looped])

end RepoAtlas.Importance
