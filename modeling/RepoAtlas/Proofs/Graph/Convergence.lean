import Mathlib.Algebra.Order.Field.Basic
import RepoAtlas.Proofs.Graph.Importance

/-!
Convergence of the scores over the rationals. What a node is handed is linear in the scores, so one
iteration shrinks the distance of any two lists of scores by the part that is handed on. The changes
of a run then fall geometrically, and the default bound on iterations is never what ends it.
-/
namespace RepoAtlas.Importance

theorem distance_eq_abs (a b : ℚ) : distance a b = |a - b| := by
  rw [distance]
  split
  case isTrue h => rw [abs_of_pos (sub_pos.mpr h)]
  case isFalse h => rw [abs_sub_comm, abs_of_nonneg (sub_nonneg.mpr (not_lt.mp h))]

def gaps (rank rank' : List ℚ) : List ℚ := (rank'.zip rank).map fun p => |p.1 - p.2|

theorem change_eq (rank rank' : List ℚ) : change rank rank' = (gaps rank rank').sum := by
  simp only [change, total_eq_sum, gaps, distance_eq_abs]

theorem change_map {α : Type} (xs : List α) (f f' : α → ℚ) :
    change (xs.map f) (xs.map f') = (xs.map fun x => |f' x - f x|).sum := by
  rw [change_eq, gaps, List.zip_map', List.map_map]
  rfl

theorem length_gaps {rank rank' : List ℚ} (h : rank.length = rank'.length) :
    (gaps rank rank').length = rank.length := by
  simp [gaps, h]

theorem getD_gaps {rank rank' : List ℚ} (h : rank.length = rank'.length) (i : Nat) :
    (gaps rank rank').getD i 0 = |rank'.getD i 0 - rank.getD i 0| := by
  by_cases hi : i < rank.length
  · have hi' : i < rank'.length := h ▸ hi
    rw [List.getD_eq_getElem _ _ ((length_gaps h).symm ▸ hi), List.getD_eq_getElem _ _ hi,
      List.getD_eq_getElem _ _ hi']
    simp [gaps]
  · have out := not_lt.mp hi
    rw [List.getD_eq_default _ _ ((length_gaps h).symm ▸ out), List.getD_eq_default _ _ out,
      List.getD_eq_default _ _ (h ▸ out), sub_zero, abs_zero]

theorem abs_sum_sub_sum_le (xs : List Nat) (f f' : Nat → ℚ) :
    |(xs.map f').sum - (xs.map f).sum| ≤ (xs.map fun x => |f' x - f x|).sum := by
  induction xs with
  | nil => simp
  | cons x xs ih =>
    simp only [List.map_cons, List.sum_cons, add_sub_add_comm]
    exact (abs_add_le _ _).trans (add_le_add_right ih _)

/-- What a node is handed changes by no more than what it would be handed of the changes. -/
theorem received_gap {l : Layout} {rank rank' : List ℚ} (hr : rank.length = l.outDegree.length)
    (hr' : rank'.length = l.outDegree.length) (sources : List Nat) :
    |received l rank' sources - received l rank sources| ≤
      received l (gaps rank rank') sources := by
  have same := hr.trans hr'.symm
  have dangling : |danglingMass l rank' - danglingMass l rank| ≤
      danglingMass l (gaps rank rank') := by
    rw [danglingMass_eq hr, danglingMass_eq hr', danglingMass_eq ((length_gaps same).trans hr)]
    simp only [getD_gaps same]
    exact abs_sum_sub_sum_le ..
  have shares : |flow l rank' sources - flow l rank sources| ≤
      flow l (gaps rank rank') sources := by
    simp only [flow_eq, getD_gaps same]
    refine (abs_sum_sub_sum_le ..).trans (le_of_eq ?_)
    congr 1
    refine List.map_congr_left fun i _ => ?_
    rw [← sub_div, abs_div, Nat.abs_cast]
  rw [received, received, add_sub_add_comm, ← sub_div]
  refine (abs_add_le _ _).trans (add_le_add ?_ shares)
  rw [abs_div, Nat.abs_cast]
  gcongr

/-- An iteration brings two lists of scores closer together. -/
theorem change_next_le {l : Layout} (h : l.Balanced) (hne : l.incoming ≠ []) {alpha : ℚ}
    (h0 : 0 ≤ alpha) {rank rank' : List ℚ} (hr : rank.length = l.incoming.length)
    (hr' : rank'.length = l.incoming.length) :
    change (next l alpha rank) (next l alpha rank') ≤ alpha * change rank rank' := by
  have same := hr.trans hr'.symm
  calc change (next l alpha rank) (next l alpha rank')
      = (l.incoming.map fun sources =>
          alpha * |received l rank' sources - received l rank sources|).sum := by
        rw [next_eq, next_eq, change_map]
        refine congrArg List.sum (List.map_congr_left fun sources _ => ?_)
        rw [add_sub_add_left_eq_sub, ← mul_sub, abs_mul, abs_of_nonneg h0]
    _ ≤ (l.incoming.map fun sources => alpha * received l (gaps rank rank') sources).sum := by
        refine List.sum_le_sum fun sources _ => mul_le_mul_of_nonneg_left ?_ h0
        exact received_gap (hr.trans h.size.symm) (hr'.trans h.size.symm) sources
    _ = alpha * change rank rank' := by
        rw [List.sum_map_mul_left, sum_received h hne ((length_gaps same).trans hr), change_eq]

/-- The first iteration moves at most what it hands on, once away and once back. -/
theorem change_first_le {l : Layout} (h : l.Balanced) (hne : l.incoming ≠ []) {alpha : ℚ}
    (h0 : 0 ≤ alpha) :
    change (equalRanks l.incoming.length) (next l alpha (equalRanks l.incoming.length)) ≤
      2 * alpha := by
  have nodes := length_incoming_ne_zero hne
  have size : (equalRanks l.incoming.length).length = l.incoming.length := List.length_replicate
  have constant : equalRanks l.incoming.length =
      l.incoming.map fun _ => 1 / (l.incoming.length : ℚ) := by
    rw [equalRanks, List.map_const']
  have nonneg : ∀ r ∈ equalRanks l.incoming.length, 0 ≤ r := by
    intro r hr
    rw [List.eq_of_mem_replicate hr]
    positivity
  have node : ∀ sources ∈ l.incoming,
      |(1 - alpha) / l.incoming.length + alpha * received l (equalRanks l.incoming.length) sources -
        1 / l.incoming.length| ≤
      alpha * received l (equalRanks l.incoming.length) sources + alpha / l.incoming.length := by
    intro sources _
    have handed := mul_nonneg h0 (received_nonneg (size.trans h.size.symm) nonneg sources)
    have kept : 0 ≤ alpha / l.incoming.length := div_nonneg h0 (Nat.cast_nonneg _)
    rw [sub_div, abs_le]
    constructor <;> linarith
  calc change (equalRanks l.incoming.length) (next l alpha (equalRanks l.incoming.length))
      ≤ (l.incoming.map fun sources => alpha * received l (equalRanks l.incoming.length) sources +
          alpha / l.incoming.length).sum := by
        rw [next_eq]
        nth_rewrite 1 [constant]
        rw [change_map]
        exact List.sum_le_sum node
    _ = 2 * alpha := by
        rw [List.sum_map_add, List.sum_map_mul_left, sum_received h hne size, sum_equalRanks nodes,
          List.map_const', List.sum_replicate, nsmul_eq_mul, mul_div_cancel₀ _ nodes]
        ring

theorem changeAfter_succ_le {l : Layout} (h : l.Balanced) (hne : l.incoming ≠ []) {alpha : ℚ}
    (h0 : 0 ≤ alpha) (k : Nat) :
    changeAfter l alpha (k + 1) ≤ alpha * changeAfter l alpha k := by
  rw [changeAfter, changeAfter, ranksAfter_succ l alpha (k + 1), ranksAfter_succ l alpha k]
  exact change_next_le h hne h0 (length_ranksAfter l alpha k) (length_next ..)

theorem changeAfter_le {l : Layout} (h : l.Balanced) (hne : l.incoming ≠ []) {alpha : ℚ}
    (h0 : 0 ≤ alpha) (k : Nat) : changeAfter l alpha k ≤ 2 * alpha ^ (k + 1) := by
  induction k with
  | zero =>
    rw [Nat.zero_add, pow_one]
    exact change_first_le h hne h0
  | succ k ih =>
    calc changeAfter l alpha (k + 1)
        ≤ alpha * changeAfter l alpha k := changeAfter_succ_le h hne h0 k
      _ ≤ alpha * (2 * alpha ^ (k + 1)) := mul_le_mul_of_nonneg_left ih h0
      _ = 2 * alpha ^ (k + 1 + 1) := by ring

theorem settings_default : ({} : Options).settings = .ok .default := rfl

theorem default_eq : (Settings.default : Settings ℚ) = ⟨17 / 20, 100, 1 / 1000000⟩ := by
  simp only [Settings.default, defaultAlpha, defaultMaxIterations, defaultTolerance]
  norm_num

theorem change_default_lt {l : Layout} (h : l.Balanced) (hne : l.incoming ≠ []) :
    changeAfter l (17 / 20) 89 < l.incoming.length * (1 / 1000000) := by
  have one : (1 : ℚ) ≤ l.incoming.length := by
    exact_mod_cast List.length_pos_iff.mpr hne
  calc changeAfter l (17 / 20) 89
      ≤ 2 * (17 / 20) ^ 90 := changeAfter_le h hne (by norm_num) 89
    _ < 1 * (1 / 1000000) := by norm_num
    _ ≤ l.incoming.length * (1 / 1000000) := by gcongr

theorem run_default {l : Layout} (h : l.Balanced) :
    (run l (17 / 20) (1 / 1000000) 100 : Outcome ℚ).converged = true ∧
      (run l (17 / 20) (1 / 1000000) 100 : Outcome ℚ).iterations ≤ 90 := by
  by_cases hne : l.incoming = []
  · simp [run, hne]
  have ends := run_ends l (17 / 20) (1 / 1000000) 100 hne
  have small := change_default_lt h hne
  constructor
  · by_contra diverged
    obtain ⟨_, large⟩ := ends.exhausted (Bool.eq_false_iff.mpr diverged)
    exact absurd small (not_lt.mpr (large 89 (by omega) (by omega)))
  · by_contra late
    exact absurd small (not_lt.mpr (ends.earlier 89 (by omega) (by omega)))

def convergenceNotes (g : Digraph) (verbose : Bool) (iterations : Nat) : List Log.Entry :=
  if verbose && !g.nodes.isEmpty then
    [⟨.debug, "[rank] converged after " ++ toString iterations ++ " iterations"⟩]
  else []

theorem report_messages (g : Digraph) (s : Settings ℚ) {out : Outcome ℚ}
    (converged : out.converged = true) (verbose : Bool) (log : List Log.Entry) :
    (report g s out verbose).messages log = log ++ convergenceNotes g verbose out.iterations := by
  rw [report, convergenceNotes]
  cases g.nodes.isEmpty with
  | true =>
    rw [Bool.not_true, Bool.and_false]
    exact (List.append_nil log).symm
  | false =>
    rw [converged, Bool.not_false, Bool.and_true]
    exact Logged.messages_note ..

/-- Where a run on a graph stops: it has the scores of its last iteration, and that is the first one
whose change is below the limit, or else the last one that is allowed. -/
structure Stopped (g : Digraph) (s : Settings ℚ) (r : Scores ℚ) : Prop where
  scores : r.scores = g.nodes.zip (ranksAfter (Layout.ofGraph g) s.alpha r.iterations)
  large : ∀ k, k + 1 < r.iterations →
    g.nodes.length * s.tolerance ≤ changeAfter (Layout.ofGraph g) s.alpha k
  small : r.converged = true → 1 ≤ r.iterations ∧
    changeAfter (Layout.ofGraph g) s.alpha (r.iterations - 1) < g.nodes.length * s.tolerance
  exhausted : r.converged = false → r.iterations = s.maxIterations ∧
    ∀ k < s.maxIterations, g.nodes.length * s.tolerance ≤ changeAfter (Layout.ofGraph g) s.alpha k

theorem computeWith_stopped {g : Digraph} (hne : g.nodes ≠ []) (s : Settings ℚ) (verbose : Bool)
    (log : List Log.Entry) : Stopped g s ((computeWith g s verbose).value log) := by
  have size : (Layout.ofGraph g).incoming.length = g.nodes.length := List.length_map _
  have ends := run_ends (Layout.ofGraph g) s.alpha s.tolerance s.maxIterations (incoming_ne_nil hne)
  rw [size] at ends
  rw [computeWith_value]
  constructor
  · exact congrArg _ ends.rank
  · intro k earlier
    exact ends.earlier k (Nat.zero_le k) earlier
  · intro converged
    obtain ⟨k, _, last, small⟩ := ends.small converged
    dsimp only
    rw [last, Nat.add_sub_cancel]
    exact ⟨Nat.le_add_left 1 k, small⟩
  · intro diverged
    obtain ⟨last, large⟩ := ends.exhausted diverged
    rw [Nat.zero_add] at last large
    exact ⟨last, fun k => large k (Nat.zero_le k)⟩

/-- Changes die out geometrically, and a run stops at the first that is below the limit. With the
default settings every graph is therefore done within ninety of the hundred iterations, and nothing
but a note of that is ever logged. -/
theorem default_settings_converge (g : Digraph) (h : g.WellFormed) :
    (g.nodes ≠ [] → ∀ alpha : ℚ, 0 ≤ alpha → ∀ k,
      changeAfter (Layout.ofGraph g) alpha k ≤ 2 * alpha ^ (k + 1) ∧
        changeAfter (Layout.ofGraph g) alpha (k + 1) ≤
          alpha * changeAfter (Layout.ofGraph g) alpha k) ∧
      (g.nodes ≠ [] → ∀ (s : Settings ℚ) verbose log,
        Stopped g s ((computeWith g s verbose).value log)) ∧
      ({} : Options).settings = .ok .default ∧
      ∀ verbose log, let scoring : Logged (Scores ℚ) := computeWith g .default verbose
        (scoring.value log).converged = true ∧ (scoring.value log).iterations ≤ 90 ∧
          (g.nodes ≠ [] → 1 ≤ (scoring.value log).iterations) ∧
          scoring.messages log = log ++ convergenceNotes g verbose
            (scoring.value log).iterations := by
  have balanced := Layout.ofGraph_balanced h
  refine ⟨?_, fun hne => computeWith_stopped hne, settings_default, ?_⟩
  · intro hne alpha h0 k
    have nonempty := incoming_ne_nil hne
    exact ⟨changeAfter_le balanced nonempty h0 k, changeAfter_succ_le balanced nonempty h0 k⟩
  · intro verbose log scoring
    have ended : (scoring.value log).converged = true ∧ (scoring.value log).iterations ≤ 90 := by
      rw [computeWith_value, default_eq]
      exact run_default balanced
    refine ⟨ended.1, ended.2, fun hne => ?_, report_messages g .default ended.1 verbose log⟩
    exact ((computeWith_stopped hne .default verbose log).small ended.1).1

theorem looped_default_settings_converge :
    looped.WellFormed ∧ looped.nodes ≠ [] ∧
      changeAfter (Layout.ofGraph looped) (1 / 2) 0 = 5 / 18 ∧
      changeAfter (Layout.ofGraph looped) (1 / 2) 1 ≤ 1 / 2 * (5 / 18) ∧
      Stopped looped oneHalf ((computeWith looped oneHalf false).value []) ∧
      1 ≤ ((computeWith looped (.default : Settings ℚ) true).value []).iterations ∧
      ((computeWith looped (.default : Settings ℚ) true).value []).iterations ≤ 90 := by
  have first : changeAfter (Layout.ofGraph looped) (1 / 2) 0 = 5 / 18 := by decide +kernel
  have nodes : looped.nodes ≠ [] := by decide
  obtain ⟨shrinking, stopping, _, converging⟩ := default_settings_converge looped (by decide)
  obtain ⟨_, most, least, _⟩ := converging true []
  refine ⟨by decide, nodes, first, ?_, stopping nodes oneHalf false [], least nodes, most⟩
  rw [← first]
  exact (shrinking nodes (1 / 2) (by norm_num) 0).2

end RepoAtlas.Importance
