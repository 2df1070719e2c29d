import Mathlib.Data.Fintype.EquivFin
import Mathlib.Data.Fintype.Sets
import RepoAtlas.Proofs.Graph.Condensation
import RepoAtlas.Proofs.Table

/-!
Orders that put dependencies first. Taking nodes from a queue takes every node whose predecessors
get taken, each behind its predecessors; without a cycle that is every node. Groups of a
condensation are ordered so, and writing out their members keeps each group together.
-/
namespace RepoAtlas.Condensation
open RepoAtlas.Digraph

/-- Every node of a list stands behind all of its predecessors. -/
def PredecessorsFirst (g : Digraph) (xs : List String) : Prop :=
  ∀ v ∈ xs, ∀ u, g.Edge u v → xs.idxOf u < xs.idxOf v

theorem PredecessorsFirst.mem {g : Digraph} {xs : List String} (h : PredecessorsFirst g xs)
    {u v : String} (hv : v ∈ xs) (he : g.Edge u v) : u ∈ xs := by
  have := h v hv u he
  have := List.idxOf_lt_length_of_mem hv
  exact List.idxOf_lt_length_iff.mp (by omega)

theorem PredecessorsFirst.append {g : Digraph} {xs : List String} (h : PredecessorsFirst g xs)
    {x : String} (hx : x ∉ xs) (hp : ∀ u, g.Edge u x → u ∈ xs) :
    PredecessorsFirst g (xs ++ [x]) := by
  intro v hv u he
  rcases List.mem_append.mp hv with hv | hv
  · rw [List.idxOf_append_of_mem hv, List.idxOf_append_of_mem (h.mem hv he)]
    exact h v hv u he
  · obtain rfl := List.mem_singleton.mp hv
    rw [List.idxOf_append_of_mem (hp u he), List.idxOf_append_of_notMem hx]
    have := List.idxOf_lt_length_of_mem (hp u he)
    omega

/-! What is still to be waited for. -/

def awaited (g : Digraph) (taken : List String) : Waiting :=
  g.nodes.map fun v => (v, (g.predecessors v).filter fun u => u ∉ taken)

def Free (g : Digraph) (taken : List String) (v : String) : Prop :=
  v ∈ g.nodes ∧ ∀ u, g.Edge u v → u ∈ taken

theorem Free.cons {g : Digraph} {taken : List String} {v : String} (h : Free g taken v)
    (x : String) :
    Free g (x :: taken) v := ⟨h.1, fun u he => List.mem_cons_of_mem _ (h.2 u he)⟩

theorem awaited_nil (g : Digraph) : awaited g [] = g.nodes.map fun v => (v, g.predecessors v) := by
  simp [awaited]

theorem release_awaited (g : Digraph) (taken : List String) (x : String) :
    (awaited g taken).release x = awaited g (x :: taken) := by
  simp only [awaited, Waiting.release, List.map_map, Function.comp_def, List.filter_filter]
  congr! 4 with v
  funext u
  by_cases hu : u = x <;> simp [hu]

theorem lookup_map_pair (nodes : List String) (f : String → List String) (v : String) :
    (nodes.map fun w => (w, f w)).lookup v = if v ∈ nodes then some (f v) else none := by
  induction nodes with
  | nil => rfl
  | cons w nodes ih =>
    rw [List.map_cons, Table.lookup_cons_if, ih]
    by_cases h : v = w
    · simp [h]
    · simp [h]

theorem isFree_awaited {g : Digraph} {taken : List String} {v : String} :
    (awaited g taken).isFree v = true ↔ Free g taken v := by
  rw [Waiting.isFree, awaited, lookup_map_pair]
  by_cases hv : v ∈ g.nodes
  · simp [hv, Free]
  · simp [hv, Free]

/-! One step takes the first node of the queue. -/

/-- Nodes taken, last first, and nodes in the queue: together they are the free ones. -/
structure Front (g : Digraph) (queue taken : List String) : Prop where
  nodup : (taken ++ queue).Nodup
  free_iff : ∀ v, v ∈ taken ∨ v ∈ queue ↔ Free g taken v
  ordered : PredecessorsFirst g taken.reverse

theorem front_start {g : Digraph} (h : g.WellFormed) :
    Front g (g.nodes.filter (awaited g []).isFree) [] where
  nodup := h.nodes_nodup.filter _
  free_iff := by
    intro v
    rw [List.mem_filter, isFree_awaited]
    simp [Free]
  ordered := by
    intro v hv
    cases hv

theorem Front.head_not_taken {g : Digraph} {x : String} {queue taken : List String}
    (h : Front g (x :: queue) taken) : x ∉ taken := by
  intro hx
  exact (List.nodup_append.mp h.nodup).2.2 x hx x (List.mem_cons_self ..) rfl

/-- A node that becomes free when another is taken was neither taken nor queued: it waited. -/
theorem Front.waited {g : Digraph} {x : String} {queue taken : List String}
    (h : Front g (x :: queue) taken) {v : String} (he : g.Edge x v) :
    v ∉ taken ∧ v ∉ x :: queue := by
  have hfree : ¬ Free g taken v := fun hf => h.head_not_taken (hf.2 x he)
  rw [← h.free_iff, not_or] at hfree
  exact hfree

theorem front_step {g : Digraph} (hg : g.WellFormed) {x : String} {queue taken : List String}
    (h : Front g (x :: queue) taken) :
    Front g (queue ++ (g.successors x).filter (awaited g (x :: taken)).isFree) (x :: taken) where
  nodup := by
    have hperm : (taken ++ x :: queue).Perm (x :: taken ++ queue) := List.perm_middle
    rw [← List.append_assoc]
    refine List.nodup_append.mpr ⟨hperm.nodup_iff.mp h.nodup, (successors_nodup hg x).filter _, ?_⟩
    intro u hu v hv huv
    subst huv
    have he := mem_successors.mp (List.mem_filter.mp hv).1
    obtain ⟨ht, hq⟩ := h.waited he
    rcases List.mem_append.mp (hperm.mem_iff.mpr hu) with hu | hu
    · exact ht hu
    · exact hq hu
  free_iff := by
    intro v
    rw [List.mem_append, List.mem_filter, mem_successors, isFree_awaited]
    constructor
    · rintro (hv | hv | ⟨_, hv⟩)
      · rcases List.mem_cons.mp hv with rfl | hv
        · exact ((h.free_iff v).mp (Or.inr (List.mem_cons_self ..))).cons v
        · exact ((h.free_iff v).mp (Or.inl hv)).cons x
      · exact ((h.free_iff v).mp (Or.inr (List.mem_cons_of_mem _ hv))).cons x
      · exact hv
    · intro hv
      -- a free node either waited for the node just taken or was free before
      by_cases he : g.Edge x v
      · exact Or.inr (Or.inr ⟨he, hv⟩)
      · have hold : Free g taken v := by
          refine ⟨hv.1, fun u hu => ?_⟩
          rcases List.mem_cons.mp (hv.2 u hu) with rfl | ht
          · exact absurd hu he
          · exact ht
        rcases (h.free_iff v).mpr hold with ht | hq
        · exact Or.inl (List.mem_cons_of_mem _ ht)
        · rcases List.mem_cons.mp hq with rfl | hq
          · exact Or.inl (List.mem_cons_self ..)
          · exact Or.inr (Or.inl hq)
  ordered := by
    rw [List.reverse_cons]
    have hfree := (h.free_iff x).mp (Or.inr (List.mem_cons_self ..))
    apply h.ordered.append
    · exact fun hx => h.head_not_taken (List.mem_reverse.mp hx)
    · exact fun u he => List.mem_reverse.mpr (hfree.2 u he)

/-! A run takes all that can be taken. -/

/-- A list of nodes, each behind its predecessors, that leaves no free node out. -/
structure Exhausts (g : Digraph) (xs : List String) : Prop where
  nodup : xs.Nodup
  mem_iff : ∀ v, v ∈ xs ↔ Free g xs v
  ordered : PredecessorsFirst g xs

theorem Front.exhausts {g : Digraph} {taken : List String} (h : Front g [] taken) :
    Exhausts g taken.reverse where
  nodup := by simpa using h.nodup
  mem_iff := by
    intro v
    simpa [Free] using h.free_iff v
  ordered := h.ordered

theorem drain_exhausts {g : Digraph} (hg : g.WellFormed) (n : Nat) {queue taken : List String}
    (h : Front g queue taken) (bound : g.nodes.length ≤ n + taken.length) :
    Exhausts g (drain g n queue (awaited g taken) taken) := by
  induction n generalizing queue taken with
  | zero =>
    -- as many nodes were taken as there are, so none is left in the queue
    have hsub : taken ++ queue ⊆ g.nodes := by
      intro v hv
      exact ((h.free_iff v).mp (List.mem_append.mp hv)).1
    have hlen := (List.subperm_of_subset h.nodup hsub).length_le
    rw [List.length_append] at hlen
    obtain rfl : queue = [] := List.eq_nil_of_length_eq_zero (by omega)
    exact h.exhausts
  | succ n ih =>
    cases queue with
    | nil => exact h.exhausts
    | cons x queue =>
      rw [drain]
      simp only [release_awaited]
      apply ih (front_step hg h)
      rw [List.length_cons]
      omega

theorem sorted_exhausts {g : Digraph} (h : g.WellFormed) : Exhausts g (sorted g) := by
  rw [sorted, ← awaited_nil]
  exact drain_exhausts h g.nodes.length (front_start h) (by simp)

/-- Without a cycle every node has a first one behind it, so all of them become free in turn. -/
theorem Exhausts.perm_nodes {g : Digraph} (hg : g.WellFormed) (ha : g.Acyclic) {xs : List String}
    (h : Exhausts g xs) : xs.Perm g.nodes := by
  let before : {v // v ∈ g.nodes} → {v // v ∈ g.nodes} → Prop :=
    fun u v => Relation.TransGen g.Edge u.1 v.1
  have : IsTrans _ before := ⟨fun _ _ _ => Relation.TransGen.trans⟩
  have : Std.Irrefl before := ⟨fun v => ha v.1⟩
  have wf : WellFounded before := Finite.wellFounded_of_trans_of_irrefl before
  have all : ∀ v : {v // v ∈ g.nodes}, v.1 ∈ xs := by
    intro v
    induction v using wf.induction with
    | _ v ih =>
      refine (h.mem_iff v.1).mpr ⟨v.2, fun u he => ?_⟩
      exact ih ⟨u, (hg.ends u v.1 he).1⟩ (.single he)
  refine (List.perm_ext_iff_of_nodup h.nodup hg.nodes_nodup).mpr fun v =>
    ⟨?_, fun hv => all ⟨v, hv⟩⟩
  exact fun hv => ((h.mem_iff v).mp hv).1

/-! Groups in order, written out. -/

theorem membersOf_key {c : Condensation} (h : c.keys.Nodup) {a : Group} (ha : a ∈ c.groups) :
    c.membersOf a.key = a.members := by
  have found : c.groups.find? (fun b => b.key = a.key) = some a := by
    apply find?_of_unique ha (by simp)
    intro b hb hk
    exact List.inj_on_of_nodup_map h hb ha (by simpa using hk)
  simp [membersOf, found]

theorem Grouping.membersOf_eq {c : Condensation} {nodes : List String}
    (h : Grouping c.groups nodes) {a : Group} (ha : a ∈ c.groups) : c.membersOf a.key = a.members :=
  membersOf_key h.keys_nodup ha

/-- Writing out the members of all groups, in whatever order, gives all nodes. -/
theorem Grouping.flatMap_membersOf {c : Condensation} {nodes order : List String}
    (h : Grouping c.groups nodes) (hk : order.Perm c.keys) :
    (order.flatMap c.membersOf).Perm nodes := by
  refine ((List.Perm.flatMap_right c.membersOf hk).trans ?_).trans h.members_perm
  rw [keys, List.flatMap_map]
  exact List.Perm.flatMap_left _ fun a ha => by rw [h.membersOf_eq ha]

/-- What comes of an earlier item stands before what comes of a later one. -/
theorem idxOf_flatMap_lt {f : String → List String} {xs : List String} (h : (xs.flatMap f).Nodup)
    {k l v w : String} (hkl : xs.idxOf k < xs.idxOf l) (hl : l ∈ xs) (hv : v ∈ f k) (hw : w ∈ f l) :
    (xs.flatMap f).idxOf v < (xs.flatMap f).idxOf w := by
  obtain ⟨first, rest, rfl, hfirst⟩ := List.eq_append_cons_of_mem hl
  have hk : k ∈ first := by
    by_contra hk
    rw [List.idxOf_append_of_notMem hk, List.idxOf_append_of_notMem hfirst, List.idxOf_cons_self]
      at hkl
    omega
  rw [List.flatMap_append] at h ⊢
  have hvf : v ∈ first.flatMap f := List.mem_flatMap.mpr ⟨k, hk, hv⟩
  have hwf : w ∉ first.flatMap f := by
    intro hwf
    have hwr : w ∈ (l :: rest).flatMap f := List.mem_flatMap.mpr ⟨l, List.mem_cons_self .., hw⟩
    exact (List.nodup_append.mp h).2.2 w hwf w hwr rfl
  rw [List.idxOf_append_of_mem hvf, List.idxOf_append_of_notMem hwf]
  have := List.idxOf_lt_length_of_mem hvf
  omega

theorem sorted_perm_keys [Text.Collator] {g : Digraph} (h : g.WellFormed) :
    (sorted (ofGraph g).graph).Perm (ofGraph g).keys :=
  (sorted_exhausts (ofGraph_wellFormed h)).perm_nodes (ofGraph_wellFormed h) (ofGraph_acyclic h)

theorem ofGraph_order [Text.Collator] {g : Digraph} (h : g.WellFormed) :
    (ofGraph g).order = .ok ((sorted (ofGraph g).graph).flatMap (ofGraph g).membersOf) := by
  have hlen : (sorted (ofGraph g).graph).length = (ofGraph g).groups.length := by
    simpa [Condensation.keys] using (sorted_perm_keys h).length_eq
  simp [order, hlen]

/-- Every graph can be ordered: the order is one of its nodes, what a node depends on comes before
it unless both are on a cycle, and the nodes of a cycle stay together as their group lists them. -/
theorem order_puts_dependencies_first [Text.Collator] (g : Digraph) (h : g.WellFormed) :
    ∃ order, (ofGraph g).order = .ok order ∧ order.Perm g.nodes ∧
      (∀ a b, g.Edge a b → ¬ g.Reaches b a → order.idxOf b < order.idxOf a) ∧
      ∀ v ∈ g.nodes, ∃ group ∈ (ofGraph g).groups,
        (∀ w, w ∈ group.members ↔ w ∈ g.nodes ∧ g.Reaches v w ∧ g.Reaches w v) ∧
          group.members <:+: order := by
  have grouping := ofGraph_grouping h.nodes_nodup
  have exhausts := sorted_exhausts (ofGraph_wellFormed h)
  have keys := sorted_perm_keys h
  have all := grouping.flatMap_membersOf keys
  refine ⟨_, ofGraph_order h, all, ?_, ?_⟩
  · intro a b he hr
    obtain ⟨ha, hb⟩ := h.ends a b he
    obtain ⟨x, hx, hax⟩ := grouping.exists_group ha
    obtain ⟨y, hy, hby⟩ := grouping.exists_group hb
    have hne : y ≠ x := by
      rintro rfl
      exact hr (mutual_of_members hy hby hax).1
    have edge := (ofGraph_edge_iff h hy hx).mpr ⟨hne, a, hax, b, hby, he⟩
    have hmem : x.key ∈ sorted (ofGraph g).graph := keys.mem_iff.mpr (List.mem_map_of_mem hx)
    apply idxOf_flatMap_lt (all.nodup_iff.mpr h.nodes_nodup) (exhausts.ordered _ hmem _ edge) hmem
    · rwa [grouping.membersOf_eq hy]
    · rwa [grouping.membersOf_eq hx]
  · intro v hv
    obtain ⟨x, hx, hvx⟩ := grouping.exists_group hv
    refine ⟨x, hx, ?_, ?_⟩
    · intro w
      exact ⟨fun hw => ⟨grouping.mem_nodes hx hw, mutual_of_members hx hvx hw⟩,
        fun hw => mem_of_mutual hx hvx hw.1 hw.2⟩
    · obtain ⟨first, rest, hs⟩ := List.append_of_mem (keys.mem_iff.mpr (List.mem_map_of_mem hx))
      rw [hs, List.flatMap_append, List.flatMap_cons, grouping.membersOf_eq hx]
      exact ⟨first.flatMap (ofGraph g).membersOf, rest.flatMap (ofGraph g).membersOf, by simp⟩

open scoped Text.Alphabet

theorem knotted_order_puts_dependencies_first :
    knotted.WellFormed ∧ knotted.Edge "c" "a" ∧ ¬ knotted.Reaches "a" "c" ∧
      ∃ order, (ofGraph knotted).order = .ok order ∧ order.idxOf "a" < order.idxOf "c" := by
  have stays : ∀ v, knotted.Reaches "a" v → v = "a" ∨ v = "b" := by
    intro v h
    induction h with
    | refl => exact Or.inl rfl
    | tail _ he ih => rcases ih with rfl | rfl <;> simp_all [Edge, knotted]
  have apart : ¬ knotted.Reaches "a" "c" := by
    intro h
    rcases stays "c" h with h | h <;> exact absurd h (by decide)
  obtain ⟨order, ho, _, before, _⟩ := order_puts_dependencies_first knotted (by decide)
  exact ⟨by decide, by decide, apart, order, ho, before "c" "a" (by decide) apart⟩

end RepoAtlas.Condensation
