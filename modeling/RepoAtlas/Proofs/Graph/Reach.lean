import Mathlib.Data.List.Nodup
import Mathlib.Data.List.Perm.Subperm
import Mathlib.Logic.Relation
import RepoAtlas.Graph.Digraph

/-!
Reachability as a relation, and the walk that computes it. The walk looks at one listed node per
step of its bound, and no edge lists its target twice, so the bound is never what ends the walk.
Strongly connected components are then the classes of mutual reachability.
-/
namespace RepoAtlas.Digraph

def Edge (g : Digraph) (a b : String) : Prop := (a, b) ∈ g.edges

instance (g : Digraph) (a b : String) : Decidable (g.Edge a b) :=
  inferInstanceAs (Decidable ((a, b) ∈ g.edges))

/-- What adding nodes and edges to an empty graph can lead to: nothing is there twice, and an edge
needs both of its ends. -/
structure WellFormed (g : Digraph) : Prop where
  nodes_nodup : g.nodes.Nodup
  edges_nodup : g.edges.Nodup
  ends : ∀ a b, g.Edge a b → a ∈ g.nodes ∧ b ∈ g.nodes

instance (g : Digraph) : Decidable g.WellFormed :=
  decidable_of_iff (g.nodes.Nodup ∧ g.edges.Nodup ∧ ∀ e ∈ g.edges, e.1 ∈ g.nodes ∧ e.2 ∈ g.nodes)
    ⟨fun h => ⟨h.1, h.2.1, fun _ _ he => h.2.2 _ he⟩,
      fun h => ⟨h.nodes_nodup, h.edges_nodup, fun e he => h.ends e.1 e.2 he⟩⟩

def Reaches (g : Digraph) : String → String → Prop := Relation.ReflTransGen g.Edge

def Mutual (g : Digraph) (a b : String) : Prop := g.Reaches a b ∧ g.Reaches b a

/-- No walk of at least one edge comes back to where it started. -/
def Acyclic (g : Digraph) : Prop := ∀ v, ¬ Relation.TransGen g.Edge v v

theorem Mutual.refl (g : Digraph) (a : String) : g.Mutual a a := ⟨.refl, .refl⟩

theorem Mutual.symm {g : Digraph} {a b : String} (h : g.Mutual a b) : g.Mutual b a := ⟨h.2, h.1⟩

theorem Mutual.trans {g : Digraph} {a b c : String} (h : g.Mutual a b) (k : g.Mutual b c) :
    g.Mutual a c := ⟨h.1.trans k.1, k.2.trans h.2⟩

/-! Lists without repetitions, as graphs keep their nodes and edges. -/

section AddNew
variable {α : Type} [DecidableEq α] {xs ys : List α}

theorem mem_foldl_addNew {x : α} : x ∈ xs.foldl addNew ys ↔ x ∈ ys ∨ x ∈ xs := by
  induction xs generalizing ys with
  | nil => simp
  | cons y xs ih =>
    rw [List.foldl_cons, ih, addNew]
    split
    case isTrue hy =>
      rw [List.mem_cons]
      constructor
      · exact Or.imp_right Or.inr
      · rintro (hx | rfl | hx)
        · exact Or.inl hx
        · exact Or.inl hy
        · exact Or.inr hx
    case isFalse => simp [or_assoc]

theorem nodup_foldl_addNew (h : ys.Nodup) : (xs.foldl addNew ys).Nodup := by
  induction xs generalizing ys with
  | nil => exact h
  | cons y xs ih =>
    rw [List.foldl_cons, addNew]
    split
    case isTrue => exact ih h
    case isFalse hy => exact ih (by simpa using List.Nodup.concat hy h)

theorem foldl_addNew_of_nodup (h : (ys ++ xs).Nodup) : xs.foldl addNew ys = ys ++ xs := by
  induction xs generalizing ys with
  | nil => simp
  | cons y xs ih =>
    have hy : y ∉ ys := fun hy => (List.nodup_append.mp h).2.2 y hy y (List.mem_cons_self ..) rfl
    rw [List.foldl_cons, addNew, if_neg hy, ih (by simpa using h)]
    simp

end AddNew

@[simp] theorem mem_successors {g : Digraph} {v w : String} : w ∈ g.successors v ↔ g.Edge v w := by
  simp only [successors, Edge, List.mem_filterMap]
  constructor
  · rintro ⟨⟨a, b⟩, he, hw⟩
    split at hw
    · simp_all
    · cases hw
  · intro he
    exact ⟨(v, w), he, by simp⟩

theorem successors_nodup {g : Digraph} (h : g.WellFormed) (v : String) :
    (g.successors v).Nodup := by
  apply List.Nodup.filterMap _ h.edges_nodup
  rintro ⟨a, b⟩ ⟨c, d⟩ w hw hw'
  simp only [Option.mem_def, Option.ite_none_right_eq_some, Option.some.injEq] at hw hw'
  simp [hw.1, hw.2, hw'.1, hw'.2]

@[simp] theorem reverse_edge {g : Digraph} {a b : String} : g.reverse.Edge a b ↔ g.Edge b a := by
  simp only [reverse, Edge, List.mem_map, Prod.mk.injEq]
  constructor
  · rintro ⟨⟨x, y⟩, he, rfl, rfl⟩
    exact he
  · intro he
    exact ⟨(b, a), he, rfl, rfl⟩

theorem predecessors_eq_reverse_successors (g : Digraph) (v : String) :
    g.predecessors v = g.reverse.successors v := by
  simp [predecessors, successors, reverse, List.filterMap_map]

@[simp] theorem mem_predecessors {g : Digraph} {v w : String} :
    w ∈ g.predecessors v ↔ g.Edge w v := by
  rw [predecessors_eq_reverse_successors, mem_successors, reverse_edge]

theorem reverse_reaches {g : Digraph} {a b : String} : g.reverse.Reaches a b ↔ g.Reaches b a := by
  have flip : g.reverse.Edge = Function.swap g.Edge := by
    funext x y
    exact propext reverse_edge
  rw [Reaches, flip]
  exact Relation.reflTransGen_swap

/-! The walk: what it sees is reached, and what is reached it sees. -/

/-- The looks that are still ahead at most: one per listed node, and one per edge out of a node that
was not seen yet. -/
def looksLeft (g : Digraph) (seen todo : List String) : Nat :=
  todo.length + g.edges.countP fun e => e.1 ∉ seen

/-- Visiting a new node lists its successors, whose edges are then used up. -/
theorem looksLeft_visit (g : Digraph) {v : String} {seen : List String} (hv : v ∉ seen)
    (rest : List String) :
    g.looksLeft (v :: seen) (g.successors v ++ rest) + 1 = g.looksLeft seen (v :: rest) := by
  have split : ∀ es : List (String × String),
      (es.filterMap fun e => if e.1 = v then some e.2 else none).length +
        es.countP (fun e => e.1 ∉ v :: seen) = es.countP fun e => e.1 ∉ seen := by
    intro es
    induction es with
    | nil => rfl
    | cons e es ih =>
      by_cases he : e.1 = v
      · simp [he, hv] at ih ⊢
        omega
      · by_cases hs : e.1 ∈ seen <;> simp [he, hs] at ih ⊢ <;> omega
  have := split g.edges
  simp only [looksLeft, successors, List.length_append, List.length_cons]
  omega

@[simp] theorem walk_nil (next : String → List String) (n : Nat) (seen : List String) :
    walk next n seen [] = seen := by
  cases n <;> rfl

theorem walk_sound {next : String → List String} {P : String → Prop}
    (step : ∀ x, P x → ∀ y ∈ next x, P y) (n : Nat) {seen todo : List String}
    (hs : ∀ x ∈ seen, P x) (ht : ∀ x ∈ todo, P x) : ∀ x ∈ walk next n seen todo, P x := by
  induction n generalizing seen todo with
  | zero => exact hs
  | succ n ih =>
    cases todo with
    | nil => simpa using hs
    | cons v rest =>
      have hv := ht v (List.mem_cons_self ..)
      have hrest : ∀ x ∈ rest, P x := fun x hx => ht x (List.mem_cons_of_mem _ hx)
      rw [walk]
      split
      · exact ih hs hrest
      · apply ih
        · intro x hx
          rcases List.mem_cons.mp hx with rfl | hx
          · exact hv
          · exact hs x hx
        · intro x hx
          rcases List.mem_append.mp hx with hx | hx
          · exact step v hv x hx
          · exact hrest x hx

/-- With a bound that covers the looks ahead, everything listed gets seen and nothing leads out of
what was seen. -/
theorem walk_closed (g : Digraph) (n : Nat) {seen todo : List String}
    (bound : g.looksLeft seen todo ≤ n)
    (frontier : ∀ x ∈ seen, ∀ y, g.Edge x y → y ∈ seen ∨ y ∈ todo) :
    seen ⊆ walk g.successors n seen todo ∧ todo ⊆ walk g.successors n seen todo ∧
      ∀ x ∈ walk g.successors n seen todo, ∀ y, g.Edge x y → y ∈ walk g.successors n seen todo := by
  induction n generalizing seen todo with
  | zero =>
    have hempty : todo.length = 0 := by
      simp only [looksLeft] at bound
      omega
    obtain rfl := List.eq_nil_of_length_eq_zero hempty
    simpa using frontier
  | succ n ih =>
    cases todo with
    | nil => simpa using frontier
    | cons v rest =>
      rw [walk]
      split
      case isTrue hv =>
        have hb : g.looksLeft seen rest ≤ n := by
          simp only [looksLeft, List.length_cons] at bound ⊢
          omega
        obtain ⟨h1, h2, h3⟩ := ih hb (by
          intro x hx y he
          rcases frontier x hx y he with hy | hy
          · exact Or.inl hy
          · rcases List.mem_cons.mp hy with rfl | hy
            · exact Or.inl hv
            · exact Or.inr hy)
        exact ⟨h1, List.cons_subset.mpr ⟨h1 hv, h2⟩, h3⟩
      case isFalse hv =>
        have hb : g.looksLeft (v :: seen) (g.successors v ++ rest) ≤ n := by
          have := g.looksLeft_visit hv rest
          omega
        obtain ⟨h1, h2, h3⟩ := ih hb (by
          intro x hx y he
          rcases List.mem_cons.mp hx with rfl | hx
          · exact Or.inr (List.mem_append_left _ (mem_successors.mpr he))
          · rcases frontier x hx y he with hy | hy
            · exact Or.inl (List.mem_cons_of_mem _ hy)
            · rcases List.mem_cons.mp hy with rfl | hy
              · exact Or.inl (List.mem_cons_self ..)
              · exact Or.inr (List.mem_append_right _ hy))
        rw [List.cons_subset] at h1
        rw [List.append_subset] at h2
        exact ⟨h1.2, List.cons_subset.mpr ⟨h1.1, h2.2⟩, h3⟩

theorem mem_reachable {g : Digraph} {v w : String} : w ∈ g.reachable v ↔ g.Reaches v w := by
  constructor
  · exact walk_sound (P := g.Reaches v) (fun x hx y hy => hx.tail (mem_successors.mp hy)) _
      (by simp) (by simp [Reaches, Relation.ReflTransGen.refl]) w
  · intro h
    have bound : g.looksLeft [] [v] ≤ g.edges.length + 2 := by
      have := List.countP_le_length (p := fun e : String × String => e.1 ∉ ([] : List String))
        (l := g.edges)
      simp only [looksLeft, List.length_singleton]
      omega
    obtain ⟨_, start, closed⟩ := walk_closed g (g.edges.length + 2) bound (by simp)
    induction h with
    | refl => exact start (List.mem_singleton_self v)
    | tail _ he ih => exact closed _ ih _ he

/-! Strongly connected components. -/

theorem mem_component {g : Digraph} {v w : String} :
    w ∈ g.component v ↔ w ∈ g.nodes ∧ g.Mutual v w := by
  simp only [component, List.mem_filter, Bool.and_eq_true, decide_eq_true_eq, mem_reachable,
    reverse_reaches, Mutual]

theorem component_disjoint {g : Digraph} {v w : String} (h : ¬ g.Mutual v w) :
    (g.component v).Disjoint (g.component w) := by
  intro x hv hw
  exact h ((mem_component.mp hv).2.trans (mem_component.mp hw).2.symm)

structure Classes (g : Digraph) (found : List (List String)) : Prop where
  is_component : ∀ c ∈ found, ∃ v ∈ g.nodes, c = g.component v
  disjoint : found.Pairwise List.Disjoint

/-- A node outside the components found so far has a component disjoint from all of them. -/
theorem Classes.cons {g : Digraph} {found : List (List String)} (h : g.Classes found) {v : String}
    (hv : v ∈ g.nodes) (fresh : ∀ c ∈ found, v ∉ c) : g.Classes (g.component v :: found) := by
  constructor
  · intro c hc
    rcases List.mem_cons.mp hc with rfl | hc
    · exact ⟨v, hv, rfl⟩
    · exact h.is_component c hc
  · refine List.pairwise_cons.mpr ⟨?_, h.disjoint⟩
    intro c hc
    obtain ⟨w, _, rfl⟩ := h.is_component c hc
    apply component_disjoint
    intro hm
    exact fresh _ hc (mem_component.mpr ⟨hv, hm.symm⟩)

/-- Going through a list of nodes keeps the components disjoint and leaves no node out. -/
theorem componentsOf_classes {g : Digraph} {rest : List String} {found : List (List String)}
    (h : g.Classes found) (hrest : rest ⊆ g.nodes) :
    g.Classes (g.componentsOf found rest) ∧ found ⊆ g.componentsOf found rest ∧
      ∀ v ∈ rest, ∃ c ∈ g.componentsOf found rest, v ∈ c := by
  induction rest generalizing found with
  | nil =>
    refine ⟨⟨?_, ?_⟩, ?_, by simp⟩
    · intro c hc
      exact h.is_component c (List.mem_reverse.mp hc)
    · exact List.pairwise_reverse.mpr (h.disjoint.imp List.disjoint_symm)
    · intro c hc
      exact List.mem_reverse.mpr hc
  | cons v rest ih =>
    obtain ⟨hv, hrest⟩ := List.cons_subset.mp hrest
    rw [componentsOf]
    -- a node that some component holds is passed over; any other opens its own
    split
    case isTrue hany =>
      obtain ⟨classes, kept, covered⟩ := ih h hrest
      obtain ⟨c, hc, hvc⟩ := List.any_eq_true.mp hany
      refine ⟨classes, kept, ?_⟩
      intro w hw
      rcases List.mem_cons.mp hw with rfl | hw
      · exact ⟨c, kept hc, by simpa using hvc⟩
      · exact covered w hw
    case isFalse hany =>
      have fresh : ∀ c ∈ found, v ∉ c := by
        intro c hc hvc
        exact hany (List.any_eq_true.mpr ⟨c, hc, by simpa using hvc⟩)
      obtain ⟨classes, kept, covered⟩ := ih (h.cons hv fresh) hrest
      obtain ⟨own, kept⟩ := List.cons_subset.mp kept
      refine ⟨classes, kept, ?_⟩
      intro w hw
      rcases List.mem_cons.mp hw with rfl | hw
      · exact ⟨_, own, mem_component.mpr ⟨hv, .refl g w⟩⟩
      · exact covered w hw

theorem components_classes (g : Digraph) : g.Classes g.components :=
  (componentsOf_classes ⟨by simp, .nil⟩ (List.Subset.refl _)).1

/-- The components hold every node, each in one place. -/
theorem components_partition {g : Digraph} (h : g.nodes.Nodup) :
    g.components.flatten.Perm g.nodes := by
  have classes := components_classes g
  refine (List.perm_ext_iff_of_nodup ?_ h).mpr ?_
  · refine List.nodup_flatten.mpr ⟨?_, classes.disjoint⟩
    intro c hc
    obtain ⟨v, _, rfl⟩ := classes.is_component c hc
    exact h.filter _
  · intro v
    rw [List.mem_flatten]
    constructor
    · rintro ⟨c, hc, hv⟩
      obtain ⟨w, _, rfl⟩ := classes.is_component c hc
      exact (mem_component.mp hv).1
    · intro hv
      exact (componentsOf_classes ⟨by simp, .nil⟩ (List.Subset.refl _)).2.2 v hv

end RepoAtlas.Digraph
