import Mathlib.Data.Set.Card
import Mathlib.Logic.Relation
import RepoAtlas.Origin.Search

/-!
The search for an origin misses nothing as long as the depth limit does not bind. No query is tried
twice, even one whose own search is still going on; yet when a search ends without an origin, the
queries tried are closed under what they lead to, and none of them has an answer of its own.
-/
namespace RepoAtlas

/-! A list of attempts up to its first answer. -/

namespace Attempt

def asked : List Attempt → List Query
  | [] => []
  | .answer _ :: _ => []
  | .ask p :: rest => p :: asked rest

def answered : List Attempt → Option Origin
  | [] => none
  | .answer o :: _ => some o
  | .ask _ :: rest => answered rest

section
variable {ask : Query → Search (Option Origin)} {p : Query} {o : Origin} {tried after : List Query}

theorem run_answer (rest : List Attempt) :
    (firstFound (follow ask) (.answer o :: rest)).run tried = (some o, tried) := by
  rw [firstFound, StateT.run_bind]
  rfl

theorem run_ask_of_some (h : (ask p).run tried = (some o, after)) (rest : List Attempt) :
    (firstFound (follow ask) (.ask p :: rest)).run tried = (some o, after) := by
  rw [firstFound, StateT.run_bind, follow, h]
  rfl

theorem run_ask_of_none (h : (ask p).run tried = (none, after)) (rest : List Attempt) :
    (firstFound (follow ask) (.ask p :: rest)).run tried =
      (firstFound (follow ask) rest).run after := by
  rw [firstFound, StateT.run_bind, follow, h]
  rfl

end

def noted (p : Query) : Search (Option Origin) := do
  modify (p :: ·)
  return none

theorem run_noted (xs : List Attempt) (tried : List Query) :
    (firstFound (follow noted) xs).run tried = (answered xs, (asked xs).reverse ++ tried) := by
  induction xs generalizing tried with
  | nil => rfl
  | cons x rest ih =>
    cases x with
    | answer o => exact run_answer rest
    | ask p =>
      have noting : (noted p).run tried = (none, p :: tried) := rfl
      rw [run_ask_of_none noting, ih]
      simp [asked, answered]

/-- What is found is an answer of the list, or was found by a query before its first answer. -/
theorem found_of_run {ask : Query → Search (Option Origin)} {xs : List Attempt}
    {tried after : List Query} {o : Origin}
    (h : (firstFound (follow ask) xs).run tried = (some o, after)) :
    answered xs = some o ∨ ∃ p ∈ asked xs, ∃ t t', (ask p).run t = (some o, t') := by
  induction xs generalizing tried with
  | nil => cases h
  | cons x rest ih =>
    cases x with
    | answer o' =>
      rw [run_answer] at h
      exact Or.inl (Prod.mk.inj h).1
    | ask p =>
      rcases hp : (ask p).run tried with ⟨found, next⟩
      cases found with
      | some o' =>
        rw [run_ask_of_some hp] at h
        obtain ⟨same, _⟩ := Prod.mk.inj h
        exact Or.inr ⟨p, by simp [asked], tried, next, same ▸ hp⟩
      | none =>
        rw [run_ask_of_none hp] at h
        rcases ih h with answer | ⟨p', hp', found⟩
        · exact Or.inl answer
        · exact Or.inr ⟨p', List.mem_cons_of_mem _ hp', found⟩

end Attempt

namespace World
variable {w : World}

/-- A query tried while no other query gives an origin: the origin it has itself, and the queries
that it leads to, last first. -/
def visit (w : World) (q : Query) : Option Origin × List Query :=
  (firstFound (Attempt.follow Attempt.noted) (w.attempts q)).run []

def directAnswer (w : World) (q : Query) : Option Origin := (w.visit q).1

def LeadsTo (w : World) (q p : Query) : Prop := p ∈ (w.visit q).2

def Reaches (w : World) : Query → Query → Prop := Relation.ReflTransGen w.LeadsTo

theorem directAnswer_eq (q : Query) : w.directAnswer q = Attempt.answered (w.attempts q) := by
  rw [directAnswer, visit, Attempt.run_noted]

theorem leadsTo_iff {q p : Query} : w.LeadsTo q p ↔ p ∈ Attempt.asked (w.attempts q) := by
  simp [LeadsTo, visit, Attempt.run_noted]

/-! A search in progress. -/

theorem run_search_of_tried {steps : Nat} {q : Query} {tried : List Query} (h : q ∈ tried) :
    (w.search steps q).run tried = (none, tried) := by
  cases steps with
  | zero => rfl
  | succ n =>
    rw [search, StateT.run_bind]
    change StateT.run (if q ∈ tried then _ else _) tried = _
    rw [if_pos h]
    rfl

theorem run_search_of_new {steps : Nat} {q : Query} {tried : List Query} (h : q ∉ tried) :
    (w.search (steps + 1) q).run tried =
      (firstFound (Attempt.follow (w.search steps)) (w.attempts q)).run (q :: tried) := by
  rw [search, StateT.run_bind]
  change StateT.run (if q ∈ tried then _ else _) tried = _
  rw [if_neg h]
  rfl

/-- Whatever is found is the direct answer of a query that can be reached. -/
theorem reaches_of_search {steps : Nat} {q : Query} {tried after : List Query} {o : Origin}
    (h : (w.search steps q).run tried = (some o, after)) :
    ∃ p, w.Reaches q p ∧ w.directAnswer p = some o := by
  induction steps generalizing q tried after with
  | zero => cases h
  | succ n ih =>
    by_cases seen : q ∈ tried
    · rw [run_search_of_tried seen] at h
      cases h
    rw [run_search_of_new seen] at h
    rcases Attempt.found_of_run h with answer | ⟨p, hp, t, t', found⟩
    · exact ⟨q, .refl, (directAnswer_eq q).trans answer⟩
    · obtain ⟨p', hreach, hanswer⟩ := ih found
      exact ⟨p', .head (leadsTo_iff.mpr hp) hreach, hanswer⟩

/-- What a search that finds nothing adds to the queries tried: none of them has an answer, and what
they lead to was tried as well. -/
structure Explored (w : World) (before after : List Query) : Prop where
  kept : ∀ p ∈ before, p ∈ after
  silent : ∀ p ∈ after, p ∉ before → w.directAnswer p = none
  closed : ∀ p ∈ after, p ∉ before → ∀ p', w.LeadsTo p p' → p' ∈ after

theorem Explored.refl (tried : List Query) : w.Explored tried tried :=
  ⟨fun _ h => h, fun _ h hn => absurd h hn, fun _ h hn => absurd h hn⟩

theorem Explored.trans {a b c : List Query} (h : w.Explored a b) (h' : w.Explored b c) :
    w.Explored a c where
  kept p hp := h'.kept p (h.kept p hp)
  silent p hp hn := by
    by_cases hb : p ∈ b
    · exact h.silent p hb hn
    · exact h'.silent p hp hb
  closed p hp hn p' hlead := by
    by_cases hb : p ∈ b
    · exact h'.kept p' (h.closed p hb hn p' hlead)
    · exact h'.closed p hp hb p' hlead

def Left (s : Set Query) (tried : List Query) (n : Nat) : Prop := (s \ {p | p ∈ tried}).encard ≤ n

theorem Left.mono {s : Set Query} {tried after : List Query} {n : Nat} (h : Left s tried n)
    (sub : ∀ p ∈ tried, p ∈ after) : Left s after n := by
  refine le_trans (Set.encard_le_encard ?_) h
  intro p hp
  exact ⟨hp.1, fun hm => hp.2 (sub p hm)⟩

theorem Left.tried {s : Set Query} {tried : List Query} {q : Query} (h : Left s tried 0)
    (hq : q ∈ s) :
    q ∈ tried := by
  by_contra hn
  have none : s \ {p | p ∈ tried} = ∅ := by simpa [Left] using h
  have left : q ∈ s \ {p | p ∈ tried} := ⟨hq, hn⟩
  rw [none] at left
  exact left

theorem Left.cons {s : Set Query} {tried : List Query} {q : Query} {n : Nat}
    (h : Left s tried (n + 1)) (hq : q ∈ s) (hn : q ∉ tried) : Left s (q :: tried) n := by
  have rest : s \ {p | p ∈ q :: tried} = (s \ {p | p ∈ tried}) \ {q} := by
    ext p
    simp only [Set.mem_sdiff, Set.mem_ofPred_eq, List.mem_cons, Set.mem_singleton_iff]
    tauto
  have count := Set.encard_sdiff_singleton_add_one (show q ∈ s \ {p | p ∈ tried} from ⟨hq, hn⟩)
  rw [Left, rest]
  rw [Left, ← count, Nat.cast_add, Nat.cast_one] at h
  exact (ENat.add_le_add_iff_right (by simp)).mp h

theorem explored_of_attempts {s : Set Query} {ask : Query → Search (Option Origin)} {n : Nat}
    (hask : ∀ p ∈ s, ∀ t t', Left s t n → (ask p).run t = (none, t') → p ∈ t' ∧ w.Explored t t')
    {xs : List Attempt} (hxs : ∀ p ∈ Attempt.asked xs, p ∈ s) {tried after : List Query}
    (hleft : Left s tried n)
    (h : (firstFound (Attempt.follow ask) xs).run tried = (none, after)) :
    Attempt.answered xs = none ∧ (∀ p ∈ Attempt.asked xs, p ∈ after) ∧ w.Explored tried after := by
  induction xs generalizing tried with
  | nil =>
    cases h
    exact ⟨rfl, by simp [Attempt.asked], .refl _⟩
  | cons x rest ih =>
    cases x with
    | answer o =>
      rw [Attempt.run_answer] at h
      cases h
    | ask p =>
      rcases hp : (ask p).run tried with ⟨found, next⟩
      cases found with
      | some o =>
        rw [Attempt.run_ask_of_some hp] at h
        cases h
      | none =>
        rw [Attempt.run_ask_of_none hp] at h
        obtain ⟨hpn, first⟩ := hask p (hxs p (by simp [Attempt.asked])) _ _ hleft hp
        have later : ∀ p' ∈ Attempt.asked rest, p' ∈ s := fun p' hp' =>
          hxs p' (List.mem_cons_of_mem _ hp')
        obtain ⟨answer, asked, more⟩ := ih later (hleft.mono first.kept) h
        refine ⟨answer, ?_, first.trans more⟩
        intro p' hp'
        rcases List.mem_cons.mp hp' with rfl | hp'
        · exact more.kept _ hpn
        · exact asked p' hp'

/-- A search with enough steps for all queries that are left explores what it can reach. -/
theorem explored_of_search {s : Set Query} (hs : ∀ q ∈ s, ∀ p, w.LeadsTo q p → p ∈ s) {steps : Nat}
    {q : Query} (hq : q ∈ s) {tried after : List Query} (hleft : Left s tried steps)
    (h : (w.search steps q).run tried = (none, after)) : q ∈ after ∧ w.Explored tried after := by
  -- the steps run out only when every query of the set was tried
  induction steps generalizing q tried after with
  | zero =>
    cases h
    exact ⟨hleft.tried hq, .refl _⟩
  | succ n ih =>
    by_cases seen : q ∈ tried
    · rw [run_search_of_tried seen] at h
      cases h
      exact ⟨seen, .refl _⟩
    rw [run_search_of_new seen] at h
    have inside : ∀ p ∈ Attempt.asked (w.attempts q), p ∈ s :=
      fun p hp => hs q hq p (leadsTo_iff.mpr hp)
    obtain ⟨answer, asked, explored⟩ :=
      explored_of_attempts (fun p hp _ _ hl hrun => ih hp hl hrun) inside (hleft.cons hq seen) h
    have self : q ∈ after := explored.kept q (List.mem_cons_self ..)
    refine ⟨self, fun p hp => explored.kept p (List.mem_cons_of_mem _ hp), ?_, ?_⟩
    · intro p hp hn
      by_cases same : p = q
      · rw [same, directAnswer_eq]
        exact answer
      · exact explored.silent p hp (by simp [same, hn])
    · intro p hp hn p' hlead
      by_cases same : p = q
      · exact asked p' (leadsTo_iff.mp (same ▸ hlead))
      · exact explored.closed p hp (by simp [same, hn]) p' hlead

/-- With a step for every query that can be reached, a search succeeds exactly if one of them has an
answer. -/
theorem search_isSome_iff {steps : Nat} {q : Query} (few : {p | w.Reaches q p}.encard ≤ steps) :
    ((w.search steps q).run []).1.isSome ↔ ∃ p, w.Reaches q p ∧ (w.directAnswer p).isSome := by
  rcases hrun : (w.search steps q).run [] with ⟨found, after⟩
  cases found with
  | some o =>
    obtain ⟨p, hreach, hanswer⟩ := reaches_of_search hrun
    simp only [Option.isSome_some, true_iff]
    exact ⟨p, hreach, by simp [hanswer]⟩
  | none =>
    have closed : ∀ q' ∈ {p | w.Reaches q p}, ∀ p, w.LeadsTo q' p → p ∈ {p | w.Reaches q p} :=
      fun q' hq' p hlead => Relation.ReflTransGen.tail hq' hlead
    have left : Left {p | w.Reaches q p} [] steps := by simpa [Left] using few
    obtain ⟨start, explored⟩ := explored_of_search closed (by exact .refl) left hrun
    -- everything that can be reached was tried, and so has no answer
    have tried : ∀ p, w.Reaches q p → p ∈ after := by
      intro p hreach
      induction hreach with
      | refl => exact start
      | tail _ hlead ih => exact explored.closed _ ih (by simp) _ hlead
    simp only [Option.isSome_none, Bool.false_eq_true, false_iff, not_exists, not_and]
    intro p hreach
    simp [explored.silent p (tried p hreach) (by simp)]

/-- A list that holds a query and whatever its members lead to bounds what can be reached. -/
theorem encard_reaches_le {q : Query} {qs : List Query} (hq : q ∈ qs)
    (closed : ∀ p ∈ qs, ∀ p' ∈ (w.visit p).2, p' ∈ qs) :
    {p | w.Reaches q p}.encard ≤ qs.length := by
  have inside : {p | w.Reaches q p} ⊆ (qs.toFinset : Set Query) := by
    intro p hreach
    simp only [List.coe_toFinset, Set.mem_ofPred_eq]
    induction hreach with
    | refl => exact hq
    | tail _ hlead ih => exact closed _ ih _ hlead
  calc {p | w.Reaches q p}.encard
    _ ≤ (qs.toFinset : Set Query).encard := Set.encard_le_encard inside
    _ = qs.toFinset.card := Set.encard_coe_eq_coe_finsetCard _
    _ ≤ qs.length := by exact_mod_cast List.toFinset_card_le qs

/-- A name is resolved exactly if some query that it leads to has an answer of its own, as long as
there are no more such queries than the depth limit lets the search try one below the other. In
cyclic imports and in inheritance along several lines nothing is lost because a query was tried
before. -/
theorem resolve_isSome_iff_answer_reached (w : World) (depth : Nat) (name file : String)
    (named : name ≠ "")
    (few : {p | w.Reaches ⟨w.index.absolute file, name⟩ p}.encard ≤ (depth + 1 : Nat)) :
    (w.resolve (depth + 1) name file).origin.isSome ↔
      ∃ p, w.Reaches ⟨w.index.absolute file, name⟩ p ∧ (w.directAnswer p).isSome := by
  rw [resolve, if_neg named]
  exact search_isSome_iff few

def cycleTree : FileTree :=
  ((FileTree.empty.write "/r/a.py" (.file "from b import x\n".toUTF8)).write "/r/b.py"
    (.file "from c import *\nfrom a import x\n".toUTF8)).write "/r/c.py" (.file "x = 1\n".toUTF8)

def cycleWorld : World := .ofTree (.ofFiles "/r" ["a.py", "b.py", "c.py"]) cycleTree .empty

def cycleQueries : List Query := [⟨"/r/a.py", "x"⟩, ⟨"/r/b.py", "x"⟩, ⟨"/r/c.py", "x"⟩]

set_option maxRecDepth 100000 in
/-- The limit is as tight as it can be: there is one step for each query. -/
theorem cycle_resolve_isSome :
    {p | cycleWorld.Reaches ⟨cycleWorld.index.absolute "a.py", "x"⟩ p}.encard ≤ (2 + 1 : Nat) ∧
    (cycleWorld.resolve (2 + 1) "x" "a.py").origin = some ⟨"/r/c.py", "x", "x", .variable⟩ ∧
    ∃ p, cycleWorld.Reaches ⟨cycleWorld.index.absolute "a.py", "x"⟩ p ∧
      (cycleWorld.directAnswer p).isSome := by
  have closed : ∀ p ∈ cycleQueries, ∀ p' ∈ (cycleWorld.visit p).2, p' ∈ cycleQueries := by
    decide +kernel
  have few := encard_reaches_le (q := ⟨cycleWorld.index.absolute "a.py", "x"⟩)
    (by decide +kernel) closed
  have found : (cycleWorld.resolve (2 + 1) "x" "a.py").origin =
      some ⟨"/r/c.py", "x", "x", .variable⟩ := by decide +kernel
  have reached := resolve_isSome_iff_answer_reached cycleWorld 2 "x" "a.py" (by decide) few
  exact ⟨few, found, reached.mp (by rw [found]; rfl)⟩

def packageTree : FileTree :=
  (FileTree.empty.write "/w/repo_root/pkg/__init__.py" (.file .empty)).write "/w/repo_root/pkg/a.py"
    (.file .empty)

def packageWorld : World :=
  .ofTree (.ofFiles "/w/repo_root" ["pkg/__init__.py", "pkg/a.py"]) packageTree .empty

set_option maxRecDepth 100000 in
/-- The empty name is never resolved, although next to a module the package itself answers to it. -/
theorem empty_name_unresolved :
    {p | packageWorld.Reaches ⟨packageWorld.index.absolute "pkg/a.py", ""⟩ p}.encard ≤
      (64 + 1 : Nat) ∧
    (∃ p, packageWorld.Reaches ⟨packageWorld.index.absolute "pkg/a.py", ""⟩ p ∧
      packageWorld.directAnswer p = some (.ofModule "/w/repo_root/pkg/__init__.py" "")) ∧
    (packageWorld.resolve (64 + 1) "" "pkg/a.py").origin = none := by
  have closed : ∀ p ∈ [(⟨"/w/repo_root/pkg/a.py", ""⟩ : Query)], ∀ p' ∈ (packageWorld.visit p).2,
      p' ∈ [(⟨"/w/repo_root/pkg/a.py", ""⟩ : Query)] := by decide +kernel
  have few := encard_reaches_le (q := ⟨packageWorld.index.absolute "pkg/a.py", ""⟩)
    (by decide +kernel) closed
  refine ⟨le_trans few (by decide), ⟨_, .refl, by decide +kernel⟩, rfl⟩

end World

end RepoAtlas
