import RepoAtlas.Proofs.Origin.Completeness

/-!
What a higher depth limit can cost. A query counts as tried from the moment that the search comes to
it, even at the limit, where nothing that it leads to is tried any more. When the search comes to
the same query again, by a shorter route, it goes on past it. So a search may find nothing where one
with a lower limit, which does not get that far on the long route, finds an origin on the short one.
This is the only way in which a higher limit loses an origin.
-/
namespace RepoAtlas.World
variable {w : World}

/-- So many steps lead from one query to another. -/
inductive Route (w : World) : Nat → Query → Query → Prop where
  | here (q : Query) : Route w 0 q q
  | step {n : Nat} {q p r : Query} : w.LeadsTo q p → Route w n p r → Route w (n + 1) q r

def triedBy (w : World) (limit : Nat) (q : Query) : List Query :=
  ((w.search (limit + 1) q).run []).2

/-- A query that a search comes to at its depth limit. Something that it leads to is never tried. -/
structure CutOff (w : World) (limit : Nat) (start q : Query) : Prop where
  tried : q ∈ w.triedBy limit start
  route : w.Route limit start q
  dropped : ∃ p, w.LeadsTo q p ∧ p ∉ w.triedBy limit start

/-- Whatever is found is the direct answer of a query that fewer steps lead to than there were. -/
theorem route_of_search {steps : Nat} {q : Query} {tried after : List Query} {o : Origin}
    (h : (w.search steps q).run tried = (some o, after)) :
    ∃ n < steps, ∃ p, w.Route n q p ∧ w.directAnswer p = some o := by
  induction steps generalizing q tried after with
  | zero => cases h
  | succ steps ih =>
    by_cases seen : q ∈ tried
    · rw [run_search_of_tried seen] at h
      cases h
    rw [run_search_of_new seen] at h
    rcases Attempt.found_of_run h with answer | ⟨p, hp, t, t', found⟩
    · exact ⟨0, Nat.succ_pos steps, q, .here q, (directAnswer_eq q).trans answer⟩
    · obtain ⟨n, hn, r, route, answer⟩ := ih found
      exact ⟨n + 1, Nat.succ_lt_succ hn, r, .step (leadsTo_iff.mpr hp) route, answer⟩

/-- What a search that finds nothing adds to the queries tried, when those at its depth limit may
lead to others that were not tried. -/
structure Swept (w : World) (AtLimit : Query → Prop) (before after : List Query) : Prop where
  kept : ∀ p ∈ before, p ∈ after
  silent : ∀ p ∈ after, p ∉ before → w.directAnswer p = none
  closed : ∀ p ∈ after, p ∉ before → AtLimit p ∨ ∀ p', w.LeadsTo p p' → p' ∈ after

namespace Swept
variable {AtLimit AtLimit' : Query → Prop} {a b c : List Query}

theorem refl (tried : List Query) : w.Swept AtLimit tried tried :=
  ⟨fun _ h => h, fun _ h new => absurd h new, fun _ h new => absurd h new⟩

theorem trans (h : w.Swept AtLimit a b) (h' : w.Swept AtLimit b c) : w.Swept AtLimit a c where
  kept p hp := h'.kept p (h.kept p hp)
  silent p hp new := by
    by_cases hb : p ∈ b
    · exact h.silent p hb new
    · exact h'.silent p hp hb
  closed p hp new := by
    by_cases hb : p ∈ b
    · exact (h.closed p hb new).imp_right fun all p' lead => h'.kept p' (all p' lead)
    · exact h'.closed p hp hb

theorem mono (h : w.Swept AtLimit a b) (weaker : ∀ p, AtLimit p → AtLimit' p) :
    w.Swept AtLimit' a b :=
  ⟨h.kept, h.silent, fun p hp new => (h.closed p hp new).imp_left (weaker p)⟩

/-- The query itself joins what was swept behind it. -/
theorem cons {q : Query} (h : w.Swept AtLimit (q :: a) b) (silent : w.directAnswer q = none)
    (closed : AtLimit q ∨ ∀ p, w.LeadsTo q p → p ∈ b) : w.Swept AtLimit a b where
  kept p hp := h.kept p (List.mem_cons_of_mem q hp)
  silent p hp new := by
    by_cases same : p = q
    · rw [same, silent]
    · exact h.silent p hp (by simp [same, new])
  closed p hp new := by
    by_cases same : p = q
    · rw [same]
      exact closed
    · exact h.closed p hp (by simp [same, new])

end Swept

/-- Attempts that find nothing have no answer among them; if every query asked counts as tried
afterwards, then they all do. -/
theorem swept_of_attempts {AtLimit : Query → Prop} {ask : Query → Search (Option Origin)}
    {xs : List Attempt} {deeper : Prop}
    (hask : ∀ p ∈ Attempt.asked xs, ∀ t t', (ask p).run t = (none, t') → w.Swept AtLimit t t' ∧
      (deeper → p ∈ t'))
    {tried after : List Query}
    (h : (firstFound (Attempt.follow ask) xs).run tried = (none, after)) :
    Attempt.answered xs = none ∧ w.Swept AtLimit tried after ∧
      (deeper → ∀ p ∈ Attempt.asked xs, p ∈ after) := by
  induction xs generalizing tried with
  | nil =>
    cases h
    exact ⟨rfl, .refl _, fun _ p hp => by cases hp⟩
  | cons x rest ih =>
    cases x with
    | answer o =>
      rw [Attempt.run_answer] at h
      cases h
    | ask p =>
      rcases hp : (ask p).run tried with ⟨found, next⟩
      cases found with
      | some o =>
        rw [Attempt.run_ask_of_some hp] at h
        cases h
      | none =>
        rw [Attempt.run_ask_of_none hp] at h
        obtain ⟨first, own⟩ := hask p List.mem_cons_self _ _ hp
        obtain ⟨answer, more, others⟩ := ih (fun p' hp' => hask p' (List.mem_cons_of_mem _ hp')) h
        refine ⟨answer, first.trans more, fun deep p' hp' => ?_⟩
        rcases List.mem_cons.mp hp' with rfl | hp'
        · exact more.kept _ (own deep)
        · exact others deep p' hp'

/-- A search that finds nothing leaves out only what comes behind queries at its depth limit. -/
theorem swept_of_search {limit : Nat} {q : Query} {tried after : List Query}
    (h : (w.search (limit + 1) q).run tried = (none, after)) :
    q ∈ after ∧ w.Swept (w.Route limit q) tried after := by
  induction limit generalizing q tried after with
  | zero =>
    by_cases seen : q ∈ tried
    · rw [run_search_of_tried seen] at h
      cases h
      exact ⟨seen, .refl _⟩
    rw [run_search_of_new seen] at h
    -- at the limit nothing is asked any more
    have idle : ∀ p ∈ Attempt.asked (w.attempts q), ∀ t t', (w.search 0 p).run t = (none, t') →
        w.Swept (w.Route 0 q) t t' ∧ (False → p ∈ t') := by
      intro p _ t t' run
      cases run
      exact ⟨.refl _, False.elim⟩
    obtain ⟨answer, swept, _⟩ := swept_of_attempts idle h
    refine ⟨swept.kept q List.mem_cons_self, swept.cons ?_ (Or.inl (.here q))⟩
    rw [directAnswer_eq, answer]
  | succ limit ih =>
    by_cases seen : q ∈ tried
    · rw [run_search_of_tried seen] at h
      cases h
      exact ⟨seen, .refl _⟩
    rw [run_search_of_new seen] at h
    have below : ∀ p ∈ Attempt.asked (w.attempts q), ∀ t t',
        (w.search (limit + 1) p).run t = (none, t') →
        w.Swept (w.Route (limit + 1) q) t t' ∧ (True → p ∈ t') := by
      intro p hp t t' run
      obtain ⟨own, swept⟩ := ih run
      exact ⟨swept.mono fun r route => .step (leadsTo_iff.mpr hp) route, fun _ => own⟩
    obtain ⟨answer, swept, asked⟩ := swept_of_attempts below h
    refine ⟨swept.kept q List.mem_cons_self, swept.cons ?_ (Or.inr fun p lead => ?_)⟩
    · rw [directAnswer_eq, answer]
    · exact asked trivial p (leadsTo_iff.mp lead)

/-- A route out of a set of queries leaves it at some step. -/
theorem Route.leaves {n : Nat} {q r : Query} (h : w.Route n q r) {inside : Query → Prop}
    (hq : inside q) (hr : ¬ inside r) :
    ∃ k < n, ∃ p, w.Route k q p ∧ inside p ∧ ∃ p', w.LeadsTo p p' ∧ ¬ inside p' := by
  induction h with
  | here q => exact absurd hq hr
  | @step n q p r lead route ih =>
    by_cases hp : inside p
    · obtain ⟨k, hk, p', route', inside', out⟩ := ih hp hr
      exact ⟨k + 1, Nat.succ_lt_succ hk, p', .step lead route', inside', out⟩
    · exact ⟨0, Nat.succ_pos n, q, .here q, hq, p, lead, hp⟩

/-- A search with another limit finds an origin as well, unless it cuts off a query that fewer steps
lead to than the first limit. -/
theorem search_kept_unless_cutOff (d d' : Nat) {q : Query}
    (found : ((w.search (d + 1) q).run []).1.isSome = true) :
    ((w.search (d' + 1) q).run []).1.isSome = true ∨
      ∃ k < d, ∃ p, w.Route k q p ∧ w.CutOff d' q p := by
  rcases first : (w.search (d + 1) q).run [] with ⟨_ | o, _⟩
  · rw [first] at found
    cases found
  obtain ⟨n, hn, r, route, answer⟩ := route_of_search first
  rcases second : (w.search (d' + 1) q).run [] with ⟨_ | o', after⟩
  · obtain ⟨start, swept⟩ := swept_of_search second
    have outside : r ∉ after := by
      intro hr
      rw [swept.silent r hr List.not_mem_nil] at answer
      cases answer
    obtain ⟨k, hk, p, short, tried, p', lead, untried⟩ := route.leaves start outside
    have all : w.triedBy d' q = after := by rw [triedBy, second]
    -- a query below the limit has all that it leads to tried
    have long : w.Route d' q p := by
      rcases swept.closed p tried List.not_mem_nil with atLimit | closed
      · exact atLimit
      · exact absurd (closed p' lead) untried
    exact Or.inr ⟨k, by omega, p, short, all ▸ tried, long, p', lead, all ▸ untried⟩
  · exact Or.inl rfl

/-- A name that has an origin within the depth limit `d` has one within any limit `d'`, unless the
search with that limit cuts off a query that a route of fewer than `d` steps leads to. If `d'` is
not lower than `d`, then there is a longer route to that query, on which the search comes to it
first. -/
theorem resolution_kept_unless_cutOff (w : World) (name file : String) (d d' : Nat)
    (found : (w.resolve (d + 1) name file).origin.isSome = true) :
    (w.resolve (d' + 1) name file).origin.isSome = true ∨
      ∃ k < d, ∃ p, w.Route k ⟨w.index.absolute file, name⟩ p ∧
        w.CutOff d' ⟨w.index.absolute file, name⟩ p := by
  by_cases named : name = ""
  · rw [resolve, if_pos named] at found
    cases found
  · rw [resolve, if_neg named] at found ⊢
    exact search_kept_unless_cutOff d d' found

def detourTree : FileTree :=
  ((((FileTree.empty.write
    "/r/a.py" (.file "from l import *\nfrom x import *\n".toUTF8)).write
    "/r/l.py" (.file "from m import *\n".toUTF8)).write
    "/r/m.py" (.file "from x import *\n".toUTF8)).write
    "/r/x.py" (.file "from y import *\n".toUTF8)).write
    "/r/y.py" (.file "h = 1\n".toUTF8)

def detourWorld : World :=
  .ofTree (.ofFiles "/r" ["a.py", "l.py", "m.py", "x.py", "y.py"]) detourTree .empty

set_option maxRecDepth 100000 in
theorem detour_found : (detourWorld.resolve (2 + 1) "h" "a.py").origin =
    some ⟨"/r/y.py", "h", "h", .variable⟩ := by
  decide +kernel

set_option maxRecDepth 100000 in
theorem detour_lost : (detourWorld.resolve (3 + 1) "h" "a.py").origin = none := by
  decide +kernel

/-- With a limit of three steps `x` is reached on the longer way, too late for what it imports, and
is not tried again. -/
theorem detour_loses_resolution :
    (detourWorld.resolve (2 + 1) "h" "a.py").origin.isSome = true ∧
      ¬ (detourWorld.resolve (3 + 1) "h" "a.py").origin.isSome = true := by
  rw [detour_found, detour_lost]
  decide

theorem detour_cuts_off :
    (detourWorld.resolve (2 + 1) "h" "a.py").origin.isSome = true ∧
      ∃ k < 2, ∃ p, detourWorld.Route k ⟨detourWorld.index.absolute "a.py", "h"⟩ p ∧
        detourWorld.CutOff 3 ⟨detourWorld.index.absolute "a.py", "h"⟩ p := by
  have found : (detourWorld.resolve (2 + 1) "h" "a.py").origin.isSome = true := by
    rw [detour_found]
    rfl
  refine ⟨found, (resolution_kept_unless_cutOff detourWorld "h" "a.py" 2 3 found).resolve_left ?_⟩
  rw [detour_lost]
  decide

end RepoAtlas.World
