import RepoAtlas.Proofs.Origin.Completeness
import RepoAtlas.Proofs.Origin
import RepoAtlas.Proofs.Text.Segments

/-!
Two ways to look a name up. Resolution starts in the file itself and tries the imports of a name
from the last to the first; the other way starts from one import, and keeps the first of those that
explain the name equally well. Where a name is imported from one place only, and no import leads
back to the name, the two agree; a name that is imported again from elsewhere is taken from its
last import by the one and from its first by the other.
-/
namespace RepoAtlas
open Text Python

namespace Attempt
variable {p : Query} {xs ys : List Attempt}

theorem mem_asked_append_left (h : p ∈ asked xs) : p ∈ asked (xs ++ ys) := by
  induction xs with
  | nil => cases h
  | cons a xs ih =>
    cases a with
    | answer o => cases h
    | ask p' =>
      rcases List.mem_cons.mp h with rfl | h
      · exact List.mem_cons_self ..
      · exact List.mem_cons_of_mem _ (ih h)

theorem mem_asked_append_right (asks : ∀ a ∈ xs, ∃ p, a = .ask p) (h : p ∈ asked ys) :
    p ∈ asked (xs ++ ys) := by
  induction xs with
  | nil => exact h
  | cons a xs ih =>
    obtain ⟨p', rfl⟩ := asks a (List.mem_cons_self ..)
    exact List.mem_cons_of_mem _ (ih fun b hb => asks b (List.mem_cons_of_mem _ hb))

end Attempt

namespace World
variable {w : World} {n m : Nat} {q : Query} {o : Origin} {a : Attempt} {xs ys : List Attempt}
  {tried mid after other : List Query} {found : Option Origin}

/-! Searches that stay above the depth limit. -/

/-- The attempts are tried in order, with so many levels of queries below them, and no query meets
the limit. What is found, and the queries tried by then, come last. -/
inductive Tries (w : World) : Nat → List Query → List Attempt → Option Origin → List Query → Prop
  | nil {n : Nat} {tried : List Query} : Tries w n tried [] none tried
  | answer {n : Nat} {tried : List Query} {o : Origin} {rest : List Attempt} :
    Tries w n tried (.answer o :: rest) (some o) tried
  | again {n : Nat} {tried after : List Query} {p : Query} {rest : List Attempt}
    {found : Option Origin} (old : p ∈ tried) (later : Tries w (n + 1) tried rest found after) :
    Tries w (n + 1) tried (.ask p :: rest) found after
  | found {n : Nat} {tried after : List Query} {p : Query} {rest : List Attempt} {o : Origin}
    (new : p ∉ tried) (inner : Tries w n (p :: tried) (w.attempts p) (some o) after) :
    Tries w (n + 1) tried (.ask p :: rest) (some o) after
  | missed {n : Nat} {tried mid after : List Query} {p : Query} {rest : List Attempt}
    {found : Option Origin} (new : p ∉ tried)
    (inner : Tries w n (p :: tried) (w.attempts p) none mid)
    (later : Tries w (n + 1) mid rest found after) :
      Tries w (n + 1) tried (.ask p :: rest) found after

def SameBut (q : Query) (s t : List Query) : Prop := ∀ x, x ≠ q → (x ∈ s ↔ x ∈ t)

theorem SameBut.cons {s t : List Query} (same : SameBut q s t) (p : Query) :
    SameBut q (p :: s) (p :: t) := by
  intro x hx
  rw [List.mem_cons, List.mem_cons, same x hx]

namespace Tries

theorem run (h : w.Tries n tried xs found after) :
    (firstFound (Attempt.follow (w.search n)) xs).run tried = (found, after) := by
  induction h with
  | nil => rfl
  | answer => exact Attempt.run_answer _
  | again old _ ih => rw [Attempt.run_ask_of_none (run_search_of_tried old), ih]
  | found new _ ih => exact Attempt.run_ask_of_some (by rw [run_search_of_new new, ih]) _
  | missed new _ _ ihInner ihLater =>
    rw [← ihLater]
    exact Attempt.run_ask_of_none (by rw [run_search_of_new new, ihInner]) _

theorem unique {found' : Option Origin} {after' : List Query} (h : w.Tries n tried xs found after)
    (h' : w.Tries n tried xs found' after') : found = found' ∧ after = after' :=
  Prod.mk.inj (h.run.symm.trans h'.run)

/-- More levels change nothing. -/
theorem deeper (h : w.Tries n tried xs found after) (le : n ≤ m) :
    w.Tries m tried xs found after := by
  induction h generalizing m with
  | nil => exact .nil
  | answer => exact .answer
  | again old _ ih =>
    obtain ⟨m, rfl⟩ := Nat.exists_eq_add_of_le' (Nat.le_of_add_left_le le)
    exact .again old (ih le)
  | found new _ ih =>
    obtain ⟨m, rfl⟩ := Nat.exists_eq_add_of_le' (Nat.le_of_add_left_le le)
    exact .found new (ih (by omega))
  | missed new _ _ ihInner ihLater =>
    obtain ⟨m, rfl⟩ := Nat.exists_eq_add_of_le' (Nat.le_of_add_left_le le)
    exact .missed new (ihInner (by omega)) (ihLater le)

theorem kept (h : w.Tries n tried xs found after) : ∀ x ∈ tried, x ∈ after := by
  induction h with
  | nil => exact fun _ => id
  | answer => exact fun _ => id
  | again _ _ ih => exact ih
  | found _ _ ih => exact fun x hx => ih x (List.mem_cons_of_mem _ hx)
  | missed _ _ _ ihInner ihLater =>
    exact fun x hx => ihLater x (ihInner x (List.mem_cons_of_mem _ hx))

/-- Attempts that lead nowhere are queries, and all of them were tried. -/
theorem all_asked (h : w.Tries n tried xs none after) : ∀ a ∈ xs, ∃ p, a = .ask p ∧ p ∈ after := by
  induction xs generalizing tried with
  | nil => simp
  | cons a xs ih =>
    intro b hb
    cases h with
    | again old later =>
      rcases List.mem_cons.mp hb with rfl | hb
      · exact ⟨_, rfl, later.kept _ old⟩
      · exact ih later b hb
    | missed _ inner later =>
      rcases List.mem_cons.mp hb with rfl | hb
      · exact ⟨_, rfl, later.kept _ (inner.kept _ (List.mem_cons_self ..))⟩
      · exact ih later b hb

/-- Trying them again is of no use. -/
theorem retry (h : w.Tries n tried xs none after) (sub : ∀ x ∈ after, x ∈ other) :
    w.Tries n other xs none other := by
  induction xs generalizing tried with
  | nil => exact .nil
  | cons a xs ih =>
    cases h with
    | again old later => exact .again (sub _ (later.kept _ old)) (ih later)
    | missed _ inner later =>
      exact .again (sub _ (later.kept _ (inner.kept _ (List.mem_cons_self ..)))) (ih later)

theorem append (h : w.Tries n tried xs none mid) (h' : w.Tries n mid ys found after) :
    w.Tries n tried (xs ++ ys) found after := by
  induction xs generalizing tried with
  | nil =>
    cases h
    exact h'
  | cons a xs ih =>
    cases h with
    | again old later => exact .again old (ih later)
    | missed new inner later => exact .missed new inner (ih later)

theorem split (h : w.Tries n tried (xs ++ ys) found after) :
    (∃ o, found = some o ∧ w.Tries n tried xs (some o) after) ∨
      ∃ mid, w.Tries n tried xs none mid ∧ w.Tries n mid ys found after := by
  induction xs generalizing tried with
  | nil => exact .inr ⟨tried, .nil, h⟩
  | cons a xs ih =>
    cases h with
    | answer => exact .inl ⟨_, rfl, .answer⟩
    | again old later =>
      rcases ih later with ⟨o, rfl, first⟩ | ⟨mid, first, rest⟩
      · exact .inl ⟨o, rfl, .again old first⟩
      · exact .inr ⟨mid, .again old first, rest⟩
    | found new inner => exact .inl ⟨_, rfl, .found new inner⟩
    | missed new inner later =>
      rcases ih later with ⟨o, rfl, first⟩ | ⟨mid, first, rest⟩
      · exact .inl ⟨o, rfl, .missed new inner first⟩
      · exact .inr ⟨mid, .missed new inner first, rest⟩

theorem retry_copies (h : w.Tries n tried [a] none after) (copies : ∀ b ∈ xs, b = a) :
    w.Tries n after xs none after := by
  induction xs with
  | nil => exact .nil
  | cons b xs ih =>
    have rest := ih fun b hb => copies b (List.mem_cons_of_mem _ hb)
    rw [copies b (List.mem_cons_self ..)]
    exact (h.retry fun _ => id).append rest

/-- Copies of one attempt do what one of them does. -/
theorem of_copies (h : w.Tries n tried (a :: xs) found after) (copies : ∀ b ∈ xs, b = a) :
    w.Tries n tried [a] found after := by
  have h : w.Tries n tried ([a] ++ xs) found after := h
  rcases h.split with ⟨o, rfl, first⟩ | ⟨mid, first, rest⟩
  · exact first
  · obtain ⟨rfl, rfl⟩ := rest.unique (first.retry_copies copies)
    exact first

/-- Whether a query was tried before makes no difference to attempts that never come to it. -/
theorem frame (h : w.Tries n tried xs found after) (apart : ∀ p ∈ Attempt.asked xs, ¬ w.Reaches p q)
    (same : SameBut q other tried) :
    ∃ other', w.Tries n other xs found other' ∧ SameBut q other' after ∧
      (q ∈ other' ↔ q ∈ other) := by
  induction h generalizing other with
  | nil => exact ⟨other, .nil, same, Iff.rfl⟩
  | answer => exact ⟨other, .answer, same, Iff.rfl⟩
  | @again _ _ _ p _ _ old _ ih =>
    have ne : p ≠ q := fun h => apart p (List.mem_cons_self ..) (h ▸ .refl)
    obtain ⟨other', later, same', here⟩ := ih (fun p hp => apart p (List.mem_cons_of_mem _ hp)) same
    exact ⟨other', .again ((same p ne).mpr old) later, same', here⟩
  | @found _ _ _ p _ _ new _ ih =>
    have away := apart p (List.mem_cons_self ..)
    have ne : p ≠ q := fun h => away (h ▸ .refl)
    obtain ⟨other', inner, same', here⟩ :=
      ih (fun x hx back => away (.head (leadsTo_iff.mpr hx) back)) (same.cons p)
    refine ⟨other', .found (fun h => new ((same p ne).mp h)) inner, same', ?_⟩
    rw [here, List.mem_cons, or_iff_right ne.symm]
  | @missed _ _ _ _ p _ _ new _ _ ihInner ihLater =>
    have away := apart p (List.mem_cons_self ..)
    have ne : p ≠ q := fun h => away (h ▸ .refl)
    obtain ⟨between, inner, same', here⟩ :=
      ihInner (fun x hx back => away (.head (leadsTo_iff.mpr hx) back)) (same.cons p)
    obtain ⟨other', later, same'', here'⟩ :=
      ihLater (fun p hp => apart p (List.mem_cons_of_mem _ hp)) same'
    refine ⟨other', .missed (fun h => new ((same p ne).mp h)) inner later, same'', ?_⟩
    rw [here', here, List.mem_cons, or_iff_right ne.symm]

end Tries

end World

/-! Imports of a plain name. -/

def Python.Import.binds? (i : Import) : Option String :=
  if i.kind = .wildcard then none else some (firstSegment '.' i.boundAs)

/-- The file has a name from `from … import` of that name only, without another name for it. -/
structure OnlyImported (source : SourceFile) (name : String) : Prop where
  undefined : source.find? name none = none
  unassigned : source.hasVariable name = false
  plain : ∀ i ∈ source.imports,
    i.binds? = some name ∨ i.kind = .member ∧ firstSegment '.' i.name = name →
      i.kind = .member ∧ i.name = name ∧ i.boundAs = name

instance (source : SourceFile) (name : String) : Decidable (OnlyImported source name) :=
  decidable_of_iff ((source.find? name none).isNone ∧ source.hasVariable name = false ∧
      ∀ i ∈ source.imports, i.binds? = some name ∨ i.kind = .member ∧
        firstSegment '.' i.name = name →
        i.kind = .member ∧ i.name = name ∧ i.boundAs = name)
    ⟨fun h => ⟨Option.isNone_iff_eq_none.mp h.1, h.2.1, h.2.2⟩,
      fun h => ⟨Option.isNone_iff_eq_none.mpr h.undefined, h.unassigned, h.plain⟩⟩

namespace World
variable {w : World} {file name start rest : String} {source : SourceFile} {i : Import}

theorem eq_append_of_afterStart? (h : afterStart? start name = some rest) :
    name = start ++ rest := by
  rw [afterStart?] at h
  split at h
  · rename_i starts
    obtain ⟨tail, htail⟩ := List.isPrefixOf_iff_prefix.mp starts
    rw [Option.some.injEq, ← htail, List.drop_left] at h
    rw [← String.toList_inj, ← htail, String.toList_append, ← h, String.toList_ofList]
  · cases h

theorem firstSegment_of_remainder? (h : remainder? name start = some rest) :
    firstSegment '.' start = firstSegment '.' name := by
  rw [remainder?] at h
  split at h
  · rename_i same
    rw [same]
  · have whole : name = start ++ String.singleton '.' ++ rest := eq_append_of_afterStart? h
    rw [firstSegment, firstSegment, whole, segments_append_sep]
    cases hs : segments '.' start with
    | nil => exact absurd hs (segments_ne_nil '.' start)
    | cons part parts => rfl

theorem firstSegment_firstSegment (s : String) :
    firstSegment '.' (firstSegment '.' s) = firstSegment '.' s := by
  cases hs : segments '.' s with
  | nil => exact absurd hs (segments_ne_nil '.' s)
  | cons part parts =>
    have first : firstSegment '.' s = part := by rw [firstSegment, hs, List.headD_cons]
    have plain : '.' ∉ part.toList := not_mem_of_mem_segments (by rw [hs]; simp)
    rw [first, firstSegment, segments_free plain, List.headD_cons]

theorem moduleAttempt_of_unbound (h : firstSegment '.' i.boundAs ≠ firstSegment '.' name) :
    w.moduleAttempt file i name = none := by
  rw [moduleAttempt]
  cases hr : remainder? name i.boundAs with
  | some rest => exact absurd (firstSegment_of_remainder? hr) h
  | none =>
    by_cases plain : i.boundAs = i.name
    · simp only [if_pos plain]
      cases ht : remainder? name (firstSegment '.' i.name) with
      | none => rfl
      | some rest =>
        have top := firstSegment_of_remainder? ht
        rw [firstSegment_firstSegment, ← plain] at top
        exact absurd top h
    · simp only [if_neg plain]

/-- Under such a name an import counts for one segment, whether or not imported names count. -/
theorem importAttempt_of_onlyImported (only : OnlyImported source (firstSegment '.' name))
    (hi : i ∈ source.imports) :
    w.importAttempt file true name i = w.importAttempt file false name i ∧
      ∀ score a, w.importAttempt file true name i = some (score, a) → score = 1 := by
  cases kind : i.kind with
  | wildcard => simp [importAttempt, kind]
  | module =>
    have unbound : firstSegment '.' i.boundAs ≠ firstSegment '.' name := by
      intro same
      have binds : i.binds? = some (firstSegment '.' name) := by simp [Import.binds?, kind, same]
      have member := (only.plain i hi (.inl binds)).1
      rw [kind] at member
      cases member
    simp [importAttempt, kind, moduleAttempt_of_unbound unbound]
  | member =>
    have score (spelled : Option String) : ∀ score a,
        (spelled.bind fun name => (w.memberAttempt file i name).map fun a => (1, a)) =
          some (score, a) →
          score = 1 := by
      intro score a h
      obtain ⟨_, _, h⟩ := Option.bind_eq_some_iff.mp h
      obtain ⟨_, _, h⟩ := Option.map_eq_some_iff.mp h
      exact (Prod.mk.inj h).1.symm
    simp only [importAttempt, kind]
    refine ⟨?_, score _⟩
    cases hr : remainder? name i.boundAs with
    | some rest => rfl
    | none =>
      -- the imported name is the bound name, or it does not fit either
      cases hn : remainder? name i.name with
      | none => simp
      | some rest =>
        have named := only.plain i hi (.inr ⟨kind, firstSegment_of_remainder? hn⟩)
        rw [named.2.2, ← named.2.1, hn] at hr
        cases hr

/-- A fold that never gives up its first pick ends with it. -/
theorem foldl_keeps {α : Type} {f : Option α → α → Option α} {x : α} {xs : List α}
    (keeps : ∀ y ∈ xs, f (some x) y = some x) : xs.foldl f (some x) = some x := by
  induction xs with
  | nil => rfl
  | cons y xs ih =>
    rw [List.foldl_cons, keeps y (List.mem_cons_self ..)]
    exact ih fun z hz => keeps z (List.mem_cons_of_mem _ hz)

/-- Of imports that explain a name equally well the first one is taken, which resolution tries
last. -/
theorem bestImport_of_onlyImported (only : OnlyImported source (firstSegment '.' name)) :
    (w.bestImport file source name).map (·.2) = (w.importAttempts file source name).getLast? := by
  have plain : source.imports.filterMap (w.importAttempt file true name) =
      source.imports.filterMap (w.importAttempt file false name) :=
    List.filterMap_congr fun i hi => (importAttempt_of_onlyImported only hi).1
  have scores : ∀ e ∈ source.imports.filterMap (w.importAttempt file true name), e.1 = 1 := by
    intro e he
    obtain ⟨i, hi, heq⟩ := List.mem_filterMap.mp he
    exact (importAttempt_of_onlyImported only hi).2 _ _ heq
  rw [importAttempts, List.filterMap_reverse, List.getLast?_map, List.getLast?_reverse, ← plain,
    bestImport]
  cases hes : source.imports.filterMap (w.importAttempt file true name) with
  | nil => rfl
  | cons e es =>
    rw [hes] at scores
    rw [List.foldl_cons, List.head?_cons]
    refine congrArg (Option.map Prod.snd) (foldl_keeps (x := e) fun e' he' => ?_)
    have equal : ¬ e.1 < e'.1 := by
      rw [scores e (List.mem_cons_self ..), scores e' (List.mem_cons_of_mem _ he')]
      exact Nat.lt_irrefl 1
    exact if_neg equal

/-- What resolution tries for such a name. -/
theorem attempts_of_onlyImported (only : OnlyImported source (firstSegment '.' name))
    (view : w.view file = some source) :
    w.attempts ⟨file, name⟩ = w.importAttempts file source name ++
      (w.wildcardAttempts file source name ++ w.siblingAttempts file (segments '.' name)) := by
  have own : w.ownAttempts file source (segments '.' name) = none := by
    have noClass : source.find? (firstSegment '.' name) (some .classDef) = none := by
      have undefined := SourceFile.undefined_of_find? only.undefined
      cases hc : source.find? (firstSegment '.' name) (some .classDef) with
      | none => rfl
      | some c =>
        obtain ⟨_, _, listed, holds, _⟩ := SourceFile.lastClass_of_find? hc
        exact absurd holds.1 (undefined c (by simp [listed]))
    have undefined := only.undefined
    have unassigned := only.unassigned
    rw [firstSegment] at noClass undefined unassigned
    cases hs : segments '.' name with
    | nil => rfl
    | cons head rest =>
      rw [hs, List.headD_cons] at noClass undefined unassigned
      cases rest with
      | nil => simp [ownAttempts, undefined, unassigned]
      | cons _ _ => simp [ownAttempts, noClass]
  simp only [attempts, view, own, List.append_assoc]

theorem run_or {s : Search (Option Origin)} {k : Option Origin → Search (Option Origin)}
    (ends : ∀ o, k (some o) = pure (some o)) (tried : List Query) :
    ((s >>= k).run tried).1 = (s.run tried).1.or ((k none).run (s.run tried).2).1 := by
  rw [StateT.run_bind]
  rcases s.run tried with ⟨found, after⟩
  cases found with
  | none => rfl
  | some o =>
    change ((k (some o)).run after).1 = some o
    rw [ends]
    rfl

/-- Three places are looked at one after the other. -/
theorem trueOrigin_origin {steps : Nat} {entry : String} {first second : Option Origin}
    {after between : List Query} (view : w.view (w.index.absolute entry) = some source)
    (named : name ≠ "")
    (hfirst :
      (firstFound (Attempt.follow (w.search steps))
        ((w.bestImport (w.index.absolute entry) source name).map (·.2)).toList).run [] =
          (first, after))
    (hsecond :
      (firstFound (Attempt.follow (w.search (steps - 1)))
        (w.wildcardAttempts (w.index.absolute entry) source name)).run after = (second, between)) :
    (w.trueOrigin steps entry name).origin =
      first.or (second.or ((w.search steps ⟨w.index.absolute entry, name⟩).run between).1) := by
  have origin (s : Search (Option Origin)) (before : List String) :
      (Finding.ofSearch before s).origin = (s.run []).1 := rfl
  rw [Option.toList_map] at hfirst
  simp only [trueOrigin, view, if_neg named]
  rw [origin, run_or, hfirst, run_or, hsecond]
  · exact fun _ => rfl
  · exact fun _ => rfl

theorem trueOrigin_of_best {steps : Nat} {entry : String} {o : Origin}
    (view : w.view (w.index.absolute entry) = some source) (named : name ≠ "")
    (found : ((firstFound (Attempt.follow (w.search steps))
      ((w.bestImport (w.index.absolute entry) source name).map (·.2)).toList).run []).1 = some o) :
    (w.trueOrigin steps entry name).origin = some o := by
  rw [trueOrigin_origin view named (Prod.eta _).symm (Prod.eta _).symm, found, Option.some_or]

/-! The two ways compared. -/

/-- No query below this one meets the depth limit. -/
def WithinLimit (w : World) (steps : Nat) (q : Query) : Prop :=
  ∃ found after, w.Tries steps [] [.ask q] found after

theorem run_follow_of_some {ask : Query → Search (Option Origin)} {a : Attempt} {o : Origin}
    {tried : List Query} (h : ((a.follow ask).run tried).1 = some o) (rest : List Attempt) :
    ((firstFound (Attempt.follow ask) (a :: rest)).run tried).1 = some o := by
  rw [firstFound, run_or, h, Option.some_or]
  exact fun _ => rfl

section
variable {n : Nat} {q : Query} {o : Origin} {imports wildcards siblings : List Attempt}

/-- One of several copies, without its query marked as tried, does what all of them do with it
marked. -/
theorem tries_best {found : Option Origin} {after : List Query}
    (copies : ∀ a ∈ imports, ∀ b ∈ imports, a = b)
    (apart : ∀ p ∈ Attempt.asked imports, ¬ w.Reaches p q) (h : w.Tries n [q] imports found after) :
    ∃ other, w.Tries (n + 1) [] imports.getLast?.toList found other ∧ SameBut q other after ∧
      q ∉ other := by
  have fresh : SameBut q [] [q] := by
    intro x hx
    simp [hx]
  cases imports with
  | nil =>
    cases h
    exact ⟨[], .nil, fresh, List.not_mem_nil⟩
  | cons a rest =>
    have last : (a :: rest).getLast? = some a := by
      rw [List.getLast?_eq_some_getLast (List.cons_ne_nil a rest)]
      exact congrArg some (copies _ (List.getLast_mem _) a (List.mem_cons_self ..))
    have one := h.of_copies fun b hb => copies b (List.mem_cons_of_mem _ hb) a
      (List.mem_cons_self ..)
    obtain ⟨other, first, same, here⟩ :=
      one.frame (fun p hp => apart p (Attempt.mem_asked_append_left hp)) fresh
    rw [last]
    exact ⟨other, first.deeper (Nat.le_succ n), same, fun h => List.not_mem_nil (here.mp h)⟩

/-- A search that starts at a query, and one that marks it as tried only after its imports and
wildcard imports, come to the same. -/
theorem tries_unmarked {after : List Query}
    (attempts : w.attempts q = imports ++ (wildcards ++ siblings))
    (copies : ∀ a ∈ imports, ∀ b ∈ imports, a = b) (noWayBack : ¬ Relation.TransGen w.LeadsTo q q)
    (h : w.Tries n [q] (w.attempts q) (some o) after) :
    ∃ first s, w.Tries (n + 1) [] imports.getLast?.toList first s ∧ (first = some o ∨ first = none ∧
      ∃ second t, w.Tries n s wildcards second t ∧ (second = some o ∨ second = none ∧
        q ∉ t ∧ ∃ u, w.Tries n (q :: t) (w.attempts q) (some o) u)) := by
  have apart : ∀ p ∈ Attempt.asked (imports ++ (wildcards ++ siblings)), ¬ w.Reaches p q := by
    intro p hp back
    exact noWayBack (.head' (leadsTo_iff.mpr (attempts ▸ hp)) back)
  have apartImports := fun p hp => apart p (Attempt.mem_asked_append_left hp)
  rw [attempts] at h
  rcases h.split with ⟨_, same, first⟩ | ⟨mid, first, h⟩
  · cases same
    obtain ⟨s, best, _⟩ := tries_best copies apartImports first
    exact ⟨_, s, best, .inl rfl⟩
  obtain ⟨s, best, same, new⟩ := tries_best copies apartImports first
  refine ⟨_, s, best, .inr ⟨rfl, ?_⟩⟩
  have asks := fun a ha => (first.all_asked a ha).imp fun _ h => h.1
  have apart := fun p hp => apart p (Attempt.mem_asked_append_right asks hp)
  rcases h.split with ⟨_, found, second⟩ | ⟨mid', second, third⟩
  · cases found
    obtain ⟨t, wild, _⟩ :=
      second.frame (fun p hp => apart p (Attempt.mem_asked_append_left hp)) same
    exact ⟨_, t, wild, .inl rfl⟩
  obtain ⟨t, wild, same', here⟩ :=
    second.frame (fun p hp => apart p (Attempt.mem_asked_append_left hp)) same
  refine ⟨_, t, wild, .inr ⟨rfl, fun h => new (here.mp h), ?_⟩⟩
  -- the query comes last: what was tried before is tried in vain, and only siblings are left
  have marked : SameBut q (q :: t) mid' := by
    intro x hx
    rw [List.mem_cons, or_iff_right hx, same' x hx]
  have all : ∀ x ∈ mid', x ∈ q :: t := by
    intro x hx
    by_cases this : x = q
    · exact this ▸ List.mem_cons_self ..
    · exact (marked x this).mpr hx
  have asks := fun a ha => (second.all_asked a ha).imp fun _ h => h.1
  obtain ⟨u, rest, _⟩ :=
    third.frame (fun p hp => apart p (Attempt.mem_asked_append_right asks hp)) marked
  have idle := first.retry fun x hx => all x (second.kept x hx)
  rw [attempts]
  exact ⟨u, idle.append ((second.retry all).append rest)⟩

end

theorem WithinLimit.attempts {steps : Nat} {q : Query} (h : w.WithinLimit steps q) :
    ∃ n, steps = n + 1 ∧ ∃ found after, w.Tries n [q] (w.attempts q) found after := by
  obtain ⟨found, after, h⟩ := h
  cases h with
  | again old _ => cases old
  | found _ inner => exact ⟨_, rfl, _, _, inner⟩
  | missed _ inner _ => exact ⟨_, rfl, _, _, inner⟩

theorem trueOrigin_of_copies {n : Nat} {entry : String} {o : Origin} {after : List Query}
    (view : w.view (w.index.absolute entry) = some source) (named : name ≠ "")
    (only : OnlyImported source (firstSegment '.' name))
    (copies : ∀ a ∈ w.importAttempts (w.index.absolute entry) source name,
      ∀ b ∈ w.importAttempts (w.index.absolute entry) source name, a = b)
    (noWayBack : ¬ Relation.TransGen w.LeadsTo ⟨w.index.absolute entry, name⟩
      ⟨w.index.absolute entry, name⟩)
    (h : w.Tries n [⟨w.index.absolute entry, name⟩] (w.attempts ⟨w.index.absolute entry, name⟩)
      (some o) after) :
    (w.trueOrigin (n + 1) entry name).origin = some o := by
  obtain ⟨first, s, best, next⟩ :=
    tries_unmarked (attempts_of_onlyImported only view) copies noWayBack h
  have best := best.run
  rw [← bestImport_of_onlyImported only] at best
  rcases next with rfl | ⟨rfl, second, t, wild, next⟩
  · exact trueOrigin_of_best view named (by rw [best])
  · rw [trueOrigin_origin view named best wild.run, Option.none_or]
    rcases next with rfl | ⟨rfl, new, u, third⟩
    · rfl
    · rw [Option.none_or, run_search_of_new new, third.run]

/-- Looked up from an import, a name that its file only imports is taken from its first import,
where resolution takes it from the last one. Both find the same if all imports of the name lead to
one place and no import leads back to the name in that file. -/
theorem lookups_agree_unless_rebound (w : World) (steps : Nat) (entry name : String)
    (source : SourceFile) (view : w.view (w.index.absolute entry) = some source)
    (only : OnlyImported source (firstSegment '.' name))
    (within : w.WithinLimit steps ⟨w.index.absolute entry, name⟩) (o : Origin)
    (resolved : (w.resolve steps name entry).origin = some o) :
    let q : Query := ⟨w.index.absolute entry, name⟩
    let imports := w.importAttempts (w.index.absolute entry) source name
    (∀ a o', imports.head? = some a → ((a.follow (w.search (steps - 1))).run [q]).1 = some o' →
        o = o') ∧
      (∀ a o', imports.getLast? = some a → ((a.follow (w.search steps)).run []).1 = some o' →
        (w.trueOrigin steps entry name).origin = some o') ∧
      ((∀ a ∈ imports, ∀ b ∈ imports, a = b) → ¬ Relation.TransGen w.LeadsTo q q →
        (w.trueOrigin steps entry name).origin = some o) := by
  intro q imports
  have named : name ≠ "" := by
    rintro rfl
    cases resolved
  obtain ⟨n, rfl, found, after, tries⟩ := within.attempts
  rw [resolve, if_neg named] at resolved
  have ran : ((w.search (n + 1) q).run []).1 = some o := resolved
  rw [run_search_of_new List.not_mem_nil] at ran
  refine ⟨?_, ?_, ?_⟩
  · intro a o' last leads
    obtain ⟨rest, shape⟩ := List.head?_eq_some_iff.mp last
    have attempts : w.attempts q = imports ++ _ := attempts_of_onlyImported only view
    rw [attempts, shape, List.cons_append] at ran
    exact Option.some.inj (ran.symm.trans (run_follow_of_some leads _))
  · intro a o' first leads
    refine trueOrigin_of_best view named ?_
    rw [bestImport_of_onlyImported only, first]
    exact run_follow_of_some leads []
  · intro copies noWayBack
    rw [tries.run] at ran
    obtain rfl : found = some o := ran
    exact trueOrigin_of_copies view named only copies noWayBack tries

def reboundTree : FileTree :=
  (((FileTree.empty.write
    "/r/a.py" (.file "from m import h\nfrom n import h\n".toUTF8)).write
    "/r/c.py" (.file "from a import h\n".toUTF8)).write
    "/r/m.py" (.file "def h(): pass\n".toUTF8)).write
    "/r/n.py" (.file "def h(): pass\n".toUTF8)

def reboundWorld : World :=
  .ofTree (.ofFiles "/r" ["a.py", "c.py", "m.py", "n.py"]) reboundTree .empty

theorem no_way_back_of_closed {w : World} {q : Query} {s : List Query}
    (closed : ∀ p ∈ q :: s, ∀ p' ∈ (w.visit p).2, p' ∈ s) (out : q ∉ s) :
    ¬ Relation.TransGen w.LeadsTo q q := by
  have inside : ∀ p, Relation.TransGen w.LeadsTo q p → p ∈ s := by
    intro p h
    induction h with
    | single h => exact closed q (List.mem_cons_self ..) _ h
    | tail _ h ih => exact closed _ (List.mem_cons_of_mem _ ih) _ h
  exact fun back => out (inside q back)

section
set_option maxRecDepth 100000

/-- The file that imports the name twice has it from its last import. -/
theorem rebound_tries (tried : List Query) (new : ∀ p ∈ tried, p.file = "/r/c.py") :
    reboundWorld.Tries 64 tried [.ask ⟨"/r/a.py", "h"⟩] (some ⟨"/r/n.py", "h", "h", .function⟩)
      (⟨"/r/n.py", "h"⟩ :: ⟨"/r/a.py", "h"⟩ :: tried) := by
  have twice : reboundWorld.attempts ⟨"/r/a.py", "h"⟩ =
      [.ask ⟨"/r/n.py", "h"⟩, .ask ⟨"/r/m.py", "h"⟩] := by decide +kernel
  have last : reboundWorld.attempts ⟨"/r/n.py", "h"⟩ =
      [.answer ⟨"/r/n.py", "h", "h", .function⟩] := by decide +kernel
  refine .found (fun old => absurd (new _ old) (by decide)) ?_
  rw [twice]
  refine .found ?_ ?_
  · intro old
    rcases List.mem_cons.mp old with same | old
    · exact absurd same (by decide)
    · exact absurd (new _ old) (by decide)
  · rw [last]
    exact .answer

/-- Its importer has it from there, whichever way it is looked up. -/
theorem rebound_importer_agrees :
    (∃ source, reboundWorld.view (reboundWorld.index.absolute "c.py") = some source ∧
      OnlyImported source (firstSegment '.' "h")) ∧
    reboundWorld.WithinLimit 65 ⟨reboundWorld.index.absolute "c.py", "h"⟩ ∧
    ¬ Relation.TransGen reboundWorld.LeadsTo ⟨reboundWorld.index.absolute "c.py", "h"⟩
      ⟨reboundWorld.index.absolute "c.py", "h"⟩ ∧
    (reboundWorld.resolve 65 "h" "c.py").origin = some ⟨"/r/n.py", "h", "h", .function⟩ ∧
    (reboundWorld.trueOrigin 65 "c.py" "h").origin = some ⟨"/r/n.py", "h", "h", .function⟩ := by
  have place : reboundWorld.index.absolute "c.py" = "/r/c.py" := by decide +kernel
  have once : reboundWorld.attempts ⟨"/r/c.py", "h"⟩ = [.ask ⟨"/r/a.py", "h"⟩] := by decide +kernel
  have seen : (reboundWorld.view "/r/c.py").map (fun source =>
      (decide (OnlyImported source (firstSegment '.' "h")),
        reboundWorld.importAttempts "/r/c.py" source "h")) =
          some (true, [.ask ⟨"/r/a.py", "h"⟩]) := by
    decide +kernel
  obtain ⟨source, view, facts⟩ := Option.map_eq_some_iff.mp seen
  obtain ⟨only, imports⟩ := Prod.mk.inj facts
  have within : reboundWorld.WithinLimit 65 ⟨reboundWorld.index.absolute "c.py", "h"⟩ := by
    have inner := rebound_tries [⟨"/r/c.py", "h"⟩] (by simp)
    rw [← once] at inner
    rw [place]
    exact ⟨_, _, .found List.not_mem_nil inner⟩
  have noWayBack : ¬ Relation.TransGen reboundWorld.LeadsTo
      ⟨reboundWorld.index.absolute "c.py", "h"⟩ ⟨reboundWorld.index.absolute "c.py", "h"⟩ := by
    rw [place]
    exact no_way_back_of_closed (s := [⟨"/r/a.py", "h"⟩, ⟨"/r/m.py", "h"⟩, ⟨"/r/n.py", "h"⟩])
      (by decide +kernel) (by decide)
  have resolved : (reboundWorld.resolve 65 "h" "c.py").origin =
      some ⟨"/r/n.py", "h", "h", .function⟩ := by decide +kernel
  rw [← place] at view imports
  have only := of_decide_eq_true only
  have agree := (lookups_agree_unless_rebound reboundWorld 65 "c.py" "h" source view only within _
    resolved).2.2 (by simp [imports]) noWayBack
  exact ⟨⟨source, view, only⟩, within, noWayBack, resolved, agree⟩

/-- In the file itself one lookup takes the last import and the other the first. -/
theorem rebound_lookups_differ :
    (∃ source, reboundWorld.view (reboundWorld.index.absolute "a.py") = some source ∧
      OnlyImported source (firstSegment '.' "h")) ∧
    reboundWorld.WithinLimit 64 ⟨reboundWorld.index.absolute "a.py", "h"⟩ ∧
    (reboundWorld.resolve 64 "h" "a.py").origin = some ⟨"/r/n.py", "h", "h", .function⟩ ∧
    (reboundWorld.trueOrigin 64 "a.py" "h").origin = some ⟨"/r/m.py", "h", "h", .function⟩ := by
  have place : reboundWorld.index.absolute "a.py" = "/r/a.py" := by decide +kernel
  have seen : (reboundWorld.view (reboundWorld.index.absolute "a.py")).map (fun source =>
      decide (OnlyImported source (firstSegment '.' "h"))) = some true := by decide +kernel
  obtain ⟨source, view, only⟩ := Option.map_eq_some_iff.mp seen
  refine ⟨⟨source, view, of_decide_eq_true only⟩, ?_, by decide +kernel, by decide +kernel⟩
  rw [place]
  exact ⟨_, _, rebound_tries [] (by simp)⟩

def knotTree : FileTree :=
  (((FileTree.empty.write
    "/r/e.py" (.file "from m import h\n".toUTF8)).write
    "/r/h.py" (.file .empty)).write
    "/r/m.py" (.file "from e import h\nfrom w import *\n".toUTF8)).write
    "/r/w.py" (.file "def h(): pass\n".toUTF8)

-- the second lookup comes back to the file as if it had not started there, and stops at its
-- neighbour
example :
    let w : World := .ofTree (.ofFiles "/r" ["e.py", "h.py", "m.py", "w.py"]) knotTree .empty
    (w.resolve 65 "h" "e.py").origin = some ⟨"/r/w.py", "h", "h", .function⟩ ∧
      (w.trueOrigin 65 "e.py" "h").origin = some (.ofModule "/r/h.py" "h") := by decide +kernel

end

end World

end RepoAtlas
