import RepoAtlas.Proofs.Reconcile.Foreign
import RepoAtlas.Proofs.Text.Units
import RepoAtlas.Text.Alphabet

/-!
The best candidate by overlap. Candidates with their scores are in a strict total order, so the loop
that keeps the better one ends with the first of them all, in whatever order they come. The index
files an id under its last segment and its last two, which makes the candidates all ids that share
the callee's last segments: two of them if some id has both, and else one.
-/
namespace RepoAtlas.Reconcile
open Text

namespace Context
variable {a b c : String × Nat}

/-! The order of candidates. -/

theorem better_iff : better a b = true ↔ b.2 < a.2 ∨ (a.2 = b.2 ∧ (unitLength a.1 < unitLength b.1 ∨
    (unitLength a.1 = unitLength b.1 ∧ unitLt a.1 b.1 = true))) := by
  simp [better]

theorem better_irrefl (a : String × Nat) : ¬ better a a = true := by
  simp [better_iff, unitLt_irrefl]

theorem better_trans (hab : better a b = true) (hbc : better b c = true) : better a c = true := by
  rw [better_iff] at *
  by_cases tie : a.2 = b.2 ∧ b.2 = c.2 ∧ unitLength a.1 = unitLength b.1 ∧
      unitLength b.1 = unitLength c.1
  · obtain ⟨hscore, hscore', hlength, hlength'⟩ := tie
    have first : unitLt a.1 b.1 = true := by simpa [hscore, hlength] using hab
    have second : unitLt b.1 c.1 = true := by simpa [hscore', hlength'] using hbc
    exact Or.inr ⟨hscore.trans hscore', Or.inr ⟨hlength.trans hlength', unitLt_trans first second⟩⟩
  · omega

theorem better_total (h : a ≠ b) : better a b = true ∨ better b a = true := by
  rw [better_iff, better_iff]
  by_cases tie : a.2 = b.2 ∧ unitLength a.1 = unitLength b.1
  · obtain ⟨hscore, hlength⟩ := tie
    have distinct : a.1 ≠ b.1 := fun same => h (Prod.ext same hscore)
    rcases unitLt_total distinct with less | greater
    · exact Or.inl (Or.inr ⟨hscore, Or.inr ⟨hlength, less⟩⟩)
    · exact Or.inr (Or.inr ⟨hscore.symm, Or.inr ⟨hlength.symm, greater⟩⟩)
  · omega

/-! The loop. -/

structure Leads (p : String × Nat) (cs : List (String × Nat)) : Prop where
  mem : p ∈ cs
  first : ∀ q ∈ cs, q ≠ p → better p q = true

theorem Leads.unique {p q : String × Nat} {cs : List (String × Nat)} (hp : Leads p cs)
    (hq : Leads q cs) : p = q := by
  by_contra distinct
  have forth := hp.first q hq.mem (Ne.symm distinct)
  have back := hq.first p hp.mem distinct
  exact better_irrefl p (better_trans forth back)

theorem Leads.overtaken {p : String × Nat} {cs : List (String × Nat)} (h : Leads p cs)
    (more : better c p = true) : Leads c (cs ++ [c]) := by
  refine ⟨by simp, fun q hq other => ?_⟩
  have hq : q ∈ cs := by simpa [other] using hq
  by_cases same : q = p
  · exact same ▸ more
  · exact better_trans more (h.first q hq same)

theorem Leads.kept {p : String × Nat} {cs : List (String × Nat)} (h : Leads p cs)
    (less : ¬ better c p = true) : Leads p (cs ++ [c]) := by
  refine ⟨List.mem_append_left _ h.mem, fun q hq other => ?_⟩
  rcases List.mem_append.mp hq with hq | hq
  · exact h.first q hq other
  · obtain rfl := List.mem_singleton.mp hq
    exact (better_total other).resolve_left less

/-- What is held after each step leads the candidates so far. -/
theorem best_leads (cs : List (String × Nat)) :
    best cs = none ∧ cs = [] ∨ ∃ p, best cs = some p ∧ Leads p cs := by
  induction cs using List.reverseRecOn with
  | nil => exact Or.inl ⟨rfl, rfl⟩
  | append_singleton cs c ih =>
    right
    rcases ih with ⟨_, rfl⟩ | ⟨p, hbest, leads⟩
    · exact ⟨c, rfl, by simp, by simp⟩
    · rw [best] at hbest
      rw [best, List.foldl_append, hbest, List.foldl_cons, List.foldl_nil]
      by_cases more : better c p = true
      · exact ⟨c, if_pos more, leads.overtaken more⟩
      · exact ⟨p, if_neg more, leads.kept more⟩

theorem best_eq_none_iff {cs : List (String × Nat)} : best cs = none ↔ cs = [] := by
  rcases best_leads cs with ⟨hbest, rfl⟩ | ⟨p, hbest, leads⟩
  · simp [hbest]
  · simp [hbest, List.ne_nil_of_mem leads.mem]

theorem best_eq_some_iff {cs : List (String × Nat)} {p : String × Nat} :
    best cs = some p ↔ Leads p cs := by
  rcases best_leads cs with ⟨hbest, rfl⟩ | ⟨q, hbest, leads⟩
  · simp only [hbest, reduceCtorEq, false_iff]
    exact fun h => absurd h.mem (List.not_mem_nil)
  · rw [hbest, Option.some.injEq]
    constructor
    · rintro rfl
      exact leads
    · exact leads.unique

theorem best_congr {cs ds : List (String × Nat)} (same : ∀ q, q ∈ cs ↔ q ∈ ds) :
    best cs = best ds := by
  have moved : ∀ p, Leads p cs ↔ Leads p ds := by
    intro p
    constructor
    · exact fun h => ⟨(same p).mp h.mem, fun q hq other => h.first q ((same q).mpr hq) other⟩
    · exact fun h => ⟨(same p).mpr h.mem, fun q hq other => h.first q ((same q).mp hq) other⟩
  apply Option.ext
  intro p
  rw [best_eq_some_iff, best_eq_some_iff, moved]

/-! The candidates. -/

/-- The last two segments of a callee if some id ends in these two, and else its last segment. -/
def sharedTail (catalog : Catalog) (parts : List String) : List String :=
  let two := parts.drop (parts.length - 2)
  if 2 ≤ parts.length ∧ ∃ id ∈ catalog.components.keys, two <:+ segments '.' id then two
  else parts.drop (parts.length - 1)

variable {k : Context} {callee : String} {parts tail : List String}

/-- Higher score, then fewer code units, then code-unit order. -/
def Preferred (k : Context) (qualifier : List String) (a b : String) : Prop :=
  k.score qualifier b < k.score qualifier a ∨ (k.score qualifier a = k.score qualifier b ∧
    (unitLength a < unitLength b ∨ (unitLength a = unitLength b ∧ unitLt a b = true)))

instance (k : Context) (qualifier : List String) (a b : String) :
    Decidable (k.Preferred qualifier a b) :=
  inferInstanceAs (Decidable (_ ∨ _))

structure First (k : Context) (qualifier tail : List String) (id : String) : Prop where
  known : k.catalog.has id = true
  shares : tail <:+ segments '.' id
  first : ∀ other, k.catalog.has other = true → tail <:+ segments '.' other → other ≠ id →
    k.Preferred qualifier id other

theorem preferred_iff {qualifier : List String} {a b : String} : k.Preferred qualifier a b ↔
    better (a, k.score qualifier a) (b, k.score qualifier b) = true := by
  rw [better_iff]
  rfl

def bestFiled (k : Context) (qualifier : List String) (key : String) : Option String :=
  (best (((k.suffixes.get? key).getD []).map fun id => (id, k.score qualifier id))).map (·.1)

theorem bestFiled_eq_none_iff {qualifier : List String} {key : String} :
    k.bestFiled qualifier key = none ↔ (k.suffixes.get? key).getD [] = [] := by
  rw [bestFiled, Option.map_eq_none_iff, best_eq_none_iff, List.map_eq_nil_iff]

theorem bestFiled_eq_some_iff {qualifier : List String} {key id : String} :
    k.bestFiled qualifier key = some id ↔ id ∈ (k.suffixes.get? key).getD [] ∧
      ∀ other ∈ (k.suffixes.get? key).getD [], other ≠ id → k.Preferred qualifier id other := by
  simp only [bestFiled, Option.map_eq_some_iff, best_eq_some_iff, preferred_iff]
  constructor
  · rintro ⟨p, ⟨mem, first⟩, rfl⟩
    obtain ⟨id, hid, rfl⟩ := List.mem_map.mp mem
    refine ⟨hid, fun other hother distinct => first _ (List.mem_map.mpr ⟨other, hother, rfl⟩) ?_⟩
    exact fun same => distinct (congrArg Prod.fst same)
  · rintro ⟨mem, first⟩
    refine ⟨_, ⟨List.mem_map.mpr ⟨id, mem, rfl⟩, fun q hq distinct => ?_⟩, rfl⟩
    obtain ⟨other, hother, rfl⟩ := List.mem_map.mp hq
    refine first other hother ?_
    rintro rfl
    exact distinct rfl

section
variable [Collator] (filed : k.suffixes = .ofCatalog k.catalog)
  (plain : ∀ part ∈ tail, '.' ∉ part.toList) (length : tail.length = 1 ∨ tail.length = 2)
include filed plain length

theorem mem_filed_tail {id : String} : id ∈ (k.suffixes.get? (dotted tail)).getD [] ↔
    k.catalog.has id = true ∧ tail <:+ segments '.' id := by
  rw [filed, mem_bucket, dotted_mem_suffixKeys plain length]

theorem bestFiled_tail_eq_some_iff {qualifier : List String} {id : String} :
    k.bestFiled qualifier (dotted tail) = some id ↔ k.First qualifier tail id := by
  simp only [bestFiled_eq_some_iff, mem_filed_tail filed plain length]
  constructor
  · rintro ⟨⟨known, shares⟩, first⟩
    exact ⟨known, shares, fun other hother shared => first other ⟨hother, shared⟩⟩
  · rintro ⟨known, shares, first⟩
    exact ⟨⟨known, shares⟩, fun other hother => first other hother.1 hother.2⟩

theorem bestFiled_tail_eq_none_iff {qualifier : List String} :
    k.bestFiled qualifier (dotted tail) = none ↔
      ∀ id, k.catalog.has id = true → ¬ tail <:+ segments '.' id := by
  rw [bestFiled_eq_none_iff, List.eq_nil_iff_forall_not_mem]
  simp only [mem_filed_tail filed plain length, not_and]

end

theorem length_drop_last (spelled : parts ≠ []) : (parts.drop (parts.length - 1)).length = 1 := by
  have nonempty := List.length_pos_iff.mpr spelled
  rw [List.length_drop]
  omega

theorem getLastD_eq_dotted (spelled : parts ≠ []) :
    parts.getLastD "" = dotted (parts.drop (parts.length - 1)) := by
  obtain ⟨part, alone⟩ := List.length_eq_one_iff.mp (length_drop_last spelled)
  have last : parts.getLast? = some part := by
    have suffix : [part] <:+ parts := alone ▸ List.drop_suffix _ _
    obtain ⟨front, rfl⟩ := suffix
    simp
  rw [alone, List.getLastD_eq_getLast?, last]
  simp [dotted, joinWith]

theorem length_sharedTail (catalog : Catalog) (spelled : parts ≠ []) :
    (sharedTail catalog parts).length = 1 ∨ (sharedTail catalog parts).length = 2 := by
  simp only [sharedTail]
  split
  case isTrue enough =>
    right
    rw [List.length_drop]
    omega
  case isFalse => exact Or.inl (length_drop_last spelled)

theorem sharedTail_subset (catalog : Catalog) (parts : List String) :
    sharedTail catalog parts ⊆ parts := by
  simp only [sharedTail]
  split
  · exact List.drop_subset _ _
  · exact List.drop_subset _ _

/-- Of the two keys that are tried the one counts that stands for the shared segments. -/
theorem bestOverlap_eq [Collator] (filed : k.suffixes = .ofCatalog k.catalog) (spelled : parts ≠ [])
    (plain : ∀ part ∈ parts, '.' ∉ part.toList) :
    k.bestOverlap parts = k.bestFiled parts.dropLast (dotted (sharedTail k.catalog parts)) := by
  have each : k.bestOverlap parts = (trailingKeys parts).findSome? (k.bestFiled parts.dropLast) :=
    rfl
  rw [each, trailingKeys, getLastD_eq_dotted spelled]
  by_cases short : parts.length < 2
  · have one : sharedTail k.catalog parts = parts.drop (parts.length - 1) := if_neg (by omega)
    rw [if_pos short, one, List.findSome?_cons, List.findSome?_nil]
    cases k.bestFiled parts.dropLast (dotted (parts.drop (parts.length - 1))) <;> rfl
  · have length : (parts.drop (parts.length - 2)).length = 2 := by
      rw [List.length_drop]
      omega
    have plain : ∀ part ∈ parts.drop (parts.length - 2), '.' ∉ part.toList := fun part hp =>
      plain part (List.mem_of_mem_drop hp)
    rw [if_neg short, List.findSome?_cons]
    cases hbest : k.bestFiled parts.dropLast (dotted (parts.drop (parts.length - 2))) with
    | none =>
      have unshared := (bestFiled_tail_eq_none_iff filed plain (Or.inr length)).mp hbest
      have one : sharedTail k.catalog parts = parts.drop (parts.length - 1) := by
        refine if_neg ?_
        rintro ⟨_, id, hid, shares⟩
        exact unshared id (Catalog.has_iff.mpr hid) shares
      rw [one, List.findSome?_cons, List.findSome?_nil]
      cases k.bestFiled parts.dropLast (dotted (parts.drop (parts.length - 1))) <;> rfl
    | some id =>
      have first := (bestFiled_tail_eq_some_iff filed plain (Or.inr length)).mp hbest
      have two : sharedTail k.catalog parts = parts.drop (parts.length - 2) :=
        if_pos ⟨by omega, id, Catalog.has_iff.mp first.known, first.shares⟩
      rw [two, hbest]

/-! The strategy. -/

/-- Nothing that the last segments mean in the caller's file is known, and the qualifier does not
rule out a guess. -/
structure Guesses (k : Context) (callee : String) : Prop where
  spelled : k.calleeParts callee ≠ []
  unfollowed : (k.followKeys (trailingKeys (k.calleeParts callee))).id = none
  allowed : k.isPlausible (k.calleeParts callee).dropLast = true

theorem Guesses.matchResolverSeeded_id (h : k.Guesses callee) :
    (k.matchResolverSeeded callee).id = k.bestOverlap (k.calleeParts callee) := by
  have nonempty : (k.calleeParts callee).isEmpty = false := by simpa using h.spelled
  simp only [matchResolverSeeded, nonempty, h.unfollowed, h.allowed, Bool.false_eq_true, ↓reduceIte]

structure SameIds (a b : SuffixIndex) : Prop where
  keys : ∀ key, a.contains key = b.contains key
  ids : ∀ key, ((a.get? key).getD []).Perm ((b.get? key).getD [])

section
variable {index : SuffixIndex}

theorem followKeys_index (k : Context) (index : SuffixIndex) (keys : List String) :
    ({ k with suffixes := index } : Context).followKeys keys = k.followKeys keys := by
  induction keys with
  | nil => rfl
  | cons key keys ih =>
    rw [followKeys, followKeys, ih]
    rfl

theorem bestFiled_index (same : SameIds index k.suffixes) (qualifier : List String) (key : String) :
    ({ k with suffixes := index } : Context).bestFiled qualifier key =
      k.bestFiled qualifier key := by
  refine congrArg (Option.map (·.1)) (best_congr fun q => ?_)
  exact ((same.ids key).map _).mem_iff

theorem matchResolverSeeded_index (same : SameIds index k.suffixes) (callee : String) :
    ({ k with suffixes := index } : Context).matchResolverSeeded callee =
      k.matchResolverSeeded callee := by
  have overlap : ∀ parts, ({ k with suffixes := index } : Context).bestOverlap parts =
      k.bestOverlap parts := fun parts =>
    congrArg (fun f => (trailingKeys parts).findSome? f)
      (funext (bestFiled_index same parts.dropLast))
  have allowed : ∀ qualifier, ({ k with suffixes := index } : Context).isPlausible qualifier =
      k.isPlausible qualifier := by
    intro qualifier
    cases qualifier with
    | nil => rfl
    | cons head rest => simp only [isPlausible, same.keys]
  have parts : ({ k with suffixes := index } : Context).calleeParts callee = k.calleeParts callee :=
    rfl
  simp only [matchResolverSeeded, parts, followKeys_index, overlap, allowed]

end

end Context

/-- Where a callee is guessed at, the guess is the first of all ids that share its last segments,
and there is none only if no id does. In which order ids are filed does not matter. -/
theorem guess_is_first_of_all [Collator] (k : Context) (callee : String)
    (filed : k.suffixes = .ofCatalog k.catalog) (guesses : k.Guesses callee) :
    (∀ id, (k.matchResolverSeeded callee).id = some id ↔ k.First (k.calleeParts callee).dropLast
        (Context.sharedTail k.catalog (k.calleeParts callee)) id) ∧
      ((k.matchResolverSeeded callee).id = none ↔ ∀ id, k.catalog.has id = true →
        ¬ Context.sharedTail k.catalog (k.calleeParts callee) <:+ segments '.' id) ∧
      ∀ index, Context.SameIds index k.suffixes →
        ({ k with suffixes := index } : Context).matchResolverSeeded callee =
          k.matchResolverSeeded callee := by
  have plain : ∀ part ∈ k.calleeParts callee, '.' ∉ part.toList := fun part hp =>
    Context.undotted_of_calleeParts hp
  have plainTail : ∀ part ∈ Context.sharedTail k.catalog (k.calleeParts callee),
      '.' ∉ part.toList :=
    fun part hp => plain part (Context.sharedTail_subset _ _ hp)
  have length := Context.length_sharedTail k.catalog guesses.spelled
  rw [guesses.matchResolverSeeded_id, Context.bestOverlap_eq filed guesses.spelled plain]
  refine ⟨fun id => ?_, ?_, fun index same => Context.matchResolverSeeded_index same callee⟩
  · exact Context.bestFiled_tail_eq_some_iff filed plainTail length
  · exact Context.bestFiled_tail_eq_none_iff filed plainTail length

/-! Ids that end alike: they differ in score, in length, or only in their letters. -/

open scoped Text.Alphabet

def namesakesTree : FileTree := FileTree.empty.write "/r/c/m.py" (.file "def f(): 0\n".toUTF8)

def namesakesCaller : Component := .placed "c.m.f" .function "/r/c/m.py" "c/m.py"

def namesakesIds : List String := ["c.m.f", "m.b.g", "a.b.g", "d.c.b.g", "c.g", "c.b.g"]

def namesakes : Context :=
  let catalog : Catalog :=
    ⟨.ofList (namesakesIds.map fun id => (id, .placed id .function "/r/x.py" "x.py"))⟩
  ⟨catalog, .ofTree (.ofFiles "/r" ["/r/c/m.py", "/r/b.py"]) namesakesTree .empty, 65,
    .ofCatalog catalog, namesakesCaller⟩

section
set_option maxRecDepth 100000

theorem namesakes_guesses : namesakes.Guesses "b.g" := by
  constructor
  · decide +kernel
  · decide +kernel
  · decide +kernel

theorem namesakes_first : namesakes.First ["b"] ["b", "g"] "c.b.g" := by
  have keys : namesakes.catalog.components.keys = namesakesIds := by decide +kernel
  have preferred : ∀ other ∈ namesakesIds, ["b", "g"] <:+ segments '.' other → other ≠ "c.b.g" →
      namesakes.Preferred ["b"] "c.b.g" other := by decide +kernel
  refine ⟨by decide +kernel, by decide +kernel, fun other known => ?_⟩
  exact preferred other (keys ▸ Catalog.has_iff.mp known)

theorem namesakes_guess_is_first :
    namesakes.suffixes = .ofCatalog namesakes.catalog ∧ namesakes.Guesses "b.g" ∧
      Context.sharedTail namesakes.catalog (namesakes.calleeParts "b.g") = ["b", "g"] ∧
      (namesakes.matchResolverSeeded "b.g").id = some "c.b.g" ∧
      ({ namesakes with suffixes := namesakes.suffixes.map List.reverse } :
        Context).matchResolverSeeded "b.g" = namesakes.matchResolverSeeded "b.g" := by
  have parts : namesakes.calleeParts "b.g" = ["b", "g"] := by decide +kernel
  have tail : Context.sharedTail namesakes.catalog ["b", "g"] = ["b", "g"] := by decide +kernel
  have found : ∀ key, (namesakes.suffixes.map List.reverse).get? key =
      (namesakes.suffixes.get? key).map List.reverse :=
    Table.get?_map_entries namesakes.suffixes.entries fun _ ids => ids.reverse
  have reversed : Context.SameIds (namesakes.suffixes.map List.reverse) namesakes.suffixes := by
    constructor
    · intro key
      rw [Table.contains, found, Option.isSome_map, Table.contains]
    · intro key
      rw [found]
      cases namesakes.suffixes.get? key with
      | none => exact .refl _
      | some ids => exact List.reverse_perm ids
  obtain ⟨first, _, reordered⟩ := guess_is_first_of_all namesakes "b.g" rfl namesakes_guesses
  rw [parts, tail] at first
  exact ⟨rfl, namesakes_guesses, parts.symm ▸ tail, (first "c.b.g").mpr namesakes_first,
    reordered _ reversed⟩

end

end RepoAtlas.Reconcile
