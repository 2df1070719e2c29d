import RepoAtlas.Proofs.Text.Separators

/-!
The stretches of a text: its longest rows of characters that are no separators. They are found by
where they stand, not by how the text is taken apart. The pieces of a text are all its stretches
from left to right, so the normal form of a name is its stretches with single dots between them.
-/
namespace RepoAtlas.Text
variable {cs xs ys rest : List Char} {c : Char}

/-- Some characters in a row, none of them a separator, that can be made longer on neither side. -/
@[ext] structure Stretch (cs : List Char) where
  before : List Char
  text : List Char
  after : List Char
  whole : before ++ text ++ after = cs
  nonempty : text ≠ []
  plain : ∀ c ∈ text, isSeparator c = false
  opens : ∀ c ∈ before.getLast?, isSeparator c = true
  closes : ∀ c ∈ after.head?, isSeparator c = true

structure Listing (stretches : List (Stretch cs)) : Prop where
  all : ∀ s, s ∈ stretches
  ordered : stretches.Pairwise fun s t => s.before.length < t.before.length

namespace Stretch

def lead (nonempty : xs ≠ []) (plain : ∀ c ∈ xs, isSeparator c = false)
    (closes : ∀ c ∈ rest.head?, isSeparator c = true) : Stretch (xs ++ rest) where
  before := []
  text := xs
  after := rest
  whole := rfl
  nonempty := nonempty
  plain := plain
  opens := nofun
  closes := closes

def behind (xs : List Char) (separates : isSeparator c = true) (s : Stretch ys) :
    Stretch (xs ++ c :: ys) where
  before := xs ++ c :: s.before
  text := s.text
  after := s.after
  whole := by simp [← s.whole]
  nonempty := s.nonempty
  plain := s.plain
  opens d hd := by
    rw [List.getLast?_append_cons, List.getLast?_cons] at hd
    cases last : s.before.getLast? with
    | none =>
      rw [last] at hd
      exact Option.mem_some_iff.mp hd ▸ separates
    | some e =>
      rw [last] at hd
      exact s.opens d (last ▸ hd)
  closes := s.closes

theorem takeWhile_plain (plain : ∀ c ∈ xs, isSeparator c = false)
    (closes : ∀ c ∈ rest.head?, isSeparator c = true) :
    (xs ++ rest).takeWhile (fun c => !isSeparator c) = xs := by
  have stops : rest.takeWhile (fun c => !isSeparator c) = [] := by
    cases rest with
    | nil => rfl
    | cons c rest =>
      rw [List.takeWhile_cons, closes c rfl]
      rfl
  rw [List.takeWhile_append_of_pos fun c hc => by simp [plain c hc], stops, List.append_nil]

theorem eq_lead (s : Stretch (xs ++ rest)) (plain : ∀ c ∈ xs, isSeparator c = false)
    (closes : ∀ c ∈ rest.head?, isSeparator c = true) (first : s.before = []) :
    ∃ nonempty, s = lead nonempty plain closes := by
  have whole := s.whole
  rw [first, List.nil_append] at whole
  -- where plain characters end is settled by the text alone
  have text : s.text = xs := by
    rw [← takeWhile_plain s.plain s.closes, whole, takeWhile_plain plain closes]
  rw [text] at whole
  exact ⟨text ▸ s.nonempty, Stretch.ext first text (List.append_cancel_left whole)⟩

theorem before_eq_nil (s : Stretch cs) (plain : ∀ c ∈ s.before, isSeparator c = false) :
    s.before = [] := by
  cases last : s.before.getLast? with
  | none => exact List.getLast?_eq_none_iff.mp last
  | some c =>
    have opens := s.opens c last
    rw [plain c (List.mem_of_getLast? last)] at opens
    cases opens

/-- A stretch that does not begin the text stands behind the separator that ends the plain
characters. -/
theorem eq_behind (s : Stretch (xs ++ c :: ys)) (plain : ∀ c ∈ xs, isSeparator c = false)
    (separates : isSeparator c = true) (later : s.before ≠ []) :
    ∃ t : Stretch ys, t.behind xs separates = s := by
  have whole := s.whole
  rw [List.append_assoc] at whole
  rcases List.append_eq_append_iff.mp whole with ⟨more, heq, _⟩ | ⟨more, heq, rest⟩
  · refine absurd (s.before_eq_nil fun d hd => ?_) later
    exact plain d (heq ▸ List.mem_append_left more hd)
  · cases more with
    | nil =>
      -- the stretch would begin with the separator
      obtain ⟨d, text, htext⟩ := List.exists_cons_of_ne_nil s.nonempty
      rw [List.nil_append, htext] at rest
      obtain ⟨rfl, _⟩ := List.cons.inj rest
      have first := s.plain c (htext ▸ List.mem_cons_self ..)
      rw [separates] at first
      cases first
    | cons d more =>
      obtain ⟨rfl, tail⟩ := List.cons.inj rest
      have opens : ∀ d ∈ more.getLast?, isSeparator d = true := by
        intro d hd
        apply s.opens
        rw [heq, List.getLast?_append_cons, List.getLast?_cons, Option.mem_def.mp hd]
        rfl
      refine ⟨⟨more, s.text, s.after, ?_, s.nonempty, s.plain, opens, s.closes⟩, ?_⟩
      · rw [List.append_assoc]
        exact tail.symm
      · exact Stretch.ext heq.symm rfl rfl

end Stretch

structure Later (stretches : List (Stretch cs)) : Prop where
  all : ∀ s : Stretch cs, s.before ≠ [] → s ∈ stretches
  inside : ∀ s ∈ stretches, s.before ≠ []
  ordered : stretches.Pairwise fun s t => s.before.length < t.before.length

theorem later_nil (plain : ∀ c ∈ xs, isSeparator c = false) :
    Later ([] : List (Stretch (xs ++ []))) where
  all s later := by
    have whole : s.before ++ (s.text ++ s.after) = xs := by simpa using s.whole
    refine absurd (s.before_eq_nil fun d hd => plain d ?_) later
    rw [← whole]
    exact List.mem_append_left _ hd
  inside := nofun
  ordered := .nil

theorem Listing.later {stretches : List (Stretch ys)} (h : Listing stretches)
    (plain : ∀ c ∈ xs, isSeparator c = false) (separates : isSeparator c = true) :
    Later (stretches.map (Stretch.behind xs separates)) where
  all s later := by
    obtain ⟨t, rfl⟩ := s.eq_behind plain separates later
    exact List.mem_map_of_mem (h.all t)
  inside s hs := by
    obtain ⟨t, _, rfl⟩ := List.mem_map.mp hs
    simp [Stretch.behind]
  ordered := by
    refine List.pairwise_map.mpr (h.ordered.imp fun lt => ?_)
    simpa [Stretch.behind] using lt

/-- Together with the stretch that begins the text, if there is one, the list is complete. -/
theorem Later.exists_listing {others : List (Stretch (xs ++ rest))} (h : Later others)
    (plain : ∀ c ∈ xs, isSeparator c = false) (closes : ∀ c ∈ rest.head?, isSeparator c = true) :
    ∃ stretches : List (Stretch (xs ++ rest)), Listing stretches ∧
      stretches.map Stretch.text = pieces xs ++ others.map Stretch.text := by
  by_cases empty : xs = []
  · subst empty
    refine ⟨others, ⟨fun s => ?_, h.ordered⟩, rfl⟩
    by_cases first : s.before = []
    · obtain ⟨nonempty, _⟩ := s.eq_lead plain closes first
      exact absurd rfl nonempty
    · exact h.all s first
  · refine ⟨.lead empty plain closes :: others, ⟨fun s => ?_, ?_⟩, ?_⟩
    · by_cases first : s.before = []
      · obtain ⟨_, rfl⟩ := s.eq_lead plain closes first
        exact List.mem_cons_self ..
      · exact List.mem_cons_of_mem _ (h.all s first)
    · refine List.pairwise_cons.mpr ⟨fun s hs => ?_, h.ordered⟩
      exact List.length_pos_iff.mpr (h.inside s hs)
    · rw [pieces_plain plain empty]
      rfl

theorem exists_plain_append (cs : List Char) : ∃ xs rest, (∀ c ∈ xs, isSeparator c = false) ∧
    (∀ c ∈ rest.head?, isSeparator c = true) ∧ cs = xs ++ rest := by
  refine ⟨cs.takeWhile fun c => !isSeparator c, cs.dropWhile fun c => !isSeparator c, ?_, ?_,
    List.takeWhile_append_dropWhile.symm⟩
  · intro c hc
    simpa using List.mem_takeWhile_imp hc
  · intro c hc
    simpa using head?_dropWhile hc

/-- The pieces of a text are its stretches. -/
theorem exists_listing (cs : List Char) :
    ∃ stretches : List (Stretch cs), Listing stretches ∧
      stretches.map Stretch.text = pieces cs := by
  induction hn : cs.length using Nat.strong_induction_on generalizing cs with
  | _ n ih =>
    obtain ⟨xs, rest, plain, closes, rfl⟩ := exists_plain_append cs
    cases rest with
    | nil =>
      obtain ⟨stretches, listing, texts⟩ := (later_nil plain).exists_listing plain closes
      refine ⟨stretches, listing, texts.trans ?_⟩
      rw [List.append_nil xs]
      exact List.append_nil _
    | cons c ys =>
      have separates := closes c rfl
      have shorter : ys.length < n := by
        rw [← hn, List.length_append, List.length_cons]
        omega
      obtain ⟨behind, complete, own⟩ := ih ys.length shorter ys rfl
      obtain ⟨stretches, listing, texts⟩ :=
        (complete.later plain separates).exists_listing plain closes
      refine ⟨stretches, listing, texts.trans ?_⟩
      rw [pieces_append_cons xs ys separates, ← own, List.map_map]
      rfl

/-- The normal form of a name is its stretches from left to right with single dots between them. So
it is tidy, and a second time nothing changes. -/
theorem separators_normal_form (s : String) :
    (∃ stretches : List (Stretch s.toList), Listing stretches ∧
      normalizeSeparators s = dotted (stretches.map fun stretch => String.ofList stretch.text)) ∧
    normalizeSeparators (normalizeSeparators s) = normalizeSeparators s ∧
    Tidy (normalizeSeparators s).toList := by
  refine ⟨?_, ?_, normalizeSeparators_tidy s⟩
  · obtain ⟨stretches, listing, texts⟩ := exists_listing s.toList
    refine ⟨stretches, listing, ?_⟩
    rw [normalizeSeparators_eq, ← texts, List.map_map]
    rfl
  · rw [normalizeSeparators_eq, pieces_normalizeSeparators, ← normalizeSeparators_eq]

example : normalizeSeparators "./pkg\\/mod..foo." = "pkg.mod.foo" := by decide +kernel

end RepoAtlas.Text
