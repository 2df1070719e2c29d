import Mathlib.Data.List.Chain
import RepoAtlas.Proofs.Text.Segments

/-!
Names written with separators of any kind. Dots, slashes and backslashes can stand for one another
and can be repeated; bringing a name into normal form keeps the pieces between them and nothing
else. The normal form is made in three passes: each keeps the pieces, and what the passes leave is
tidy, so it is the pieces with dots between them.
-/
namespace RepoAtlas.Text

def isSeparator (c : Char) : Bool := c == '.' || c == '/' || c == '\\'

def IsRun (s : String) : Prop := ∀ c ∈ s.toList, isSeparator c = true

def Unseparated (s : String) : Prop := ∀ c ∈ s.toList, isSeparator c = false

instance (s : String) : Decidable (IsRun s) :=
  decidable_of_iff (s.toList.all isSeparator = true) List.all_eq_true

instance (s : String) : Decidable (Unseparated s) :=
  decidable_of_iff (s.toList.all (fun c => !isSeparator c) = true) (by simp [Unseparated])

theorem unseparated_of_not_mem {s : String} (dot : '.' ∉ s.toList) (slash : '/' ∉ s.toList)
    (backslash : '\\' ∉ s.toList) : Unseparated s := by
  intro c hc
  have others : c ≠ '.' ∧ c ≠ '/' ∧ c ≠ '\\' := by
    refine ⟨?_, ?_, ?_⟩
    · rintro rfl
      exact dot hc
    · rintro rfl
      exact slash hc
    · rintro rfl
      exact backslash hc
  simp [isSeparator, others]

/-- Segments in order, a run of separators between any two of them and maybe one at the end. -/
inductive Spells : List String → String → Prop where
  | last {part after : String} : IsRun after → Spells [part] (part ++ after)
  | more {part between s : String} {parts : List String} : IsRun between → between ≠ "" →
      Spells parts s → Spells (part :: parts) (part ++ between ++ s)

def Spelling (parts : List String) (s : String) : Prop :=
  ∃ before rest, IsRun before ∧ Spells parts rest ∧ s = before ++ rest

def pieces (cs : List Char) : List (List Char) :=
  (cs.splitOnP isSeparator).filter fun part => !part.isEmpty

theorem pieces_append_cons (xs ys : List Char) {c : Char} (h : isSeparator c = true) :
    pieces (xs ++ c :: ys) = pieces xs ++ pieces ys := by
  rw [pieces, List.splitOnP_append_cons xs ys h, List.filter_append, pieces, pieces]

theorem pieces_cons_separator {c : Char} (h : isSeparator c = true) (cs : List Char) :
    pieces (c :: cs) = pieces cs :=
  pieces_append_cons [] cs h

theorem pieces_run_append {run : List Char} (h : ∀ c ∈ run, isSeparator c = true) (xs : List Char) :
    pieces (run ++ xs) = pieces xs := by
  induction run with
  | nil => rfl
  | cons c run ih =>
    rw [List.cons_append, pieces_cons_separator (h c (List.mem_cons_self ..)),
      ih fun d hd => h d (List.mem_cons_of_mem _ hd)]

theorem pieces_between {run : List Char} (h : ∀ c ∈ run, isSeparator c = true) (some : run ≠ [])
    (xs ys : List Char) : pieces (xs ++ run ++ ys) = pieces xs ++ pieces ys := by
  cases run with
  | nil => exact absurd rfl some
  | cons c run =>
    rw [List.append_assoc, List.cons_append, pieces_append_cons xs _ (h c (List.mem_cons_self ..)),
      pieces_run_append fun d hd => h d (List.mem_cons_of_mem _ hd)]

theorem pieces_append_run {run : List Char} (h : ∀ c ∈ run, isSeparator c = true) (xs : List Char) :
    pieces (xs ++ run) = pieces xs := by
  by_cases empty : run = []
  · rw [empty, List.append_nil]
  · have ending := pieces_between h empty xs []
    rw [List.append_nil] at ending
    exact ending.trans (List.append_nil _)

theorem pieces_plain {cs : List Char} (h : ∀ c ∈ cs, isSeparator c = false) (nonempty : cs ≠ []) :
    pieces cs = [cs] := by
  rw [pieces, List.splitOnP_eq_singleton h]
  simp [nonempty]

theorem pieces_unseparated {part : String} (h : Unseparated part) :
    (pieces part.toList).map String.ofList = [part].filter fun part => part != "" := by
  by_cases empty : part = ""
  · rw [empty]
    rfl
  · rw [pieces_plain h (by simpa using empty)]
    simp [empty]

theorem Spells.pieces {parts : List String} {s : String} (h : Spells parts s)
    (plain : ∀ part ∈ parts, Unseparated part) :
    (Text.pieces s.toList).map String.ofList = parts.filter fun part => part != "" := by
  induction h with
  | @last part after run =>
    rw [String.toList_append, pieces_append_run run,
      pieces_unseparated (plain part (List.mem_cons_self ..))]
  | @more part between s parts run nonempty _ ih =>
    rw [String.toList_append, String.toList_append, pieces_between run (by simpa using nonempty),
      List.map_append, pieces_unseparated (plain part (List.mem_cons_self ..)),
      ih fun p hp => plain p (List.mem_cons_of_mem _ hp), ← List.filter_append]
    rfl

/-! What the passes keep. -/

theorem isSeparator_eq (c : Char) : isSeparator c = (isDot c || isSlash c) := Bool.or_assoc ..

theorem isSeparator_of_isDot {c : Char} (h : isDot c = true) : isSeparator c = true := by
  rw [isSeparator_eq, h, Bool.true_or]

theorem isSeparator_of_isSlash {c : Char} (h : isSlash c = true) : isSeparator c = true := by
  rw [isSeparator_eq, h, Bool.or_true]

/-- What stands in front is left open: a piece may have begun there. -/
theorem pieces_append_dotRuns {kind : Char → Bool}
    (within : ∀ c, kind c = true → isSeparator c = true) (xs cs : List Char) :
    pieces (xs ++ dotRuns kind cs) = pieces (xs ++ cs) := by
  fun_induction dotRuns kind cs generalizing xs with
  | case1 => rfl
  | case2 c cs member next ih =>
    obtain ⟨d, ds, rfl⟩ : ∃ d ds, cs = d :: ds := by
      apply List.exists_cons_of_ne_nil
      rintro rfl
      cases next
    rw [ih, pieces_append_cons xs (d :: ds) (within c member),
      pieces_append_cons xs ds (within d next), pieces_cons_separator (within d next)]
  | case3 c cs member _ ih =>
    rw [pieces_append_cons xs _ rfl, pieces_append_cons xs cs (within c member)]
    exact congrArg (pieces xs ++ ·) (ih [])
  | case4 c cs _ ih =>
    have grown := ih (xs ++ [c])
    rwa [List.append_assoc, List.append_assoc] at grown

theorem pieces_stripEnds {kind : Char → Bool} (within : ∀ c, kind c = true → isSeparator c = true)
    (cs : List Char) : pieces (stripEnds kind cs) = pieces cs := by
  obtain ⟨before, after, front, back, heq⟩ := stripEnds_spec kind cs
  have whole : pieces (before ++ stripEnds kind cs ++ after) = pieces (stripEnds kind cs) := by
    rw [pieces_append_run fun c hc => within c (back c hc),
      pieces_run_append fun c hc => within c (front c hc)]
  rw [← heq] at whole
  exact whole.symm

theorem pieces_normalizeSeparators (s : String) :
    pieces (normalizeSeparators s).toList = pieces s.toList := by
  have slashes := pieces_append_dotRuns (fun _ => isSeparator_of_isSlash) [] s.toList
  have dots := pieces_append_dotRuns (fun _ => isSeparator_of_isDot) [] (dotRuns isSlash s.toList)
  rw [normalizeSeparators, String.toList_ofList, pieces_stripEnds fun _ => isSeparator_of_isDot]
  exact dots.trans slashes

/-! What the passes leave. -/

/-- Single dots and no other separators, none at the ends. -/
structure Tidy (cs : List Char) : Prop where
  no_slash : '/' ∉ cs
  no_backslash : '\\' ∉ cs
  apart : cs.IsChain fun a b => ¬ (a = '.' ∧ b = '.')
  first : cs.head? ≠ some '.'
  last : cs.getLast? ≠ some '.'

theorem mem_dotRuns {kind : Char → Bool} {cs : List Char} {c : Char} (hc : c ∈ dotRuns kind cs)
    (other : c ≠ '.') : c ∈ cs ∧ kind c = false := by
  fun_induction dotRuns kind cs with
  | case1 => cases hc
  | case2 d cs _ _ ih => exact (ih hc).imp_left (List.mem_cons_of_mem d)
  | case3 d cs _ _ ih =>
    rcases List.mem_cons.mp hc with dot | hc
    · exact absurd dot other
    · exact (ih hc).imp_left (List.mem_cons_of_mem d)
  | case4 d cs outside ih =>
    rcases List.mem_cons.mp hc with rfl | hc
    · exact ⟨List.mem_cons_self .., Bool.eq_false_iff.mpr outside⟩
    · exact (ih hc).imp_left (List.mem_cons_of_mem d)

/-- The pass over the dots brings no slash back. -/
theorem no_slash_left {c : Char} (slash : isSlash c = true) (cs : List Char) :
    c ∉ dotRuns isDot (dotRuns isSlash cs) := by
  have other : c ≠ '.' := by
    rintro rfl
    cases slash
  intro hc
  obtain ⟨hc, _⟩ := mem_dotRuns hc other
  obtain ⟨_, outside⟩ := mem_dotRuns hc other
  rw [slash] at outside
  cases outside

theorem head?_dotRuns {kind : Char → Bool} {cs : List Char} (h : ¬ cs.head?.any kind = true) :
    (dotRuns kind cs).head? = cs.head? := by
  cases cs with
  | nil => rfl
  | cons c cs =>
    have outside : ¬ kind c = true := h
    rw [dotRuns, if_neg outside, List.head?_cons, List.head?_cons]

theorem dotRuns_apart (cs : List Char) :
    (dotRuns isDot cs).IsChain fun a b => ¬ (a = '.' ∧ b = '.') := by
  fun_induction dotRuns isDot cs with
  | case1 => exact .nil
  | case2 c cs _ _ ih => exact ih
  | case3 c cs _ next ih =>
    refine ih.cons fun d hd both => next ?_
    rw [head?_dotRuns next] at hd
    rw [Option.mem_def.mp hd, both.2]
    rfl
  | case4 c cs other ih =>
    refine ih.cons fun d _ both => other ?_
    rw [both.1]
    rfl

theorem normalizeSeparators_tidy (s : String) : Tidy (normalizeSeparators s).toList := by
  rw [normalizeSeparators, String.toList_ofList]
  have inside := stripEnds_inside isDot (dotRuns isDot (dotRuns isSlash s.toList))
  have dotless {c : Char} (h : isDot c = false) : c ≠ '.' := by
    rintro rfl
    cases h
  constructor
  · exact fun slash => no_slash_left rfl s.toList (inside.subset slash)
  · exact fun slash => no_slash_left rfl s.toList (inside.subset slash)
  · exact List.IsChain.infix (dotRuns_apart _) inside
  · exact fun dot => dotless (stripEnds_first dot) rfl
  · exact fun dot => dotless (stripEnds_last dot) rfl

theorem Tidy.eq_dot {cs : List Char} (h : Tidy cs) {c : Char} (hc : c ∈ cs)
    (separates : isSeparator c = true) :
    c = '.' := by
  simp only [isSeparator, Bool.or_eq_true, beq_iff_eq] at separates
  rcases separates with (rfl | rfl) | rfl
  · rfl
  · exact absurd hc h.no_slash
  · exact absurd hc h.no_backslash

theorem Tidy.behind_dot {xs ys : List Char} (h : Tidy (xs ++ '.' :: ys)) : Tidy ys where
  no_slash mem := h.no_slash (by simp [mem])
  no_backslash mem := h.no_backslash (by simp [mem])
  apart := h.apart.right_of_append.tail
  first dot := (List.isChain_cons.mp h.apart.right_of_append).1 '.' dot ⟨rfl, rfl⟩
  last dot := h.last (by simp [List.getLast?_cons, dot])

/-- The induction is over the text behind `xs`, the part of the first piece that is already read. -/
theorem Tidy.joined_append {xs cs : List Char} (h : Tidy (xs ++ cs))
    (plain : ∀ c ∈ xs, isSeparator c = false) :
    ['.'].intercalate (pieces (xs ++ cs)) = xs ++ cs := by
  induction cs generalizing xs with
  | nil =>
    rw [List.append_nil]
    by_cases empty : xs = []
    · rw [empty]
      rfl
    · rw [pieces_plain plain empty, List.intercalate_singleton]
  | cons c cs ih =>
    by_cases separates : isSeparator c = true
    · obtain rfl := h.eq_dot (by simp) separates
      have begun : xs ≠ [] := by
        rintro rfl
        exact h.first rfl
      have more : cs ≠ [] := by
        rintro rfl
        exact h.last (by simp)
      have rest : ['.'].intercalate (pieces cs) = cs := @ih [] h.behind_dot (by simp)
      have others : pieces cs ≠ [] := by
        intro none
        rw [none] at rest
        exact more rest.symm
      rw [pieces_append_cons xs cs separates, pieces_plain plain begun, List.singleton_append,
        List.intercalate_cons_of_ne_nil others, rest, List.append_assoc, List.singleton_append]
    · have grown := @ih (xs ++ [c])
      rw [List.append_assoc] at grown
      refine grown h fun d hd => ?_
      rcases List.mem_append.mp hd with hd | hd
      · exact plain d hd
      · rw [List.mem_singleton.mp hd]
        exact Bool.eq_false_iff.mpr separates

theorem Tidy.joined {cs : List Char} (h : Tidy cs) : ['.'].intercalate (pieces cs) = cs :=
  @Tidy.joined_append [] cs h (by simp)

theorem dotted_ofList (parts : List (List Char)) :
    dotted (parts.map String.ofList) = String.ofList (['.'].intercalate parts) := by
  have same : String.toList ∘ String.ofList = id := funext fun _ => String.toList_ofList
  rw [← String.toList_inj, dotted, joinWith, String.toList_intercalate, List.map_map, same,
    List.map_id]
  exact String.toList_ofList.symm

/-- The normal form of a name is its pieces with dots between them. -/
theorem normalizeSeparators_eq (s : String) :
    normalizeSeparators s = dotted ((pieces s.toList).map String.ofList) := by
  have joined := (normalizeSeparators_tidy s).joined
  rw [pieces_normalizeSeparators] at joined
  rw [dotted_ofList, joined, String.ofList_toList]

/-- However segments are spelled, the normal form has a dot between any two of them. -/
theorem Spelling.normalized {parts : List String} {s : String} (h : Spelling parts s)
    (plain : ∀ part ∈ parts, Unseparated part) :
    normalizeSeparators s = dotted (parts.filter fun part => part != "") := by
  obtain ⟨before, rest, run, spelled, rfl⟩ := h
  rw [normalizeSeparators_eq, String.toList_append, pieces_run_append run, spelled.pieces plain]

end RepoAtlas.Text
