import RepoAtlas.Proofs.Python.Layout
import RepoAtlas.Proofs.Python.Standing

/-!
Readers before tokens that are laid out. What a reader does at a token depends on how it looks at
the line breaks before it; comments are passed over.
-/
namespace RepoAtlas.Python
open RepoAtlas.Text

/-! Taking a token. -/

/-- The next token of a cursor, as a reader sees it and takes it. -/
structure Steps (m : Mode) (c : Cursor) (t : Token) (s : Span) (c' : Cursor) : Prop where
  look : look m c = some (t, c)
  start : startOffset m c = some (s.start, c)
  advance : ∃ l, advance m c = some (l, c') ∧ l.token = t ∧ l.span = s

namespace Steps

variable {m : Mode} {c c' : Cursor} {t : Token} {s : Span}

theorem accept (h : Steps m c t s c') : accept m t c = some (true, c') := by
  obtain ⟨l, advanced, _⟩ := h.advance
  rw [Python.accept, bind_of_some h.look, if_pos (beq_self_eq_true t), bind_of_some advanced]
  rfl

theorem accept_other (h : Steps m c t s c') {t' : Token} (other : t ≠ t') :
    Python.accept m t' c = some (false, c) := by
  rw [Python.accept, bind_of_some h.look, if_neg (by simpa using other)]
  rfl

theorem expect (h : Steps m c t s c') : expect m t c = some ((), c') := by
  obtain ⟨l, advanced, _⟩ := h.advance
  rw [Python.expect, bind_of_some h.look, if_pos (beq_self_eq_true t), bind_of_some advanced]
  rfl

theorem identifier {w : String} (h : Steps m c (.word w) s c') :
    identifier m c = some ((w, s), c') := by
  obtain ⟨l, advanced, _, span⟩ := h.advance
  rw [Python.identifier, bind_of_some h.look]
  change (Python.advance m >>= fun l => pure (w, l.span)) c = _
  rw [bind_of_some advanced, span]
  rfl

/-- The token after the next one. -/
theorem lookSecond (h : Steps m c t s c') {second : Mode} {t' : Token}
    (next : Python.look second c' = some (t', c')) : lookSecond m second c = some (t', c) := by
  obtain ⟨l, advanced, _⟩ := h.advance
  have got : (get : Parser Cursor) c = some (c, c) := rfl
  rw [Python.lookSecond, bind_of_some got, bind_of_some advanced, bind_of_some next]
  rfl

end Steps

/-! What is seen of a token. -/

def Printed.Shows (p : Printed) (width : Nat) : Mode → Prop
  | .line => inCode p.token = true ∧ p.filler.Tight
  | .bracket => True
  | .unfinished => inCode p.token = true ∧ p.filler.Within width

theorem Told.not_trivia {offset : Nat} {p : Printed} {ks : List Lexeme} {l : Lexeme}
    (h : Told offset p ks l) : isTrivia l.token = false := by
  have := p.spelling.proper
  rw [h.token, Printed.token]
  simp_all [isTrivia]

theorem view_comments {m : Mode} {width : Nat} {ks : List Lexeme} (hm : m ≠ .line)
    (hks : ∀ k ∈ ks, k.token = .comment)
    (inside : m = .unfinished → ∀ k ∈ ks, leavesBlock width k = false) (rest : List Lexeme) :
    view m width (ks ++ rest) = view m width rest := by
  induction ks with
  | nil => rfl
  | cons k ks ih =>
    obtain ⟨comment, comments⟩ := List.forall_mem_cons.mp hks
    have trivial : isTrivia k.token = true := by rw [comment]; rfl
    have others := ih comments fun hm k hk => inside hm k (List.mem_cons_of_mem _ hk)
    cases m with
    | line => exact absurd rfl hm
    | bracket => simpa [view, trivial] using others
    | unfinished => simpa [view, trivial, inside rfl k List.mem_cons_self] using others

theorem Filler.Within.inside {width : Nat} {f : Filler} (h : f.Within width) {ls : List Lexeme}
    (behind : List.Forall₂ Behind (f.runs []) ls) : ∀ l ∈ ls, leavesBlock width l = false := by
  unfold Filler.Within at h
  generalize f.runs [] = runs at h behind
  induction behind with
  | nil => simp
  | @cons run l runs ls first _ ih =>
    obtain ⟨hrun, hruns⟩ := List.forall_mem_cons.mp h
    refine List.forall_mem_cons.mpr ⟨?_, ih hruns⟩
    rw [leavesBlock, first.near]
    by_cases hb : '\n' ∈ run
    · simp [gapOf, Nat.not_lt.mpr (hrun hb)]
    · simp [gapOf, hb]

/-- A token without comments is one lexeme. -/
theorem Told.alone {offset : Nat} {p : Printed} {ks : List Lexeme} {l : Lexeme}
    (h : Told offset p ks l) (code : inCode p.token = true) {run : List Char}
    (hrun : p.filler.runs [] = [run]) :
    ks = [] ∧ Behind run l := by
  have behind := h.behind code
  rw [hrun] at behind
  cases ks with
  | nil => exact ⟨rfl, (List.forall₂_cons.mp behind).1⟩
  | cons k ks => cases behind with | cons _ others => cases ks <;> cases others

theorem Told.view_eq {offset : Nat} {p : Printed} {ks : List Lexeme} {l : Lexeme}
    (h : Told offset p ks l) {m : Mode} {width : Nat} (shows : p.Shows width m)
    (rest : List Lexeme) :
    view m width (ks ++ l :: rest) = some (p.token, l :: rest) := by
  have plain := h.not_trivia
  cases m with
  | line =>
    obtain ⟨code, run, runs, unbroken⟩ := shows
    obtain ⟨rfl, first⟩ := h.alone code runs
    obtain ⟨comment, continuation⟩ := Bool.or_eq_false_iff.mp plain
    have breaks : l.gap.breaks = false := by
      rw [first.breaks]
      simpa using unbroken
    simp only [List.nil_append, view, breaks, comment, continuation, ← h.token]
    rfl
  | bracket =>
    rw [view_comments (by simp) h.comments (by simp)]
    simp [view, plain, ← h.token]
  | unfinished =>
    obtain ⟨code, within⟩ := shows
    have inside := within.inside (h.behind code)
    rw [view_comments (by simp) h.comments fun _ k hk => inside k (List.mem_append_left _ hk)]
    simp [view, plain, inside l (by simp), ← h.token]

/-! Cursors. -/

/-- A cursor before tokens that are laid out and the end of the text, in a block of a width. -/
structure Facing (text : List Char) (c : Cursor) (width offset : Nat) (ps : List Printed) :
    Prop where
  width : c.width = width
  stop : c.stop = offset
  room : ps.length < c.bound
  lexemes : ∃ ls last, c.rest = ls ++ [last] ∧ Laid offset ps ls ∧ last.token = .endOfFile ∧
    last.gap = gapOf ['\n']
  chars : ∃ rest, text.drop offset = textOf ps ++ rest

theorem Laid.of_cons {offset : Nat} {p : Printed} {ps : List Printed} {ls : List Lexeme}
    (h : Laid offset (p :: ps) ls) :
    ∃ ks l rest, ls = ks ++ l :: rest ∧ Told offset p ks l ∧
      Laid (offset + p.chars.length) ps rest := by
  cases h with
  | cons told laid => exact ⟨_, _, _, rfl, told, laid⟩

section
variable {text : List Char} {c : Cursor} {width offset : Nat} {p : Printed} {ps : List Printed}

theorem Facing.at {offset' : Nat} (h : Facing text c width offset ps) (heq : offset = offset') :
    Facing text c width offset' ps := heq ▸ h

/-- The cursor behind a token. -/
theorem Facing.behind {ks ls : List Lexeme} {l last : Lexeme}
    (h : Facing text c width offset (p :: ps)) (told : Told offset p ks l)
    (laid : Laid (offset + p.chars.length) ps ls) (token : last.token = .endOfFile)
    (gap : last.gap = gapOf ['\n']) :
    Facing text { c with rest := ls ++ [last], stop := l.span.stop } width
      (offset + p.chars.length) ps := by
  obtain ⟨tail, chars⟩ := h.chars
  refine ⟨h.width, by rw [told.span], Nat.lt_of_succ_lt h.room, ⟨ls, last, rfl, laid, token, gap⟩,
    tail, ?_⟩
  rw [← List.drop_drop, chars, textOf_cons, List.append_assoc, List.drop_left]

/-- Taking a token leaves the cursor before the others, however the reader looks at line breaks. -/
theorem Facing.next (h : Facing text c width offset (p :: ps)) :
    ∃ c', Facing text c' width (offset + p.chars.length) ps ∧ c'.bound = c.bound ∧
      ∀ m, p.Shows width m →
        Steps m c p.token ⟨offset + p.filler.chars.length, offset + p.chars.length⟩ c' := by
  obtain ⟨ls, last, rest, laid, token, gap⟩ := h.lexemes
  obtain ⟨ks, l, ls, rfl, told, laid⟩ := laid.of_cons
  rw [List.append_assoc, List.cons_append] at rest
  refine ⟨{ c with rest := ls ++ [last], stop := l.span.stop }, h.behind told laid token gap, rfl,
    ?_⟩
  intro m shows
  have seen : view m c.width c.rest = some (p.token, l :: (ls ++ [last])) := by
    rw [h.width, rest]
    exact told.view_eq shows _
  have more : (p.token == Token.lineEnd) = false := by
    have := p.spelling.proper
    simp_all [Printed.token]
  refine ⟨by rw [look, seen]; rfl, ?_, l, ?_, told.token, told.span⟩
  · rw [startOffset, seen]
    simp only [told.span]
  · rw [advance, seen]
    simp only [more]
    rfl

theorem Facing.bound_succ (h : Facing text c width offset ps) : ∃ b, c.bound = b + 1 :=
  ⟨c.bound - 1, by have := h.room; omega⟩

theorem Facing.lastStop_eq (h : Facing text c width offset ps) : lastStop c = some (offset, c) := by
  rw [← h.stop]
  rfl

theorem Facing.continuations_eq (h : Facing text c width offset ps) :
    continuations c = some ([], c) := by
  have none : (c.rest.takeWhile fun l => isTrivia l.token).filter
      (fun l => l.token == .continuation) = [] := by
    obtain ⟨ls, last, rest, laid, token, _⟩ := h.lexemes
    cases ps with
    | nil =>
      cases laid
      simp [rest, token, isTrivia]
    | cons p ps =>
      obtain ⟨ks, l, ls, rfl, told, _⟩ := laid.of_cons
      have comments : ∀ k ∈ ks, isTrivia k.token = true := by
        intro k hk
        rw [told.comments k hk]
        rfl
      rw [rest, List.append_assoc, List.takeWhile_append_of_pos comments, List.cons_append,
        List.takeWhile_cons, told.not_trivia]
      simp only [Bool.false_eq_true, ↓reduceIte, List.append_nil, List.filter_eq_nil_iff]
      intro k hk
      rw [told.comments k hk]
      simp
  have got : (get : Parser Cursor) c = some (c, c) := rfl
  rw [continuations, bind_of_some got]
  simp only [none]
  rfl

/-- The lexeme of a token that has only white space before it, and the cursor behind it. -/
theorem Facing.head_eq (h : Facing text c width offset (p :: ps)) (code : inCode p.token = true)
    {run : List Char} (hrun : p.filler.runs [] = [run]) :
    ∃ l rest, c.rest = l :: rest ∧ l.token = p.token ∧ isTrivia l.token = false ∧
      l.gap = gapOf run ∧
      Facing text { c with rest := rest, stop := l.span.stop } width
        (offset + p.chars.length) ps := by
  obtain ⟨ls, last, rest, laid, token, gap⟩ := h.lexemes
  obtain ⟨ks, l, ls, rfl, told, others⟩ := laid.of_cons
  obtain ⟨rfl, first⟩ := told.alone code hrun
  refine ⟨l, ls ++ [last], rest, told.token, told.not_trivia, (told.gap code).trans first.near, ?_⟩
  exact h.behind told others token gap

end

end RepoAtlas.Python
