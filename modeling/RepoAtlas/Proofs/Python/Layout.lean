import RepoAtlas.Proofs.Python.Spelling

/-!
Tokens as they are laid out: each with the white space, line breaks and comments before it. The
lexemes of such a text are the tokens and, before each of them, its comments.
-/
namespace RepoAtlas.Python
open RepoAtlas.Text

/-- What may stand between tokens: a white character, or a comment with the line break that ends
it. -/
inductive Fill where
  | blank (c : Char) (white : isGapChar c = true)
  | comment (text : List Char) (line : ∀ c ∈ text, c ≠ '\n' ∧ c ≠ '\x00')

def Fill.lineBreak : Fill := .blank '\n' rfl

def Fill.chars : Fill → List Char
  | .blank c _ => [c]
  | .comment text _ => '#' :: (text ++ ['\n'])

abbrev Filler := List Fill

namespace Filler

def chars (f : Filler) : List Char := f.flatMap Fill.chars

/-- The white space before each comment and before what follows the filler. A comment's line break
counts to what is behind it. The first argument is white space that stands before the filler. -/
def runs : List Char → Filler → List (List Char)
  | run, [] => [run]
  | run, .blank c _ :: f => runs (run ++ [c]) f
  | run, .comment _ _ :: f => run :: runs ['\n'] f

/-- No line of the filler that something stands on starts before a column. -/
def Within (width : Nat) (f : Filler) : Prop :=
  ∀ run ∈ f.runs [], '\n' ∈ run → width ≤ columnAfter 0 run

def Tight (f : Filler) : Prop := ∃ run, f.runs [] = [run] ∧ '\n' ∉ run

end Filler

structure Printed where
  filler : Filler
  spelling : Spelling

namespace Printed

def token (p : Printed) : Token := p.spelling.token

def chars (p : Printed) : List Char := p.filler.chars ++ p.spelling.chars

end Printed

def textOf (ps : List Printed) : List Char := ps.flatMap Printed.chars

@[simp] theorem textOf_nil : textOf [] = [] := rfl

@[simp] theorem textOf_cons (p : Printed) (ps : List Printed) :
    textOf (p :: ps) = p.chars ++ textOf ps := rfl

@[simp] theorem textOf_append (ps qs : List Printed) : textOf (ps ++ qs) = textOf ps ++ textOf qs :=
  List.flatMap_append

/-! Gaps of lexemes. -/

def gapOf (run : List Char) : Gap := ⟨run.contains '\n', columnAfter 0 run, none⟩

theorem scan_breaks {cross inside : Bool} {g : Gap} (h : g.breaks = true) (cs : List Char) :
    (Gap.scan cross inside g cs).breaks = true := by
  fun_induction Gap.scan cross inside g cs <;> simp_all

section
variable {run : List Char} (hrun : ∀ c ∈ run, isGapChar c = true) (rest : List Char)
include hrun

theorem full_solid {c : Char} (hc : isSolid c = true) :
    Gap.full (run ++ c :: rest) = gapOf run := by
  rw [Gap.full, scan_gap true _ hrun, scan_solid _ hc]
  rfl

theorem short_solid {c : Char} (hc : isSolid c = true) :
    Gap.short (run ++ c :: rest) = gapOf run := by
  rw [Gap.short, scan_gap false _ hrun, scan_solid _ hc]
  rfl

theorem short_comment : Gap.short (run ++ '#' :: rest) = gapOf run := by
  rw [Gap.short, scan_gap false _ hrun]
  simp [Gap.scan, gapOf, Gap.start]

theorem full_comment : (Gap.full (run ++ '#' :: rest)).breaks = run.contains '\n' := by
  rw [Gap.full, scan_gap true _ hrun]
  cases hb : run.contains '\n' with
  | true => exact scan_breaks (by simp) _
  | false => simp [Gap.scan, Gap.start]

end

/-! Lexemes. -/

structure Behind (run : List Char) (l : Lexeme) : Prop where
  near : l.near = gapOf run
  breaks : l.gap.breaks = run.contains '\n'

/-- The lexemes of one token: its comments, and the token itself. -/
structure Told (offset : Nat) (p : Printed) (ks : List Lexeme) (l : Lexeme) : Prop where
  comments : ∀ k ∈ ks, k.token = .comment
  token : l.token = p.token
  span : l.span = ⟨offset + p.filler.chars.length, offset + p.chars.length⟩
  behind : inCode p.token = true → List.Forall₂ Behind (p.filler.runs []) (ks ++ [l])
  gap : inCode p.token = true → l.gap = l.near

inductive Laid : Nat → List Printed → List Lexeme → Prop where
  | nil {offset : Nat} : Laid offset [] []
  | cons {offset : Nat} {p : Printed} {ps : List Printed} {ks : List Lexeme} {l : Lexeme}
        {ls : List Lexeme} :
      Told offset p ks l → Laid (offset + p.chars.length) ps ls →
      Laid offset (p :: ps) (ks ++ l :: ls)

theorem Laid.length_le {offset : Nat} {ps : List Printed} {ls : List Lexeme}
    (h : Laid offset ps ls) :
    ps.length ≤ ls.length := by
  induction h with
  | nil => exact Nat.le_refl 0
  | cons _ _ ih =>
    rw [List.length_append, List.length_cons, List.length_cons]
    omega

/-- A token that is read as it is before some text, where the reader stands in some literals. In the
text of a literal nothing comes before it. -/
structure Printed.Fits (p : Printed) (frames frames' : List Frame) (next : List Char) : Prop where
  place : skipsSpace frames = inCode p.token
  bare : inCode p.token = false → p.filler = []
  reads : p.spelling.Reads frames frames' next

/-- Each of some tokens is read as it is before the others and a rest. -/
def Fitting : List Frame → List Printed → List Char → Prop
  | frames, [], _ => frames = []
  | frames, p :: ps, rest => ∃ frames', p.Fits frames frames' (textOf ps ++ rest) ∧
        Fitting frames' ps rest

/-- No line continuation is at the end of what was read. -/
def Settled (before : List Lexeme) : Prop := before.takeWhile isContinuation = []

theorem push_settled {before : List Lexeme} (h : Settled before) (l : Lexeme) :
    push l before = l :: before := by
  rw [push]
  split <;> simp [show before.takeWhile isContinuation = [] from h]

theorem readToken_code {frames : List Frame} (h : skipsSpace frames = true) (afterWord : Bool)
    (cs : List Char) : readToken frames afterWord cs = readCode frames afterWord cs := by
  unfold readToken
  split
  · cases h
  · cases h
  · rfl

theorem readCode_comment (frames : List Frame) (afterWord : Bool) {text : List Char}
    (h : ∀ c ∈ text, c ≠ '\n') (rest : List Char) :
    readCode frames afterWord ('#' :: (text ++ '\n' :: rest)) =
      ⟨.comment, text.length + 1, frames⟩ := by
  have line : (text ++ '\n' :: rest).takeWhile (fun c => c != '\n') = text := by
    rw [List.takeWhile_append_of_pos (by simpa using h)]
    simp
  simp [readCode, line]

theorem takeWhile_run {run : List Char} (hrun : ∀ c ∈ run, isGapChar c = true) {c : Char}
    (hc : isSpace c = false) (rest : List Char) : (run ++ c :: rest).takeWhile isSpace = run := by
  rw [List.takeWhile_append_of_pos fun c hc => isSpace_of_isGapChar (hrun c hc),
    List.takeWhile_cons, hc]
  simp

/-- A comment behind white space. -/
theorem lexFrom_comment (bound offset : Nat) {frames : List Frame}
    (hframes : skipsSpace frames = true) (before : List Lexeme) {run text : List Char}
    (hrun : ∀ c ∈ run, isGapChar c = true) (htext : ∀ c ∈ text, c ≠ '\n') (rest : List Char) :
    ∃ k : Lexeme, k.token = .comment ∧ Behind run k ∧
      lexFrom (bound + 1) offset frames before (run ++ '#' :: (text ++ '\n' :: rest)) =
        lexFrom bound (offset + run.length + (text.length + 1)) frames (k :: before)
        ('\n' :: rest) := by
  have read : readToken frames (endsInWord before) ('#' :: (text ++ '\n' :: rest)) =
      ⟨.comment, text.length + 1, frames⟩ := by
    rw [readToken_code hframes, readCode_comment frames _ htext]
  have spaces := takeWhile_run hrun (c := '#') rfl (text ++ '\n' :: rest)
  obtain ⟨k, token, _, gap, near, step⟩ := lexFrom_step bound offset frames before run
    (by rw [if_pos hframes, spaces]) (List.cons_ne_nil _ _) read rfl
  refine ⟨k, token, ⟨?_, ?_⟩, ?_⟩
  · rw [near, short_comment hrun]
  · rw [gap, full_comment hrun]
  · have plain : push k before = k :: before := by simp [push, token]
    rw [step, plain, List.drop_succ_cons, List.drop_left]

/-- A token behind white space and a filler, with the comments of the filler before it. The
induction is on the filler; white space that was passed without a lexeme is kept in `run`. -/
theorem lexFrom_code {s : Spelling} (hs : inCode s.token = true) {frames frames' : List Frame}
    (hframes : skipsSpace frames = true) {next : List Char} (reads : s.Reads frames frames' next)
    (f : Filler) {run : List Char} (hrun : ∀ c ∈ run, isGapChar c = true) {bound : Nat}
    (offset : Nat) {before : List Lexeme} (settled : Settled before)
    (hb : (run ++ (f.chars ++ (s.chars ++ next))).length < bound) :
    ∃ ks l bound', (∀ k ∈ ks, k.token = .comment) ∧ l.token = s.token ∧
      l.span = ⟨offset + (run ++ f.chars).length,
        offset + (run ++ f.chars).length + s.chars.length⟩ ∧
      List.Forall₂ Behind (f.runs run) (ks ++ [l]) ∧ l.gap = l.near ∧ next.length < bound' ∧
      lexFrom bound offset frames before (run ++ (f.chars ++ (s.chars ++ next))) =
        lexFrom bound' (offset + (run ++ f.chars).length + s.chars.length) frames'
          (l :: (ks.reverse ++ before)) next := by
  obtain ⟨bound, rfl⟩ : ∃ n, bound = n + 1 := ⟨bound - 1, by omega⟩
  induction f generalizing run bound offset before with
  | nil =>
    obtain ⟨c, cs, chars⟩ := List.exists_cons_of_ne_nil s.some
    have solid := s.solid hs c (by rw [chars]; rfl)
    have spaces : (run ++ (s.chars ++ next)).takeWhile isSpace = run := by
      rw [chars, List.cons_append]
      exact takeWhile_gap hrun solid _
    have proper : (s.token == .malformed) = false := by
      have := s.proper
      simp_all
    obtain ⟨l, token, span, gap, near, step⟩ := lexFrom_step bound offset frames before run
      (by rw [if_pos hframes, spaces]) (by simp [s.some]) (reads (endsInWord before)) proper
    have full : l.gap = gapOf run := by
      rw [gap, chars, List.cons_append, full_solid hrun _ solid]
    have short : l.near = gapOf run := by
      rw [near, chars, List.cons_append, short_solid hrun _ solid]
    have length : (run ++ Filler.chars []).length = run.length := by simp [Filler.chars]
    refine ⟨[], l, bound, by simp, token, by rw [span, length], ?_, full.trans short.symm, ?_, ?_⟩
    · exact .cons ⟨short, by rw [full]; rfl⟩ .nil
    · simp only [List.length_append, chars, List.length_cons] at hb
      omega
    · rw [length]
      change lexFrom (bound + 1) offset frames before (run ++ (s.chars ++ next)) = _
      rw [step, push_settled settled, List.drop_left]
      rfl
  | cons fill f ih =>
    cases fill with
    | blank c white =>
      have longer : ∀ d ∈ run ++ [c], isGapChar d = true := by
        intro d hd
        rcases List.mem_append.mp hd with hd | hd
        · exact hrun d hd
        · rwa [List.mem_singleton.mp hd]
      have moved : run ++ (Filler.chars (.blank c white :: f) ++ (s.chars ++ next)) =
          (run ++ [c]) ++ (Filler.chars f ++ (s.chars ++ next)) := by
            simp [Filler.chars, Fill.chars]
      have length : (run ++ Filler.chars (.blank c white :: f)).length =
          ((run ++ [c]) ++ Filler.chars f).length := by simp [Filler.chars, Fill.chars]
      rw [moved] at hb ⊢
      rw [length]
      exact ih longer offset settled bound hb
    | comment text line =>
      have moved : run ++ (Filler.chars (.comment text line :: f) ++ (s.chars ++ next)) =
          run ++ '#' :: (text ++ '\n' :: (Filler.chars f ++ (s.chars ++ next))) := by
        simp [Filler.chars, Fill.chars]
      rw [moved] at hb ⊢
      obtain ⟨k, token, behind, step⟩ := lexFrom_comment bound offset hframes before hrun
        (fun c hc => (line c hc).1) (Filler.chars f ++ (s.chars ++ next))
      have fewer : (['\n'] ++ (Filler.chars f ++ (s.chars ++ next))).length < bound := by
        simp only [List.length_append, List.length_cons, List.length_nil] at hb ⊢
        omega
      obtain ⟨bound, rfl⟩ : ∃ n, bound = n + 1 := ⟨bound - 1, by omega⟩
      have settled' : Settled (k :: before) := by simp [Settled, isContinuation, token]
      obtain ⟨ks, l, bound', comments, token', span, others, gap, hbound, rest⟩ :=
        @ih ['\n'] (by simp [isGapChar]) (offset + run.length + (text.length + 1))
          (k :: before) settled' bound fewer
      have offset_eq : offset + run.length + (text.length + 1) + (['\n'] ++ Filler.chars f).length =
          offset + (run ++ Filler.chars (.comment text line :: f)).length := by
        simp [Filler.chars, Fill.chars]
        omega
      rw [offset_eq] at span rest
      refine ⟨k :: ks, l, bound', ?_, token', span, .cons behind others, gap, hbound, ?_⟩
      · exact List.forall_mem_cons.mpr ⟨token, comments⟩
      · rw [List.reverse_cons, List.append_assoc]
        exact step.trans rest

/-- A token in the text of a literal. -/
theorem lexFrom_text {s : Spelling} {frames frames' : List Frame}
    (hframes : skipsSpace frames = false) {next : List Char} (reads : s.Reads frames frames' next)
    (bound offset : Nat) {before : List Lexeme} (settled : Settled before) :
    ∃ l : Lexeme, l.token = s.token ∧ l.span = ⟨offset, offset + s.chars.length⟩ ∧
      lexFrom (bound + 1) offset frames before (s.chars ++ next) =
        lexFrom bound (offset + s.chars.length) frames' (l :: before) next := by
  have proper : (s.token == .malformed) = false := by
    have := s.proper
    simp_all
  obtain ⟨l, token, span, _, _, step⟩ := lexFrom_step bound offset frames before []
    (by rw [hframes]; rfl) (by simp [s.some]) (reads (endsInWord before)) proper
  refine ⟨l, token, span, ?_⟩
  rw [push_settled settled, List.drop_left] at step
  exact step

theorem Spelling.settled {s : Spelling} {l : Lexeme} (h : l.token = s.token)
    (before : List Lexeme) :
    Settled (l :: before) := by
  have other : isContinuation l = false := by
    have := s.proper
    simp_all [isContinuation]
  simp [Settled, other]

theorem lexFrom_printed {p : Printed} {frames frames' : List Frame} {next : List Char}
    (h : p.Fits frames frames' next) {bound : Nat} (offset : Nat) {before : List Lexeme}
    (settled : Settled before) (hb : (p.chars ++ next).length < bound) :
    ∃ ks l bound', Told offset p ks l ∧ next.length < bound' ∧
      Settled (l :: (ks.reverse ++ before)) ∧
      lexFrom bound offset frames before (p.chars ++ next) =
        lexFrom bound' (offset + p.chars.length) frames' (l :: (ks.reverse ++ before)) next := by
  rw [Printed.chars, List.append_assoc] at hb ⊢
  rw [List.length_append, ← Nat.add_assoc]
  cases code : inCode p.token with
  | true =>
    obtain ⟨ks, l, bound', comments, token, span, behind, gap, hbound, run⟩ :=
      lexFrom_code code (h.place.trans code) h.reads p.filler
        (List.forall_mem_nil _) offset settled hb
    rw [List.nil_append] at span run
    refine ⟨ks, l, bound', ⟨comments, token, ?_, fun _ => behind, fun _ => gap⟩, hbound,
      p.spelling.settled token _, run⟩
    rw [span, Printed.chars, List.length_append, Nat.add_assoc]
  | false =>
    have bare := h.bare code
    have chars : p.filler.chars = [] := by
      rw [bare]
      rfl
    have positive := List.length_pos_iff.mpr p.spelling.some
    rw [chars, List.nil_append, List.length_append] at hb
    obtain ⟨bound, rfl⟩ : ∃ n, bound = n + 1 := ⟨bound - 1, by omega⟩
    obtain ⟨l, token, span, step⟩ := lexFrom_text (h.place.trans code) h.reads bound offset settled
    refine ⟨[], l, bound, ⟨by simp, token, ?_, by simp [code], by simp [code]⟩, by omega,
      p.spelling.settled token _, ?_⟩
    · rw [span, Printed.chars, chars]
      rfl
    · rw [chars]
      exact step

/-- The lexemes of some tokens. -/
theorem lexFrom_laid {ps : List Printed} {frames : List Frame} {rest : List Char}
    (h : Fitting frames ps rest) {bound : Nat} (hb : (textOf ps ++ rest).length < bound)
    (offset : Nat) {before : List Lexeme} (settled : Settled before) :
    ∃ ls bound', Laid offset ps ls ∧ rest.length < bound' ∧
      lexFrom bound offset frames before (textOf ps ++ rest) =
        lexFrom bound' (offset + (textOf ps).length) [] (ls.reverse ++ before) rest := by
  induction ps generalizing bound offset before frames with
  | nil =>
    obtain rfl : frames = [] := h
    exact ⟨[], bound, .nil, by simpa using hb, by simp⟩
  | cons p ps ih =>
    obtain ⟨frames', fits, others⟩ := h
    rw [textOf_cons, List.append_assoc] at hb ⊢
    obtain ⟨ks, l, bound', told, hbound, settled, step⟩ := lexFrom_printed fits offset settled hb
    obtain ⟨ls, bound', laid, hbound, run⟩ := ih others hbound (offset + p.chars.length) settled
    refine ⟨ks ++ l :: ls, bound', .cons told laid, hbound, ?_⟩
    rw [step, run, List.length_append, Nat.add_assoc]
    simp

/-- The lexemes of some tokens, a line break after them and the end of the text. -/
theorem lex_laid {ps : List Printed} (h : Fitting [] ps ['\n']) :
    ∃ ls last, lex (textOf ps ++ ['\n']) = ls ++ [last] ∧ Laid 0 ps ls ∧ last.token = .endOfFile ∧
      last.gap = gapOf ['\n'] := by
  have settled : Settled [] := rfl
  obtain ⟨ls, bound, laid, hbound, run⟩ := lexFrom_laid h (Nat.lt_succ_self _) 0 settled
  obtain ⟨bound, rfl⟩ : ∃ n, bound = n + 1 := ⟨bound - 1, by omega⟩
  refine ⟨ls, ⟨.endOfFile, ⟨0 + (textOf ps).length + 1, 0 + (textOf ps).length + 1⟩, gapOf ['\n'],
    Gap.short ['\n'], trivial⟩, ?_, laid, rfl, rfl⟩
  have spaces : (['\n'].takeWhile isSpace).length = 1 := by decide
  rw [lex, run, List.append_nil, lexFrom]
  · simp [skipsSpace, spaces, push, Gap.full, Gap.scan, Gap.start, gapOf, columnAfter]
  · simp [skipsSpace, spaces]

end RepoAtlas.Python
