import RepoAtlas.Proofs.Python.Pieces
import RepoAtlas.Proofs.Python.SourceText

/-!
Readers before pieces of a text. A cursor that stands before pieces sees the first of them, and what
takes a token leaves it before the others.
-/
namespace RepoAtlas.Python
open RepoAtlas.Text

/-- A cursor before some pieces of a text and the end of it. -/
structure Stands (text : List Char) (c : Cursor) (offset : Nat) (ps : List Piece) : Prop where
  width : c.width = 0
  stop : c.stop = offset
  room : ps.length < c.bound
  lexemes : ∃ ls last, c.rest = ls ++ [last] ∧ Lexed offset ps ls ∧ last.token = .endOfFile ∧
    last.gap.breaks = true
  chars : ∃ rest, text.drop offset = charsOf ps ++ rest

def seen (m : Mode) : List Piece → Token
  | [] => if m = .line then .lineEnd else .endOfFile
  | p :: _ => if m = .line ∧ '\n' ∈ p.gap then .lineEnd else p.token

theorem seen_cons {m : Mode} {p : Piece} (h : m = .line → '\n' ∉ p.gap) (ps : List Piece) :
    seen m (p :: ps) = p.token :=
  if_neg fun both => h both.1 both.2

theorem bind_of_some {α β : Type} {p : Parser α} {f : α → Parser β} {c c' : Cursor} {a : α}
    (h : p c = some (a, c')) : (p >>= f) c = f a c' := by
  change (p c >>= fun r => f r.1 r.2) = f a c'
  rw [h]
  rfl

theorem bound_eq (c : Cursor) : bound c = some (c.bound, c) := rfl

theorem bind_of_ok {α β : Type} {p : Blocks α} {f : α → Blocks β} {c c' : Cursor} {a : α}
    (h : p c = .ok (a, c')) : (p >>= f) c = f a c' := by
  change (p c >>= fun r => f r.1 r.2) = f a c'
  rw [h]
  rfl

theorem get_eq (c : Cursor) : (get : Blocks Cursor) c = .ok (c, c) := rfl

theorem here_eq (c : Cursor) : ∃ start, here c = .ok (start, c) := by
  rw [here, bind_of_ok (get_eq c)]
  cases c.rest with
  | nil => exact ⟨_, rfl⟩
  | cons l rest => exact ⟨_, rfl⟩

theorem stepBound_eq (c : Cursor) : stepBound c = .ok (c.bound, c) := rfl

theorem from_eq {α : Type} {p : Parser α} {c c' : Cursor} {a : α} (start : Nat)
    (h : p c = some (a, c')) :
    from? start p c = .ok (a, c') := by
  rw [from?, h]

theorem Lexed.of_nil {offset : Nat} {ls : List Lexeme} (h : Lexed offset [] ls) : ls = [] := by
  cases h
  rfl

theorem Lexed.of_cons {offset : Nat} {p : Piece} {ps : List Piece} {ls : List Lexeme}
    (h : Lexed offset (p :: ps) ls) :
    ∃ l rest, ls = l :: rest ∧ l.token = p.token ∧
      l.span = ⟨offset + p.gap.length, offset + p.chars.length⟩ ∧
      l.gap.breaks = p.gap.contains '\n' ∧ Lexed (offset + p.chars.length) ps rest := by
  cases h with
  | cons token span breaks lexed => exact ⟨_, _, rfl, token, span, breaks, lexed⟩

section
variable {text : List Char} {c : Cursor} {offset : Nat} {p : Piece} {ps : List Piece} {m : Mode}

/-- What is visible of a lexeme outside blocks. -/
theorem view_lexeme {l : Lexeme} (rest : List Lexeme) (h : isTrivia l.token = false) :
    view m 0 (l :: rest) =
      some (if m = .line ∧ l.gap.breaks = true then .lineEnd else l.token, l :: rest) := by
  obtain ⟨comment, continuation⟩ := Bool.or_eq_false_iff.mp h
  cases m with
  | line => cases hb : l.gap.breaks <;> simp [view, hb, comment, continuation]
  | bracket => simp [view, h]
  | unfinished => simp [view, h, leavesBlock]

theorem Piece.not_trivia (p : Piece) : isTrivia p.token = false := by
  cases p <;> rfl

theorem Stands.view_eq (h : Stands text c offset ps) :
    view m c.width c.rest = some (seen m ps, c.rest) := by
  obtain ⟨ls, last, rest, lexed, token, breaks⟩ := h.lexemes
  rw [h.width, rest]
  cases ps with
  | nil =>
    obtain rfl := lexed.of_nil
    rw [List.nil_append, view_lexeme _ (by rw [token]; rfl), token]
    simp [seen, breaks]
  | cons p ps =>
    obtain ⟨l, ls, rfl, token, _, breaks, _⟩ := lexed.of_cons
    rw [List.cons_append, view_lexeme _ (by rw [token]; exact p.not_trivia), token, breaks]
    simp [seen]

theorem Stands.look_eq (h : Stands text c offset ps) {t : Token} (hseen : seen m ps = t) :
    look m c = some (t, c) := by
  rw [look, h.view_eq, hseen]
  rfl

theorem Stands.lastStop_eq (h : Stands text c offset ps) : lastStop c = some (offset, c) := by
  rw [← h.stop]
  rfl

theorem Stands.startOffset_eq (h : Stands text c offset (p :: ps)) :
    startOffset m c = some (offset + p.gap.length, c) := by
  rw [startOffset, h.view_eq]
  obtain ⟨ls, last, rest, lexed, _⟩ := h.lexemes
  obtain ⟨l, ls, rfl, _, span, _⟩ := lexed.of_cons
  simp only [rest, List.cons_append, span]

/-- Taking a piece. -/
theorem Stands.advance_eq (h : Stands text c offset (p :: ps))
    (hseen : seen m (p :: ps) = p.token) :
    ∃ l c', advance m c = some (l, c') ∧
      l.span = ⟨offset + p.gap.length, offset + p.chars.length⟩ ∧
      Stands text c' (offset + p.chars.length) ps := by
  obtain ⟨ls, last, rest, lexed, token, breaks⟩ := h.lexemes
  obtain ⟨l, ls, rfl, _, span, _, lexed⟩ := lexed.of_cons
  refine ⟨l, { c with rest := ls ++ [last], stop := l.span.stop }, ?_, span, ?_⟩
  · have more : (p.token == Token.lineEnd) = false := by cases p <;> rfl
    rw [advance, h.view_eq, hseen]
    simp only [rest, List.cons_append, more]
    rfl
  · obtain ⟨tail, chars⟩ := h.chars
    refine ⟨h.width, by rw [span], Nat.lt_of_succ_lt h.room, ⟨ls, last, rfl, lexed, token, breaks⟩,
      tail, ?_⟩
    rw [← List.drop_drop, chars, charsOf_cons, List.append_assoc, List.drop_left]

theorem Stands.accept_other (h : Stands text c offset ps) {t : Token} (hseen : seen m ps ≠ t) :
    accept m t c = some (false, c) := by
  rw [accept, bind_of_some (h.look_eq rfl), if_neg (by simpa using hseen)]
  rfl

theorem Stands.accept_eq (h : Stands text c offset (p :: ps)) (hseen : seen m (p :: ps) = p.token) :
    ∃ c', accept m p.token c = some (true, c') ∧ Stands text c' (offset + p.chars.length) ps := by
  obtain ⟨l, c', advanced, _, stands⟩ := h.advance_eq hseen
  refine ⟨c', ?_, stands⟩
  rw [accept, bind_of_some (h.look_eq hseen), if_pos (beq_self_eq_true _),
    bind_of_some advanced]
  rfl

theorem Stands.expect_eq (h : Stands text c offset (p :: ps)) (hseen : seen m (p :: ps) = p.token) :
    ∃ c', expect m p.token c = some ((), c') ∧ Stands text c' (offset + p.chars.length) ps := by
  obtain ⟨l, c', advanced, _, stands⟩ := h.advance_eq hseen
  refine ⟨c', ?_, stands⟩
  rw [expect, bind_of_some (h.look_eq hseen), if_pos (beq_self_eq_true _),
    bind_of_some advanced]
  rfl

theorem Stands.identifier_eq {gap : List Char} {word : String}
    (h : Stands text c offset (.word gap word :: ps)) (hseen : m = .line → '\n' ∉ gap) :
    ∃ c', identifier m c =
      some ((word, ⟨offset + gap.length, offset + (gap ++ word.toList).length⟩), c') ∧
      Stands text c' (offset + (gap ++ word.toList).length) ps := by
  have token := seen_cons (p := .word gap word) hseen ps
  obtain ⟨l, c', advanced, span, stands⟩ := h.advance_eq token
  refine ⟨c', ?_, stands⟩
  rw [identifier, bind_of_some (h.look_eq token)]
  change (advance m >>= fun l => pure (word, l.span)) c = _
  rw [bind_of_some advanced, span]
  rfl

theorem Stands.acceptSymbol_eq {gap : List Char} {s : String}
    (h : Stands text c offset (.symbol gap s :: ps)) (hgap : m = .line → '\n' ∉ gap) :
    ∃ c', acceptSymbol m s c = some (true, c') ∧
      Stands text c' (offset + (gap ++ s.toList).length) ps :=
  h.accept_eq (seen_cons hgap ps)

theorem Stands.acceptWord_eq {gap : List Char} {w : String}
    (h : Stands text c offset (.word gap w :: ps)) (hgap : m = .line → '\n' ∉ gap) :
    ∃ c', acceptWord m w c = some (true, c') ∧
      Stands text c' (offset + (gap ++ w.toList).length) ps :=
  h.accept_eq (seen_cons hgap ps)

theorem Stands.noSymbol (h : Stands text c offset ps) {s : String} (hseen : seen m ps ≠ .symbol s) :
    acceptSymbol m s c = some (false, c) :=
  h.accept_other hseen

theorem Stands.noWord (h : Stands text c offset ps) {w : String} (hseen : seen m ps ≠ .word w) :
    acceptWord m w c = some (false, c) :=
  h.accept_other hseen

theorem Stands.expectSymbol_eq {gap : List Char} {s : String}
    (h : Stands text c offset (.symbol gap s :: ps)) (hgap : m = .line → '\n' ∉ gap) :
    ∃ c', expectSymbol m s c = some ((), c') ∧
      Stands text c' (offset + (gap ++ s.toList).length) ps :=
  h.expect_eq (seen_cons hgap ps)

theorem Stands.expectWord_eq {gap : List Char} {w : String}
    (h : Stands text c offset (.word gap w :: ps)) (hgap : m = .line → '\n' ∉ gap) :
    ∃ c', expectWord m w c = some ((), c') ∧
      Stands text c' (offset + (gap ++ w.toList).length) ps :=
  h.expect_eq (seen_cons hgap ps)

/-- The text between two offsets of some pieces. -/
theorem Stands.part {xs : List Piece} (h : Stands text c offset (xs ++ ps)) {gap inner : List Char}
    (heq : charsOf xs = gap ++ inner) :
    (SourceText.ofChars text).slice ⟨offset + gap.length, offset + (charsOf xs).length⟩ =
      inner := by
  obtain ⟨rest, chars⟩ := h.chars
  rw [SourceText.slice_ofChars]
  dsimp only
  rw [← List.drop_drop, chars, charsOf_append, heq, List.append_assoc, List.append_assoc,
    List.drop_left]
  have length : offset + (gap ++ inner).length - (offset + gap.length) = inner.length := by
    rw [List.length_append]
    omega
  rw [length, List.take_left]

/-- The lexeme that comes next is none of those that are skipped, and it does not end the block. -/
theorem Stands.head_eq (h : Stands text c offset ps) :
    ∃ l rest, c.rest = l :: rest ∧ l.token = seen .bracket ps ∧ isTrivia l.token = false ∧
      l.gap.closes c.width = false := by
  have inside (l : Lexeme) : l.gap.closes c.width = false := by simp [h.width, Gap.closes]
  obtain ⟨ls, last, rest, lexed, token, _⟩ := h.lexemes
  cases ps with
  | nil =>
    obtain rfl := lexed.of_nil
    exact ⟨last, [], rest, token, by rw [token]; rfl, inside last⟩
  | cons p ps =>
    obtain ⟨l, ls, rfl, token, _⟩ := lexed.of_cons
    exact ⟨l, _, rest, token.trans (seen_cons (by simp) _).symm, by rw [token]; exact p.not_trivia,
      inside l⟩

theorem Stands.trailing_eq (h : Stands text c offset ps) (n : Nat) :
    trailing n c = .ok ((), c) := by
  obtain ⟨l, rest, heq, _, plain, _⟩ := h.head_eq
  cases n with
  | zero => rfl
  | succ n =>
    rw [trailing, bind_of_ok (get_eq c)]
    simp only [heq, plain]
    rfl

end

end RepoAtlas.Python
