import RepoAtlas.Proofs.Python.Lexemes

/-!
Texts that are put together from words and symbols, with white space before them. Where no word and
no symbol runs on into what follows it, they are the lexemes of the text.
-/
namespace RepoAtlas.Python
open RepoAtlas.Text

inductive Piece where
  | word (gap : List Char) (text : String)
  | symbol (gap : List Char) (text : String)
  deriving DecidableEq, Repr

namespace Piece

def gap : Piece → List Char
  | .word gap _ => gap
  | .symbol gap _ => gap

def text : Piece → String
  | .word _ text => text
  | .symbol _ text => text

def token : Piece → Token
  | .word _ text => .word text
  | .symbol _ text => .symbol text

def chars (p : Piece) : List Char := p.gap ++ p.text.toList

end Piece

def charsOf (ps : List Piece) : List Char := ps.flatMap Piece.chars

@[simp] theorem charsOf_nil : charsOf [] = [] := rfl

@[simp] theorem charsOf_cons (p : Piece) (ps : List Piece) :
    charsOf (p :: ps) = p.chars ++ charsOf ps := rfl

@[simp] theorem charsOf_append (ps qs : List Piece) :
    charsOf (ps ++ qs) = charsOf ps ++ charsOf qs :=
  List.flatMap_append

def isGapChar (c : Char) : Bool := c == ' ' || c == '\t' || c == '\n' || c == '\r'

def isSolid (c : Char) : Bool := !isSpace c && c != '#' && c != '\\'

theorem isGapChar_iff {c : Char} :
    isGapChar c = true ↔ c = ' ' ∨ c = '\t' ∨ c = '\n' ∨ c = '\r' := by
  simp [isGapChar, or_assoc]

theorem isSpace_of_isGapChar {c : Char} (h : isGapChar c = true) : isSpace c = true := by
  rcases isGapChar_iff.mp h with rfl | rfl | rfl | rfl <;> decide

/-! Gaps. -/

theorem scan_solid {cross : Bool} (g : Gap) {c : Char} (h : isSolid c = true) (rest : List Char) :
    Gap.scan cross false g (c :: rest) = g := by
  have ne {d : Char} (hd : isSolid d = false) : c ≠ d := by
    rintro rfl
    rw [h] at hd
    cases hd
  have backslash := ne (d := '\\') (by decide)
  have newline := ne (d := '\n') (by decide)
  have space := ne (d := ' ') (by decide)
  have tab := ne (d := '\t') (by decide)
  have carriage := ne (d := '\r') (by decide)
  have form := ne (d := '\x0c') (by decide)
  have hash := ne (d := '#') (by decide)
  unfold Gap.scan
  split <;> simp_all

def columnAfter : Nat → List Char → Nat
  | n, [] => n
  | n, c :: cs => columnAfter (if c == ' ' then n + 1 else if c == '\t' then n + 8 else 0) cs

/-- White space is passed over: line breaks are noticed, and columns are counted. -/
theorem scan_gap (cross : Bool) (g : Gap) {gap : List Char} (h : ∀ c ∈ gap, isGapChar c = true)
    (rest : List Char) :
    Gap.scan cross false g (gap ++ rest) =
      Gap.scan cross false ⟨g.breaks || gap.contains '\n', columnAfter g.indent gap, g.comment⟩
        rest := by
  induction gap generalizing g with
  | nil => simp [columnAfter]
  | cons c gap ih =>
    obtain ⟨hc, hgap⟩ := List.forall_mem_cons.mp h
    have step : Gap.scan cross false g (c :: (gap ++ rest)) =
        Gap.scan cross false ⟨g.breaks || c == '\n', columnAfter g.indent [c], g.comment⟩
          (gap ++ rest) := by
      rcases isGapChar_iff.mp hc with rfl | rfl | rfl | rfl <;> simp [Gap.scan, columnAfter]
    rw [List.cons_append, step, ih _ hgap, List.contains_cons, BEq.comm (b := c), ← Bool.or_assoc]
    rfl

/-- A line ends in a gap if there is a line break in it. -/
theorem scan_gap_breaks (g : Gap) {gap : List Char} (h : ∀ c ∈ gap, isGapChar c = true) {c : Char}
    (hc : isSolid c = true) (rest : List Char) :
    (Gap.scan true false g (gap ++ c :: rest)).breaks = (g.breaks || gap.contains '\n') := by
  rw [scan_gap true g h, scan_solid _ hc]

/-- A line ends in the gap at the end of a text. -/
theorem scan_end_breaks (g : Gap) {gap : List Char} (h : ∀ c ∈ gap, isGapChar c = true) :
    (Gap.scan true false g gap).breaks = true := by
  rw [← List.append_nil gap, scan_gap true g h, Gap.scan]

/-! Lexemes. -/

structure Piece.Fits (p : Piece) (next : List Char) : Prop where
  blank : ∀ c ∈ p.gap, isGapChar c = true
  solid : ∃ c cs, p.text.toList = c :: cs ∧ isSolid c = true
  read : ∀ afterWord, readCode [] afterWord (p.text.toList ++ next) =
    ⟨p.token, p.text.toList.length, []⟩

/-- Each of some pieces is read as it is before the pieces after it and a rest. -/
def Fitted : List Piece → List Char → Prop
  | [], _ => True
  | p :: ps, rest => p.Fits (charsOf ps ++ rest) ∧ Fitted ps rest

theorem fitted_append {ps qs : List Piece} {rest : List Char} :
    Fitted (ps ++ qs) rest ↔ Fitted ps (charsOf qs ++ rest) ∧ Fitted qs rest := by
  induction ps with
  | nil => simp [Fitted]
  | cons p ps ih => simp [Fitted, ih, and_assoc]

inductive Lexed : Nat → List Piece → List Lexeme → Prop where
  | nil {offset : Nat} : Lexed offset [] []
  | cons {offset : Nat} {p : Piece} {ps : List Piece} {l : Lexeme} {ls : List Lexeme} :
      l.token = p.token → l.span = ⟨offset + p.gap.length, offset + p.chars.length⟩ →
      l.gap.breaks = p.gap.contains '\n' → Lexed (offset + p.chars.length) ps ls →
      Lexed offset (p :: ps) (l :: ls)

theorem Lexed.length {offset : Nat} {ps : List Piece} {ls : List Lexeme} (h : Lexed offset ps ls) :
    ls.length = ps.length := by
  induction h with
  | nil => rfl
  | cons _ _ _ _ ih => simp [ih]

theorem Piece.push_eq {p : Piece} {l : Lexeme} (h : l.token = p.token) (before : List Lexeme) :
    push l before = l :: before := by
  cases p <;> simp [push, h, Piece.token]

theorem Piece.token_ne_malformed (p : Piece) : (p.token == .malformed) = false := by
  cases p <;> rfl

/-- One token behind white space, which only code may have before it. -/
theorem lexFrom_step (bound offset : Nat) (frames : List Frame) (before : List Lexeme)
    (gap : List Char) {rest : List Char} {found : Found}
    (hgap :
      (if skipsSpace frames then ((gap ++ rest).takeWhile isSpace).length else 0) = gap.length)
    (hrest : rest ≠ []) (hfound : readToken frames (endsInWord before) rest = found)
    (hok : (found.token == .malformed) = false) :
    ∃ l : Lexeme, l.token = found.token ∧
      l.span = ⟨offset + gap.length, offset + gap.length + found.length⟩ ∧
      l.gap = Gap.full (gap ++ rest) ∧ l.near = Gap.short (gap ++ rest) ∧
      lexFrom (bound + 1) offset frames before (gap ++ rest) =
        lexFrom bound (offset + gap.length + found.length) found.frames (push l before)
          (rest.drop found.length) := by
  subst hfound
  generalize step : lexFrom (bound + 1) offset frames before (gap ++ rest) = run
  unfold lexFrom at step
  extract_lets full near spaces start last at step
  have length : spaces = gap.length := hgap
  clear_value spaces
  subst length
  split at step
  · rename_i hnil
    exact absurd (List.drop_left.symm.trans hnil) hrest
  · contradiction
  · rename_i heq _
    obtain rfl := Nat.succ.inj heq
    rw [List.drop_left] at step
    extract_lets found lexeme at step
    rw [if_neg (by rw [hok]; exact Bool.false_ne_true)] at step
    exact ⟨lexeme, rfl, rfl, rfl, rfl, step.symm⟩

theorem takeWhile_gap {gap : List Char} (h : ∀ c ∈ gap, isGapChar c = true) {c : Char}
    (hc : isSolid c = true) (rest : List Char) : (gap ++ c :: rest).takeWhile isSpace = gap := by
  have stop : isSpace c = false := by
    simp only [isSolid, Bool.and_eq_true, Bool.not_eq_true'] at hc
    exact hc.1.1
  rw [List.takeWhile_append_of_pos fun c hc => isSpace_of_isGapChar (h c hc), List.takeWhile_cons,
    stop]
  simp

/-- One piece more. -/
theorem lexFrom_piece {p : Piece} {next : List Char} (h : p.Fits next) (bound offset : Nat)
    (before : List Lexeme) :
    ∃ l : Lexeme, l.token = p.token ∧ l.span = ⟨offset + p.gap.length, offset + p.chars.length⟩ ∧
      l.gap.breaks = p.gap.contains '\n' ∧
      lexFrom (bound + 1) offset [] before (p.chars ++ next) =
        lexFrom bound (offset + p.chars.length) [] (l :: before) next := by
  obtain ⟨c, cs, text, solid⟩ := h.solid
  have split : p.text.toList ++ next = c :: (cs ++ next) := by rw [text, List.cons_append]
  have spaces : (p.gap ++ (p.text.toList ++ next)).takeWhile isSpace = p.gap := by
    rw [split]
    exact takeWhile_gap h.blank solid _
  have breaks : (Gap.full (p.gap ++ (p.text.toList ++ next))).breaks = p.gap.contains '\n' := by
    rw [split, Gap.full, scan_gap_breaks _ h.blank solid]
    rfl
  have read : readToken [] (endsInWord before) (p.text.toList ++ next) =
      ⟨p.token, p.text.toList.length, []⟩ := h.read (endsInWord before)
  obtain ⟨l, token, span, gap, _, heq⟩ := lexFrom_step bound offset [] before p.gap
    (congrArg List.length spaces) (by rw [split]; exact List.cons_ne_nil _ _) read
      p.token_ne_malformed
  have length : offset + p.chars.length = offset + p.gap.length + p.text.toList.length := by
    rw [Piece.chars, List.length_append, Nat.add_assoc]
  refine ⟨l, token, by rw [span, length], by rw [gap, breaks], ?_⟩
  rw [Piece.chars, List.append_assoc, heq, Piece.push_eq token, List.drop_left, ← Piece.chars,
    length]

theorem lexFrom_pieces {ps : List Piece} {rest : List Char} (h : Fitted ps rest) {bound : Nat}
    (hb : (charsOf ps ++ rest).length < bound) (offset : Nat) (before : List Lexeme) :
    ∃ ls bound', Lexed offset ps ls ∧ rest.length < bound' ∧
      lexFrom bound offset [] before (charsOf ps ++ rest) =
        lexFrom bound' (offset + (charsOf ps).length) [] (ls.reverse ++ before) rest := by
  induction ps generalizing bound offset before with
  | nil => exact ⟨[], bound, .nil, by simpa using hb, by simp⟩
  | cons p ps ih =>
    obtain ⟨fits, others⟩ := h
    obtain ⟨c, cs, text, _⟩ := fits.solid
    have some : 0 < p.chars.length := by
      rw [Piece.chars, List.length_append, text, List.length_cons]
      omega
    rw [charsOf_cons, List.append_assoc, List.length_append] at hb
    obtain ⟨bound, rfl⟩ : ∃ n, bound = n + 1 := ⟨bound - 1, by omega⟩
    obtain ⟨l, token, span, breaks, step⟩ := lexFrom_piece fits bound offset before
    have fewer : (charsOf ps ++ rest).length < bound := by omega
    obtain ⟨ls, bound', lexed, hbound, run⟩ := ih others fewer (offset + p.chars.length)
      (l :: before)
    refine ⟨l :: ls, bound', .cons token span breaks lexed, hbound, ?_⟩
    rw [charsOf_cons, List.append_assoc, step, run, List.length_append, List.reverse_cons,
      List.append_assoc, Nat.add_assoc]
    rfl

/-- The lexemes of pieces and the end of the text. -/
theorem lex_pieces {ps : List Piece} {rest : List Char} (h : Fitted ps rest)
    (hrest : ∀ c ∈ rest, isGapChar c = true) :
    ∃ ls last, lex (charsOf ps ++ rest) = ls ++ [last] ∧ Lexed 0 ps ls ∧
      last.token = .endOfFile ∧ last.gap.breaks = true := by
  obtain ⟨ls, bound, lexed, _, run⟩ := lexFrom_pieces h (Nat.lt_succ_self _) 0 []
  have all : rest.takeWhile isSpace = rest := by
    rw [← List.append_nil rest,
      List.takeWhile_append_of_pos fun c hc => isSpace_of_isGapChar (hrest c hc),
      List.takeWhile_nil]
  rw [lex, run, List.append_nil]
  unfold lexFrom
  extract_lets full near spaces start last
  have nothing : rest.drop spaces = [] := by
    change rest.drop (rest.takeWhile isSpace).length = []
    rw [all, List.drop_length]
  clear_value spaces
  split
  · exact ⟨ls, last, by simp [last, push], lexed, rfl, scan_end_breaks _ hrest⟩
  · contradiction
  · contradiction

/-! Words and symbols that do not run on. -/

/-- The text after a word starts with something that belongs to no word and to no literal. -/
def Stops (cs : List Char) : Prop :=
  ∀ c ∈ cs.head?, isIdentPart c = false ∧ isQuoteMark c = false

theorem isIdentPart_of_isIdentStart {c : Char} (h : isIdentStart c = true) :
    isIdentPart c = true := by
  rw [isIdentStart] at h
  rw [isIdentPart]
  split at h <;> rename_i small
  · rw [if_pos small]
    rcases Bool.or_eq_true_iff.mp h with h | h
    · simp [Char.isAlphanum, h]
    · simp [h]
  · rw [if_neg small, h, Bool.true_or]

theorem not_isQuoteMark_of_isIdentPart {c : Char} (h : isIdentPart c = true) :
    isQuoteMark c = false := by
  by_contra hquote
  simp only [Bool.not_eq_false, isQuoteMark, Bool.or_eq_true, beq_iff_eq] at hquote
  rcases hquote with (rfl | rfl) | rfl <;> exact absurd h (by decide)

theorem isIdentPart_of_isPrefixLetter {c : Char} (h : isPrefixLetter c = true) :
    isIdentPart c = true := by
  simp only [isPrefixLetter, List.contains_iff_mem] at h
  have letters : c = 'f' ∨ c = 'F' ∨ c = 'r' ∨ c = 'R' ∨ c = 'b' ∨ c = 'B' ∨ c = 'u' ∨ c = 'U' := by
    simpa using h
  rcases letters with rfl | rfl | rfl | rfl | rfl | rfl | rfl | rfl <;> decide

theorem isSolid_of_isIdentStart {c : Char} (h : isIdentStart c = true) : isSolid c = true := by
  have differs {n : Nat} (hn : isIdentStart (Char.ofNat n) = false) : c.toNat ≠ n := by
    rintro rfl
    rw [Char.ofNat_toNat, h] at hn
    cases hn
  have space : isSpace c = false := by
    have := differs (n := 32) (by decide)
    have := differs (n := 9) (by decide)
    have := differs (n := 10) (by decide)
    have := differs (n := 11) (by decide)
    have := differs (n := 12) (by decide)
    have := differs (n := 13) (by decide)
    have := differs (n := 0xFEFF) (by decide +kernel)
    have := differs (n := 0x2060) (by decide +kernel)
    have := differs (n := 0x200B) (by decide +kernel)
    simp [isSpace]
    omega
  have hash : c ≠ '#' := by
    rintro rfl
    exact absurd h (by decide)
  have backslash : c ≠ '\\' := by
    rintro rfl
    exact absurd h (by decide)
  simp [isSolid, space, hash, backslash]

theorem quote_eq_none {cs : List Char}
    (h : ∀ c ∈ (cs.dropWhile isPrefixLetter).head?, isQuoteMark c = false) : quote? cs = none := by
  have behind {c : Char} {rest : List Char}
      (hrest : cs.drop (cs.takeWhile isPrefixLetter).length = c :: rest) :
        isQuoteMark c = false := by
    have drop : cs.drop (cs.takeWhile isPrefixLetter).length = cs.dropWhile isPrefixLetter := by
      nth_rewrite 2 [← List.takeWhile_append_dropWhile (p := isPrefixLetter) (l := cs)]
      exact List.drop_left
    rw [← drop, hrest] at h
    exact h c rfl
  fun_cases quote? cs with
  | case1 | case5 | case6 => rfl
  | case2 letters _ _ _ a b c rest hrest quoted | case3 letters _ _ _ a b c rest hrest quoted =>
    rw [behind hrest] at quoted
    cases quoted rfl
  | case4 letters _ _ _ a rest _ hrest quoted =>
    rw [behind hrest] at quoted
    cases quoted

/-- No literal starts with a word. -/
theorem quote_word {cs next : List Char} (h : ∀ c ∈ cs, isIdentPart c = true) (hnext : Stops next) :
    quote? (cs ++ next) = none := by
  apply quote_eq_none
  induction cs with
  | nil =>
    cases next with
    | nil => simp
    | cons d next =>
      obtain ⟨part, quote⟩ := hnext d rfl
      have letter : isPrefixLetter d = false := by
        by_contra letter
        rw [isIdentPart_of_isPrefixLetter (Bool.not_eq_false _ ▸ letter)] at part
        cases part
      simpa [List.dropWhile_cons, letter] using quote
  | cons c cs ih =>
    obtain ⟨part, parts⟩ := List.forall_mem_cons.mp h
    by_cases letter : isPrefixLetter c = true
    · simpa [List.dropWhile_cons, letter] using ih parts
    · simpa [List.dropWhile_cons, letter] using not_isQuoteMark_of_isIdentPart part

theorem readCode_word (frames : List Frame) {text : String} (h : isIdentifier text = true)
    {next : List Char} (hnext : Stops next) (afterWord : Bool) :
    readCode frames afterWord (text.toList ++ next) = readWord frames text text.toList.length := by
  obtain ⟨c, cs, htext, start, parts⟩ : ∃ c cs, text.toList = c :: cs ∧ isIdentStart c = true ∧
      ∀ d ∈ cs, isIdentPart d = true := by
    rw [isIdentifier] at h
    split at h
    · rename_i c cs heq
      obtain ⟨start, parts⟩ := Bool.and_eq_true_iff.mp h
      exact ⟨c, cs, heq, start, List.all_eq_true.mp parts⟩
    · cases h
  have quote : quote? (text.toList ++ next) = none := by
    refine quote_word ?_ hnext
    rw [htext]
    exact List.forall_mem_cons.mpr ⟨isIdentPart_of_isIdentStart start, parts⟩
  have stop : next.takeWhile isIdentPart = [] := by
    cases next with
    | nil => rfl
    | cons d next => simp [(hnext d rfl).1]
  have length : wordLength (text.toList ++ next) = cs.length + 1 := by
    rw [htext, List.cons_append, wordLength, if_pos start, List.takeWhile_append_of_pos parts, stop,
      List.append_nil]
  have word : (text.toList ++ next).take (cs.length + 1) = text.toList := by
    rw [htext, List.cons_append, List.take_succ_cons, List.take_left]
  have ne {d : Char} (hd : isIdentStart d = false) : c ≠ d := by
    rintro rfl
    rw [start] at hd
    cases hd
  have hash := ne (d := '#') (by decide)
  have backslash := ne (d := '\\') (by decide)
  unfold readCode
  split
  · simp_all
  · simp_all
  · simp_all
  · simp_all
  · simp only [quote, length, word, String.ofList_toList]
    rw [htext, List.length_cons]

theorem fits_word {text : String} (h : isIdentifier text = true) {next : List Char}
    (hnext : Stops next) {gap : List Char} (hgap : ∀ c ∈ gap, isGapChar c = true) :
    (Piece.word gap text).Fits next where
  blank := hgap
  solid := by
    rw [isIdentifier] at h
    split at h
    · rename_i c cs heq
      exact ⟨c, cs, heq, isSolid_of_isIdentStart (Bool.and_eq_true_iff.mp h).1⟩
    · cases h
  read := readCode_word [] h hnext

def isMark (c : Char) : Bool :=
  isSolid c && !isIdentStart c && !isPrefixLetter c && !isQuoteMark c && !c.isDigit

theorem numberLength_mark {c : Char} (h : isMark c = true) {cs : List Char}
    (hdot : c = '.' → ∀ d ∈ cs.head?, d.isDigit = false) : numberLength (c :: cs) = 0 := by
  have digit : c.isDigit = false := by simp_all [isMark]
  have none_of {c : Char} (hc : c.isDigit = false) (cs : List Char) :
      decimalLength false (c :: cs) = 0 := by simp [decimalLength, hc]
  have plain : plainNumberLength (c :: cs) = 0 := by
    unfold plainNumberLength
    simp only [none_of digit, List.drop_zero]
    split
    · rename_i rest heq
      obtain ⟨rfl, rfl⟩ := List.cons.inj heq
      have fraction : decimalLength false cs = 0 := by
        cases cs with
        | nil => rfl
        | cons d cs => exact none_of (hdot rfl d rfl) cs
      simp [fraction]
    · simp
  have zero : c ≠ '0' := by
    rintro rfl
    cases digit
  unfold numberLength
  split
  · rename_i heq
    exact absurd (List.cons.inj heq).1 zero
  · exact plain

theorem fits_symbol {s : String} (c : Char) (cs : List Char) {next gap : List Char}
    (hs : s.toList = c :: cs)
    (hc : isMark c = true) (hdot : c = '.' → ∀ d ∈ (cs ++ next).head?, d.isDigit = false)
    (hsymbol : symbol? (s.toList ++ next) = some s) (hgap : ∀ c ∈ gap, isGapChar c = true) :
    (Piece.symbol gap s).Fits next where
  blank := hgap
  solid := ⟨c, cs, hs, by simp_all [isMark]⟩
  read afterWord := by
    change readCode [] afterWord (s.toList ++ next) = ⟨.symbol s, s.toList.length, []⟩
    have number : numberLength (s.toList ++ next) = 0 := by
      rw [hs, List.cons_append]
      exact numberLength_mark hc hdot
    simp only [isMark, isSolid, Bool.and_eq_true, Bool.not_eq_true', bne_iff_ne] at hc
    have word : wordLength (s.toList ++ next) = 0 := by simp [hs, wordLength, hc]
    have quote : quote? (s.toList ++ next) = none := by
      apply quote_eq_none
      simp [hs, hc]
    unfold readCode
    split
    · simp_all
    · simp_all
    · simp_all
    · simp_all
    · simp only [quote, word, number, hsymbol]
      rw [String.length_toList]
      rfl

section
variable {next gap : List Char} (hgap : ∀ c ∈ gap, isGapChar c = true)
include hgap

theorem fits_comma : (Piece.symbol gap ",").Fits next :=
  fits_symbol ',' [] rfl (by decide) (by simp) rfl hgap

theorem fits_opening : (Piece.symbol gap "(").Fits next :=
  fits_symbol '(' [] rfl (by decide) (by simp) rfl hgap

theorem fits_closing : (Piece.symbol gap ")").Fits next :=
  fits_symbol ')' [] rfl (by decide) (by simp) rfl hgap

/-- A star at the end of a line. -/
theorem fits_star : (Piece.symbol gap "*").Fits ('\n' :: next) :=
  fits_symbol '*' [] rfl (by decide) (by simp) rfl hgap

theorem fits_ellipsis : (Piece.symbol gap "...").Fits next :=
  fits_symbol '.' ['.', '.'] rfl (by decide) (by simp) rfl hgap

theorem fits_dot (hdigit : ∀ d ∈ next.head?, d.isDigit = false)
    (hdots : ∀ rest, next ≠ '.' :: '.' :: rest) : (Piece.symbol gap ".").Fits next := by
  refine fits_symbol '.' [] rfl (by decide) (fun _ => hdigit) ?_ hgap
  cases next with
  | nil => rfl
  | cons d next =>
    by_cases hd : d = '.'
    · subst hd
      cases next with
      | nil => rfl
      | cons e next =>
        have he : e ≠ '.' := fun heq => hdots next (by rw [heq])
        simp [symbol?, symbols, List.isPrefixOf, he.symm]
    · simp [symbol?, symbols, List.isPrefixOf, Ne.symm hd]

end

end RepoAtlas.Python
