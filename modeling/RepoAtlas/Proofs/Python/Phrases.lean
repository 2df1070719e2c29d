import RepoAtlas.Proofs.Python.Headers
import RepoAtlas.Proofs.Python.Quotes

/-!
Values in headers: words, numbers and literals, dotted names, lists, tuples, parentheses, calls and
subscripts, with signs before them, operators between them and anything that may stand between their
tokens.
-/
namespace RepoAtlas.Python
open RepoAtlas.Text

namespace Written

/-! Brackets and what they hold. -/

inductive Bracket where
  | round
  | square
  deriving DecidableEq, Repr

namespace Bracket

def opening : Bracket → String
  | .round => "("
  | .square => "["

def closing : Bracket → String
  | .round => ")"
  | .square => "]"

theorem opening_mem (b : Bracket) : b.opening ∈ Spelling.plainSymbols := by
  cases b <;> decide

theorem closing_mem (b : Bracket) : b.closing ∈ Spelling.plainSymbols := by
  cases b <;> decide

end Bracket

/-- What comes after the first item in brackets. -/
inductive Following (α : Type) where
  | close (gap : Filler)
  | comma (gap closing : Filler)
  | more (gap : Filler) (next : α) (others : Following α)

section
variable {α : Type} (f : α → List Printed)

def Following.items : Following α → List α
  | .more _ next others => next :: others.items
  | _ => []

def Following.pieces (b : Bracket) : Following α → List Printed
  | .close gap => [sign gap b.closing b.closing_mem]
  | .comma gap closing => [sign gap "," comma_mem, sign closing b.closing b.closing_mem]
  | .more gap next others => sign gap "," comma_mem :: (f next ++ others.pieces b)

def enclosed (b : Bracket) (gap : Filler) (first : α) (others : Following α) : List Printed :=
  sign gap b.opening b.opening_mem :: (f first ++ others.pieces f b)

variable {f}

theorem Following.coded (b : Bracket) (l : Following α) (each : ∀ a ∈ l.items, Coded (f a)) :
    Coded (l.pieces f b) := by
  induction l with
  | close gap => exact List.forall_mem_singleton.mpr rfl
  | comma gap closing =>
    exact List.forall_mem_cons.mpr ⟨rfl, List.forall_mem_singleton.mpr rfl⟩
  | more gap next others ih =>
    obtain ⟨first, each⟩ := List.forall_mem_cons.mp each
    exact List.forall_mem_cons.mpr ⟨rfl, List.forall_mem_append.mpr ⟨first, ih each⟩⟩

theorem coded_enclosed (b : Bracket) (gap : Filler) {first : α} {others : Following α}
    (coded : Coded (f first)) (each : ∀ a ∈ others.items, Coded (f a)) :
    Coded (enclosed f b gap first others) :=
  List.forall_mem_cons.mpr ⟨rfl, List.forall_mem_append.mpr ⟨coded, others.coded b each⟩⟩

theorem Following.ends (b : Bracket) (l : Following α) {next : List Char} :
    Ends (textOf (l.pieces f b) ++ next) := by
  cases l with
  | close gap => exact ends_sign (by cases b <;> decide)
  | comma gap closing => exact ends_sign (by decide)
  | more gap first others => exact ends_sign (by decide)

/-- Tokens that fit before everything that ends a word or a number. -/
def FitsBefore (ps : List Printed) : Prop := ∀ {next : List Char}, Ends next → Fitting [] ps next

theorem Following.fitting (b : Bracket) (l : Following α) (each : ∀ a ∈ l.items, FitsBefore (f a))
    {next : List Char} : Fitting [] (l.pieces f b) next := by
  induction l with
  | close gap => exact fitting_mark (by cases b <;> decide) rfl
  | comma gap closing =>
    have closed : Fitting [] [sign closing b.closing b.closing_mem] next :=
      fitting_mark (by cases b <;> decide) rfl
    exact fitting_mark (by decide) closed
  | more gap first others ih =>
    obtain ⟨fits, each⟩ := List.forall_mem_cons.mp each
    exact fitting_mark (by decide) (fitting_append (fits (others.ends b)) (ih each))

theorem fitting_enclosed (b : Bracket) (gap : Filler) {first : α} {others : Following α}
    (fits : FitsBefore (f first)) (each : ∀ a ∈ others.items, FitsBefore (f a)) {next : List Char} :
    Fitting [] (enclosed f b gap first others) next :=
  fitting_mark (by cases b <;> decide)
    (fitting_append (fits (others.ends b)) (others.fitting b each))

end

/-! Values. -/

inductive Term where
  | word (text : String) (spelled : isIdentifier text = true)
    (free : text ∉ keywords ∨ text ∈ constants)
  | number (n : Numeral)

namespace Term

def text : Term → String
  | .word text _ _ => text
  | .number n => String.ofList n.chars

def spelling : Term → Spelling
  | .word text spelled _ => .word text spelled
  | .number n => .number n

def piece (gap : Filler) (t : Term) : Printed := ⟨gap, t.spelling⟩

end Term

structure Member where
  dot : Filler
  gap : Filler
  name : Name

def Member.pieces (m : Member) : List Printed :=
  [sign m.dot ".", word m.gap m.name.text m.name.spelled]

structure Sign where
  gap : Filler
  symbol : String
  known : symbol ∈ signSymbols

structure Operator where
  gap : Filler
  symbol : String
  known : symbol ∈ binarySymbols

theorem Sign.mem (s : Sign) : s.symbol ∈ Spelling.plainSymbols := by
  have each : ∀ symbol ∈ signSymbols, symbol ∈ Spelling.plainSymbols := by decide
  exact each s.symbol s.known

theorem Operator.mem (o : Operator) : o.symbol ∈ Spelling.plainSymbols :=
  List.mem_append_right _ o.known

def Sign.piece (s : Sign) : Printed := sign s.gap s.symbol s.mem

def Operator.piece (o : Operator) : Printed := sign o.gap o.symbol o.mem

mutual

/-- Brackets hold one value or more; behind another operand they are a call or a subscript. -/
inductive Operand where
  | term (gap : Filler) (t : Term)
  | text (gap : Filler) (l : Literal)
  | dotted (gap : Filler) (name : Name) (members : List Member)
  | display (b : Bracket) (gap : Filler) (first : Phrase) (others : Phrases)
  | applied (b : Bracket) (object : Operand) (opening : Filler) (first : Phrase) (others : Phrases)

/-- A value: operands, each with its signs, and an operator between one and the next. -/
inductive Phrase where
  | last (signs : List Sign) (operand : Operand)
  | more (signs : List Sign) (operand : Operand) (operator : Operator) (others : Phrase)

inductive Phrases where
  | close (gap : Filler)
  | comma (gap closing : Filler)
  | more (gap : Filler) (next : Phrase) (others : Phrases)

end

def Phrases.following : Phrases → Following Phrase
  | .close gap => .close gap
  | .comma gap closing => .comma gap closing
  | .more gap next others => .more gap next others.following

mutual

def Operand.pieces : Operand → List Printed
  | .term gap t => [t.piece gap]
  | .text gap l => [⟨gap, l.spelling⟩]
  | .dotted gap name members =>
    word gap name.text name.spelled :: members.flatMap Member.pieces
  | .display b gap first others =>
    sign gap b.opening b.opening_mem :: (first.pieces ++ others.pieces b)
  | .applied b object opening first others =>
    object.pieces ++ sign opening b.opening b.opening_mem :: (first.pieces ++ others.pieces b)

def Phrase.pieces : Phrase → List Printed
  | .last signs operand => signs.map Sign.piece ++ operand.pieces
  | .more signs operand operator others =>
    signs.map Sign.piece ++ (operand.pieces ++ operator.piece :: others.pieces)

def Phrases.pieces (b : Bracket) : Phrases → List Printed
  | .close gap => [sign gap b.closing b.closing_mem]
  | .comma gap closing => [sign gap "," comma_mem, sign closing b.closing b.closing_mem]
  | .more gap next others => sign gap "," comma_mem :: (next.pieces ++ others.pieces b)

end

theorem Phrases.pieces_eq (b : Bracket) :
    ∀ ps : Phrases, ps.pieces b = ps.following.pieces Phrase.pieces b
  | .close gap => by rw [pieces, following, Following.pieces]
  | .comma gap closing => by rw [pieces, following, Following.pieces]
  | .more gap next others => by rw [pieces, following, Following.pieces, others.pieces_eq]

theorem Operand.pieces_display (b : Bracket) (gap : Filler) (first : Phrase) (others : Phrases) :
    (display b gap first others).pieces = enclosed Phrase.pieces b gap first others.following := by
  rw [pieces, others.pieces_eq, enclosed]

theorem Operand.pieces_applied (b : Bracket) (object : Operand) (opening : Filler) (first : Phrase)
    (others : Phrases) : (applied b object opening first others).pieces =
      object.pieces ++ enclosed Phrase.pieces b opening first others.following := by
  rw [pieces, others.pieces_eq, enclosed]

/-! How values start. -/

theorem Term.isOpener (t : Term) : IsOpener t.spelling.token := by
  cases t with
  | word text spelled free => exact .inl ⟨text, rfl, free⟩
  | number n => exact .inr (.inr List.mem_cons_self)

theorem Name.isOpener (name : Name) : IsOpener (.word name.text) :=
  .inl ⟨name.text, rfl, .inl name.ordinary⟩

theorem Bracket.isOpener (b : Bracket) : IsOpener (.symbol b.opening) := by
  cases b
  · exact .inr (.inr (by simp [opening]))
  · exact .inr (.inr (by simp [opening]))

theorem Term.plain (t : Term) : Plain t.spelling.chars := by
  cases t with
  | word text spelled free => exact plain_identifier spelled
  | number n =>
    intro c hc
    have digit := n.isNumberChar_of_mem (List.mem_of_mem_head? hc)
    simp only [List.mem_cons, List.not_mem_nil, or_false, not_or]
    refine ⟨?_, ?_, ?_, ?_, ?_⟩ <;>
    · rintro rfl
      exact absurd digit (by decide)

theorem Literal.plain (l : Literal) : Plain l.spelling.chars := by
  intro c hc
  change c ∈ (l.letters ++ (l.style.chars ++ (l.body ++ l.style.chars))).head? at hc
  cases letters : l.letters with
  | nil =>
    obtain ⟨cs, heq⟩ := l.style.chars_cons
    rw [letters, heq] at hc
    obtain rfl : l.style.mark = c := Option.some.inj hc
    rcases l.style.mark_cases with h | h <;> rw [h] <;> decide
  | cons d ds =>
    rw [letters] at hc
    obtain rfl : d = c := Option.some.inj hc
    have letter := l.known d (by simp [letters])
    rcases isPrefixLetter_cases letter with h | h | h | h | h | h | h | h <;> rw [h] <;> decide

theorem Bracket.plain (b : Bracket) : Plain b.opening.toList := by
  cases b <;> simp [opening, Plain]

theorem Sign.plain (s : Sign) : Plain s.piece.spelling.chars := by
  have known := s.known
  change Plain s.symbol.toList
  simp only [signSymbols, List.mem_cons, List.not_mem_nil, or_false] at known
  rcases known with known | known | known <;> simp [known, Plain]

theorem Sign.isStart (s : Sign) : IsStart s.piece.token := .inr ⟨s.symbol, s.known, rfl⟩

theorem Operator.not_gives (o : Operator) : o.piece.token ∉ [.symbol "=", .symbol ":="] := by
  have each : ∀ symbol ∈ binarySymbols, Token.symbol symbol ∉ [.symbol "=", .symbol ":="] := by
    decide
  exact each o.symbol o.known

theorem opens_signs (signs : List Sign) {ps : List Printed} (h : Opens ps) :
    Opens (signs.map Sign.piece ++ ps) := by
  induction signs with
  | nil => exact h
  | cons s signs ih =>
    obtain ⟨q, rest, heq, start, _⟩ := ih
    refine ⟨s.piece, q :: rest, congrArg (s.piece :: ·) heq, s.isStart, s.plain, ?_⟩
    intro q' hq
    obtain rfl : q = q' := Option.some.inj hq
    simp [start.ne_symbol, signSymbols]

mutual

theorem Operand.opens : ∀ o : Operand, OpensAs IsOpener o.pieces
  | .term gap t => ⟨t.piece gap, [], by rw [Operand.pieces], t.isOpener, t.plain, by simp⟩
  | .text gap l =>
    ⟨⟨gap, l.spelling⟩, [], by rw [Operand.pieces], .inr (.inl ⟨_, rfl⟩), l.plain, by simp⟩
  | .dotted gap name members => by
    refine ⟨word gap name.text name.spelled, _, by rw [Operand.pieces], name.isOpener,
      plain_identifier name.spelled, ?_⟩
    cases members with
    | nil => simp
    | cons m members => simp [Member.pieces]
  | .display b gap first others => by
    obtain ⟨q, rest, heq, start, _⟩ := first.opens
    refine ⟨sign gap b.opening b.opening_mem, _, by rw [Operand.pieces], b.isOpener, b.plain, ?_⟩
    rw [heq]
    intro q' hq
    obtain rfl : q = q' := Option.some.inj hq
    simp [start.ne_symbol, signSymbols]
  | .applied b object opening first others => by
    rw [Operand.pieces]
    exact object.opens.append (by cases b <;> simp [Bracket.opening]) _

theorem Phrase.opens : ∀ p : Phrase, Opens p.pieces
  | .last signs operand => by
    rw [Phrase.pieces]
    exact opens_signs signs operand.opens.opens
  | .more signs operand operator others => by
    rw [Phrase.pieces]
    exact opens_signs signs (operand.opens.append operator.not_gives _).opens

end

/-! Tokens of values are tokens in code. -/

theorem coded_members (members : List Member) : Coded (members.flatMap Member.pieces) := by
  intro p hp
  obtain ⟨m, _, hp⟩ := List.mem_flatMap.mp hp
  simp only [Member.pieces, List.mem_cons, List.not_mem_nil, or_false] at hp
  rcases hp with rfl | rfl <;> rfl

theorem coded_signs (signs : List Sign) : Coded (signs.map Sign.piece) := by
  intro p hp
  obtain ⟨s, _, rfl⟩ := List.mem_map.mp hp
  rfl

mutual

theorem Operand.coded : ∀ o : Operand, Coded o.pieces
  | .term gap t => by
    rw [Operand.pieces]
    refine List.forall_mem_singleton.mpr ?_
    cases t <;> rfl
  | .text gap l => by
    rw [Operand.pieces]
    exact List.forall_mem_singleton.mpr rfl
  | .dotted gap name members => by
    rw [Operand.pieces]
    exact List.forall_mem_cons.mpr ⟨rfl, coded_members members⟩
  | .display b gap first others => by
    rw [Operand.pieces_display]
    exact coded_enclosed b gap first.coded others.coded
  | .applied b object opening first others => by
    rw [Operand.pieces_applied]
    exact List.forall_mem_append.mpr ⟨object.coded,
      coded_enclosed b opening first.coded others.coded⟩

theorem Phrase.coded : ∀ p : Phrase, Coded p.pieces
  | .last signs operand => by
    rw [Phrase.pieces]
    exact List.forall_mem_append.mpr ⟨coded_signs signs, operand.coded⟩
  | .more signs operand operator others => by
    rw [Phrase.pieces]
    exact List.forall_mem_append.mpr ⟨coded_signs signs, List.forall_mem_append.mpr
      ⟨operand.coded, List.forall_mem_cons.mpr ⟨rfl, others.coded⟩⟩⟩

theorem Phrases.coded : ∀ ps : Phrases, ∀ p ∈ ps.following.items, Coded p.pieces
  | .close _ => List.forall_mem_nil _
  | .comma _ _ => List.forall_mem_nil _
  | .more _ next others => List.forall_mem_cons.mpr ⟨next.coded, others.coded⟩

end

/-! Tokens of values fit. -/

section
variable {next : List Char}

theorem stops_members (members : List Member) (stops : Stops next) :
    Stops (textOf (members.flatMap Member.pieces) ++ next) := by
  cases members with
  | nil => exact stops
  | cons m members =>
    rw [List.flatMap_cons, Member.pieces, List.cons_append, textOf_sign]
    refine head_filler (fun c white => ?_) (by decide) m.dot fun _ c hc => ?_
    · rcases isGapChar_iff.mp white with rfl | rfl | rfl | rfl <;> decide
    · obtain rfl : '.' = c := Option.some.inj hc
      decide

/-- A dot before a name. -/
theorem dot_reads (gap : Filler) (name : Name) (ps : List Printed) :
    (Spelling.symbol "." (by decide)).Reads [] []
      (textOf (word gap name.text name.spelled :: ps) ++ next) := by
  refine Spelling.symbol_reads _ ?_
  rw [textOf_word]
  refine head_filler (fun c white => ?_) (by decide) gap fun _ c hc => ?_
  · rcases isGapChar_iff.mp white with rfl | rfl | rfl | rfl <;> decide
  · obtain ⟨d, ds, heq, start⟩ := Spelling.isIdentifier_starts name.spelled
    rw [heq] at hc
    obtain rfl : d = c := Option.some.inj hc
    have digit := not_isDigit_of_isIdentStart start
    have dot : d ≠ '.' := by
      rintro rfl
      exact absurd start (by decide)
    simp [Spelling.runsInto, digit, dot]

theorem fitting_members (members : List Member) (stops : Stops next) :
    Fitting [] (members.flatMap Member.pieces) next := by
  induction members with
  | nil => rfl
  | cons m members ih =>
    have named : Fitting [] (word m.gap m.name.text m.name.spelled ::
        members.flatMap Member.pieces) next :=
      fitting_cons rfl (Spelling.word_reads m.name.spelled (stops_members members stops)) ih
    exact fitting_cons rfl (dot_reads m.gap m.name _) named

theorem fitting_signs (signs : List Sign) {ps : List Printed} (opens : Opens ps)
    (h : Fitting [] ps next) : Fitting [] (signs.map Sign.piece ++ ps) next := by
  have dotless : ∀ symbol ∈ signSymbols, symbol ≠ "." := by decide
  induction signs with
  | nil => exact h
  | cons s signs ih =>
    exact fitting_sign (dotless s.symbol s.known) (opens_signs signs opens).plain ih

theorem fitting_operator (operator : Operator) {ps : List Printed} (opens : Opens ps)
    (h : Fitting [] ps next) : Fitting [] (operator.piece :: ps) next := by
  have dotless : ∀ symbol ∈ binarySymbols, symbol ≠ "." := by decide
  exact fitting_sign (dotless operator.symbol operator.known) opens.plain h

theorem Operator.ends (operator : Operator) (ps : List Printed) :
    Ends (textOf (operator.piece :: ps) ++ next) :=
  ends_sign (List.mem_append_right _ operator.known)

end

theorem Term.fits (gap : Filler) (t : Term) : FitsBefore [t.piece gap] := by
  intro next ends
  cases t with
  | word text spelled free => exact fitting_cons rfl (Spelling.word_reads spelled ends.stops) rfl
  | number n => exact fitting_cons rfl (Spelling.number_reads n ends.endsNumber) rfl

theorem Literal.fits (gap : Filler) (l : Literal) : FitsBefore [⟨gap, l.spelling⟩] := by
  intro next ends
  refine fitting_cons rfl (l.reads fun _ head => ?_) rfl
  have other := (ends.stops _ head).2
  rw [l.style.isQuoteMark_mark] at other
  cases other

mutual

theorem Operand.fits : ∀ o : Operand, FitsBefore o.pieces
  | .term gap t => by
    rw [Operand.pieces]
    exact t.fits gap
  | .text gap l => by
    rw [Operand.pieces]
    exact l.fits gap
  | .dotted gap name members => by
    rw [Operand.pieces]
    intro ends
    exact fitting_cons rfl (Spelling.word_reads name.spelled (stops_members members ends.stops))
      (fitting_members members ends.stops)
  | .display b gap first others => by
    rw [Operand.pieces_display]
    exact fun _ => fitting_enclosed b gap first.fits others.fits
  | .applied b object opening first others => by
    rw [Operand.pieces_applied]
    exact fun _ => fitting_append (object.fits (ends_sign (by cases b <;> decide)))
      (fitting_enclosed b opening first.fits others.fits)

theorem Phrase.fits : ∀ p : Phrase, FitsBefore p.pieces
  | .last signs operand => by
    rw [Phrase.pieces]
    exact fun ends => fitting_signs signs operand.opens.opens (operand.fits ends)
  | .more signs operand operator others => by
    rw [Phrase.pieces]
    intro ends
    have rest : Fitting [] (operator.piece :: others.pieces) _ :=
      fitting_operator operator others.opens (others.fits ends)
    exact fitting_signs signs (operand.opens.append operator.not_gives _).opens
      (fitting_append (operand.fits (operator.ends _)) rest)

theorem Phrases.fits : ∀ ps : Phrases, ∀ p ∈ ps.following.items, FitsBefore p.pieces
  | .close _ => List.forall_mem_nil _
  | .comma _ _ => List.forall_mem_nil _
  | .more _ next others => List.forall_mem_cons.mpr ⟨next.fits, others.fits⟩

end

end Written

end RepoAtlas.Python
