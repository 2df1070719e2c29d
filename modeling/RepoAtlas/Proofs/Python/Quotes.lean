import RepoAtlas.Proofs.Python.Layout
import RepoAtlas.Python.Literal

/-!
String literals as they are written: letters, a quote, a text and the quote again. Escaping the
special characters of a text gives a literal of that value, and the literal ends with its own quote.
-/
namespace RepoAtlas.Python
open RepoAtlas.Text

/-! Escapes. -/

def escapeChar : Char → List Char
  | '\\' => ['\\', '\\']
  | '\x27' => ['\\', '\x27']
  | '"' => ['\\', '"']
  | '\n' => ['\\', 'n']
  | '\r' => ['\\', 'r']
  | '\t' => ['\\', 't']
  | '\x07' => ['\\', 'a']
  | '\x08' => ['\\', 'b']
  | '\x0c' => ['\\', 'f']
  | '\x0b' => ['\\', 'v']
  | c => [c]

def escape (text : List Char) : List Char := text.flatMap escapeChar

/-- A character is written as a backslash and what stands for it, or as itself. Then it is no
character that means something else in a literal. -/
theorem escapeChar_cases (c : Char) :
    (∃ l, escapeChar c = ['\\', l] ∧ escapes.lookup l = some c) ∨
      escapeChar c = [c] ∧ c ∉ ['\\', '\x27', '"', '\n'] := by
  fun_cases escapeChar c with
  | case11 c backslash apostrophe quote lineBreak =>
    refine .inr ⟨rfl, ?_⟩
    simp only [List.mem_cons, List.not_mem_nil, or_false, not_or]
    exact ⟨backslash, apostrophe, quote, lineBreak⟩
  | _ => exact .inl ⟨_, rfl, rfl⟩

theorem unescape_lookup {l c : Char} (h : escapes.lookup l = some c) (cs : List Char) :
    unescape ('\\' :: l :: cs) = c :: unescape cs := by
  rw [unescape]
  · simp only [h]
  · rintro rfl
    cases h
  · rintro rest rfl
    cases h

theorem unescape_plain {c : Char} (h : c ≠ '\\') (cs : List Char) :
    unescape (c :: cs) = c :: unescape cs := by
  rw [unescape] <;> simp [h]

theorem unescape_escape (text : List Char) : unescape (escape text) = text := by
  induction text with
  | nil => rfl
  | cons c text ih =>
    change unescape (escapeChar c ++ escape text) = c :: text
    rcases escapeChar_cases c with ⟨l, written, stands⟩ | ⟨written, plain⟩
    · rw [written]
      change unescape ('\\' :: l :: escape text) = _
      rw [unescape_lookup stands, ih]
    · rw [written, List.singleton_append, unescape_plain (by simp_all), ih]

/-! Quotes. -/

namespace Written

structure Style where
  double : Bool
  triple : Bool
  deriving DecidableEq, Repr

/-- The letters that a literal can have. -/
theorem isPrefixLetter_cases {c : Char} (h : isPrefixLetter c = true) :
    c = 'f' ∨ c = 'F' ∨ c = 'r' ∨ c = 'R' ∨ c = 'b' ∨ c = 'B' ∨ c = 'u' ∨ c = 'U' := by
  simpa [isPrefixLetter] using h

namespace Style

def mark (s : Style) : Char := if s.double then '"' else '\x27'

def chars (s : Style) : List Char := if s.triple then [s.mark, s.mark, s.mark] else [s.mark]

def quote (s : Style) (letters : List Char) : Quote where
  mark := s.mark
  triple := s.triple
  raw := letters.any fun c => c == 'r' || c == 'R'
  bytes := letters.any fun c => c == 'b' || c == 'B'
  format := letters.any fun c => c == 'f' || c == 'F'

/-- A text behind the quote does not make it a longer one. -/
def Apart (s : Style) (rest : List Char) : Prop :=
  s.triple = false → rest.head? = some s.mark → rest.tail.head? ≠ some s.mark

variable {s : Style}

theorem mark_cases (s : Style) : s.mark = '\x27' ∨ s.mark = '"' := by
  cases h : s.double <;> simp [mark, h]

theorem not_letter (s : Style) : isPrefixLetter s.mark = false := by
  rcases s.mark_cases with h | h <;> rw [h] <;> decide

theorem isQuoteMark_mark (s : Style) : isQuoteMark s.mark = true := by
  rcases s.mark_cases with h | h <;> rw [h] <;> decide

theorem chars_cons (s : Style) : ∃ cs, s.chars = s.mark :: cs := by
  cases h : s.triple <;> simp [chars, h]

/-- The letters before a quote end there. -/
theorem takeWhile_letters {letters : List Char} (known : ∀ c ∈ letters, isPrefixLetter c = true)
    (rest : List Char) : (letters ++ (s.chars ++ rest)).takeWhile isPrefixLetter = letters := by
  obtain ⟨cs, heq⟩ := s.chars_cons
  rw [List.takeWhile_append_of_pos known, heq, List.cons_append,
    List.takeWhile_cons_of_neg (by simp [s.not_letter]), List.append_nil]

theorem quote_eq {letters : List Char} (known : ∀ c ∈ letters, isPrefixLetter c = true)
    {rest : List Char} (apart : s.Apart rest) :
    quote? (letters ++ (s.chars ++ rest)) =
      some (s.quote letters, letters.length + s.chars.length) := by
  have tick : (s.mark != '`') = true := by
    rcases s.mark_cases with h | h <;> rw [h] <;> decide
  simp only [quote?, takeWhile_letters known, List.drop_left]
  cases triple : s.triple with
  | true => simp [chars, quote, triple, s.isQuoteMark_mark, tick]
  | false =>
    have apart := apart triple
    rcases rest with _ | ⟨b, _ | ⟨c, rest⟩⟩
    · simp [chars, quote, triple, s.isQuoteMark_mark]
    · simp [chars, quote, triple, s.isQuoteMark_mark]
    · have single : (s.mark == b && b == c) = false := by
        by_contra same
        simp only [Bool.not_eq_false, Bool.and_eq_true, beq_iff_eq] at same
        obtain ⟨rfl, rfl⟩ := same
        exact apart rfl rfl
      simp [chars, quote, triple, s.isQuoteMark_mark, tick, single]

/-! Values. -/

theorem isLiteralLetter_eq : isLiteralLetter = isPrefixLetter := by
  funext c
  rw [Bool.eq_iff_iff]
  simp [isLiteralLetter, isPrefixLetter]
  tauto

/-- A small letter is among the letters of a literal in small or in capital. -/
theorem contains_toLower {letters : List Char} (known : ∀ c ∈ letters, isPrefixLetter c = true)
    (small capital : Char) (pair : (small, capital) ∈ [('r', 'R'), ('b', 'B'), ('f', 'F')]) :
    (letters.map Char.toLower).contains small =
      letters.any fun c => c == small || c == capital := by
  have each {c : Char} (hc : isPrefixLetter c = true) :
      (small == c.toLower) = (c == small || c == capital) := by
    simp only [List.mem_cons, List.not_mem_nil, or_false, Prod.mk.injEq] at pair
    rcases pair with ⟨rfl, rfl⟩ | ⟨rfl, rfl⟩ | ⟨rfl, rfl⟩ <;>
      rcases isPrefixLetter_cases hc with rfl | rfl | rfl | rfl | rfl | rfl | rfl | rfl <;> rfl
  rw [List.contains_eq_any_beq, List.any_map, Bool.eq_iff_iff]
  simp only [List.any_eq_true, Function.comp_apply]
  refine exists_congr fun c => and_congr_right fun hc => ?_
  rw [each (known c hc)]

theorem isTripleQuoted_eq {body : List Char} (apart : s.triple = false → body.head? ≠ some s.mark) :
    isTripleQuoted (s.chars ++ (body ++ s.chars)) = s.triple := by
  have quoted : (s.mark == '"' || s.mark == '\x27') = true := by
    rcases s.mark_cases with h | h <;> rw [h] <;> decide
  cases triple : s.triple with
  | true => simpa [chars, triple, isTripleQuoted] using quoted
  | false =>
    have apart := apart triple
    rcases body with _ | ⟨b, body⟩
    · simp [chars, triple, isTripleQuoted]
    · have other : (s.mark == b) = false :=
        beq_false_of_ne fun same => apart (congrArg some same.symm)
      rcases body with _ | ⟨c, body⟩ <;> simp [chars, triple, isTripleQuoted, other]

/-- The value of a literal: bytes and texts with replacement fields have none, raw texts are as they
are written, and all others are read with their escapes. -/
theorem literalValue_eq {letters body : List Char} (known : ∀ c ∈ letters, isPrefixLetter c = true)
    (apart : s.triple = false → body.head? ≠ some s.mark) :
    literalValue (letters ++ (s.chars ++ (body ++ s.chars))) =
      if (s.quote letters).format || (s.quote letters).bytes then none
      else some (if (s.quote letters).raw then body else unescape body) := by
  have width : (if s.triple then 3 else 1) = s.chars.length := by
    cases triple : s.triple <;> simp [chars, triple]
  have inner : (s.chars ++ (body ++ s.chars)).length - s.chars.length =
      (s.chars ++ body).length := by
    simp [Nat.add_comm]
  simp only [literalValue, isLiteralLetter_eq, takeWhile_letters known, List.length_map,
    List.drop_left, isTripleQuoted_eq apart, width, inner]
  rw [contains_toLower known 'f' 'F' (by simp),
    contains_toLower known 'b' 'B' (by simp),
    contains_toLower known 'r' 'R' (by simp), ← List.append_assoc s.chars,
    List.take_left, List.drop_left]
  rfl

/-- Bytes and literals with replacement fields have no value, whatever is behind their quote. -/
theorem literalValue_none {letters : List Char} (known : ∀ c ∈ letters, isPrefixLetter c = true)
    (other : (s.quote letters).format = true ∨ (s.quote letters).bytes = true) (rest : List Char) :
    literalValue (letters ++ (s.chars ++ rest)) = none := by
  simp only [literalValue, isLiteralLetter_eq, takeWhile_letters known]
  rw [contains_toLower known 'f' 'F' (by simp), contains_toLower known 'b' 'B' (by simp)]
  exact if_pos (Bool.or_eq_true_iff.mpr other)

/-- The characters of a raw literal are its value. -/
theorem literalValue_raw {letters body : List Char}
    (among : ∀ c ∈ letters, c ∈ ['r', 'R', 'u', 'U']) (raw : ∃ c ∈ letters, c ∈ ['r', 'R'])
    (apart : s.triple = false → body.head? ≠ some s.mark) :
    literalValue (letters ++ (s.chars ++ (body ++ s.chars))) = some body := by
  have each : ∀ c ∈ ['r', 'R', 'u', 'U'], isPrefixLetter c = true ∧ (c == 'f' || c == 'F') = false ∧
      (c == 'b' || c == 'B') = false := by simp [isPrefixLetter]
  have format : (s.quote letters).format = false :=
    List.any_eq_false.mpr fun c hc => by simp [(each c (among c hc)).2.1]
  have bytes : (s.quote letters).bytes = false :=
    List.any_eq_false.mpr fun c hc => by simp [(each c (among c hc)).2.2]
  have marked : (s.quote letters).raw = true := by
    obtain ⟨c, hc, raw⟩ := raw
    exact List.any_eq_true.mpr ⟨c, hc, by simpa using raw⟩
  rw [literalValue_eq (fun c hc => (each c (among c hc)).1) apart, format, bytes, marked]
  rfl

/-- The letters that change nothing about a literal. -/
theorem plain_letters {letters : List Char} (h : letters ∈ [[], ['u'], ['U']]) (s : Style) :
    (∀ c ∈ letters, isPrefixLetter c = true) ∧ s.quote letters =
      ⟨s.mark, s.triple, false, false, false⟩ := by
  simp only [List.mem_cons, List.not_mem_nil, or_false] at h
  rcases h with rfl | rfl | rfl <;> exact ⟨by simp [isPrefixLetter], rfl⟩

/-! The end of a literal. -/

/-- A literal with this text ends with its own quote, whatever comes behind it. -/
def Closes (s : Style) (letters body : List Char) : Prop :=
  ∀ n next, scanText (s.quote letters) true 0 n (body ++ (s.chars ++ next)) =
    (.closed, n + (body ++ s.chars).length)

theorem mark_ne (s : Style) : s.mark ≠ '\\' := by
  rcases s.mark_cases with h | h <;> rw [h] <;> decide

theorem scanText_chars (letters : List Char) (fresh : Bool) (n : Nat) (next : List Char) :
    scanText (s.quote letters) fresh 0 n (s.chars ++ next) = (.closed, n + s.chars.length) := by
  cases triple : s.triple <;> simp [chars, quote, triple, scanText, s.mark_ne]

theorem scanText_plain {letters : List Char} {c : Char} (plain : c ∉ ['\\', '\x27', '"', '\n'])
    (braces : (s.quote letters).format = true → c ∉ ['\x7b', '\x7d']) (fresh : Bool) (n : Nat)
    (cs : List Char) :
    scanText (s.quote letters) fresh 0 n (c :: cs) = scanText (s.quote letters) false 0
      (n + 1) cs := by
  simp only [List.mem_cons, List.not_mem_nil, or_false, not_or] at plain braces
  have other : c ≠ s.mark := by
    rcases s.mark_cases with h | h <;> simp [h, plain]
  have mark : (s.quote letters).mark = s.mark := rfl
  rw [scanText]
  cases format : (s.quote letters).format with
  | false => simp [plain, mark, other]
  | true => simp [plain, mark, other, braces format]

theorem scanText_pair {letters : List Char} (raw : (s.quote letters).raw = false) {l c : Char}
    (h : escapes.lookup l = some c) (fresh : Bool) (n : Nat) (cs : List Char) :
    scanText (s.quote letters) fresh 0 n ('\\' :: l :: cs) =
      scanText (s.quote letters) true 0 (n + 2) cs := by
  have known : escapeLength (l :: cs) = 1 ∧ isTextEscape (l :: cs) = false := by
    obtain ⟨before, after, split, _⟩ := List.lookup_eq_some_iff.mp h
    have mem : (l, c) ∈ escapes := by simp [split]
    simp only [escapes, List.mem_cons, List.not_mem_nil, or_false, Prod.mk.injEq] at mem
    rcases mem with h | h | h | h | h | h | h | h | h | h <;> rw [h.1] <;> exact ⟨rfl, rfl⟩
  rw [scanText]
  simp [raw, known, scanText]

/-- An escaped text has nothing in it that ends a literal. -/
theorem closes_escape {letters : List Char} (raw : (s.quote letters).raw = false)
    (format : (s.quote letters).format = false) (text : List Char) :
    s.Closes letters (escape text) := by
  -- The flag that tolerates a line break is set by an escape and cleared by any other character.
  have scanned (fresh : Bool) (n : Nat) (next : List Char) :
      scanText (s.quote letters) fresh 0 n (escape text ++ (s.chars ++ next)) =
        (.closed, n + (escape text ++ s.chars).length) := by
    induction text generalizing fresh n with
    | nil => exact scanText_chars letters fresh n next
    | cons c text ih =>
      have split : escape (c :: text) = escapeChar c ++ escape text := List.flatMap_cons
      rw [split, List.append_assoc, List.append_assoc, List.length_append, ← Nat.add_assoc]
      rcases escapeChar_cases c with ⟨l, written, stands⟩ | ⟨written, plain⟩
      · rw [written]
        exact (scanText_pair raw stands fresh n _).trans (ih true (n + 2))
      · rw [written]
        exact (scanText_plain plain (by simp [format]) fresh n _).trans (ih false (n + 1))
  exact scanned true

/-- The text of a literal with one mark does not start with the mark. -/
theorem Closes.head_ne {letters body : List Char} (h : s.Closes letters body)
    (single : s.triple = false) :
    body.head? ≠ some s.mark := by
  intro head
  obtain ⟨body, rfl⟩ : ∃ cs, body = s.mark :: cs := by
    cases body with
    | nil => cases head
    | cons c cs => exact ⟨cs, by rw [Option.some.inj head]⟩
  have ends := h 0 []
  simp [scanText, quote, single, s.mark_ne, chars] at ends

/-- An escaped text is the value of its literal. -/
theorem literalValue_escape {letters : List Char} (h : letters ∈ [[], ['u'], ['U']]) (s : Style)
    (text : List Char) :
    literalValue (letters ++ (s.chars ++ (escape text ++ s.chars))) = some text := by
  obtain ⟨known, quote⟩ := plain_letters h s
  have closes : s.Closes letters (escape text) := closes_escape (by rw [quote]) (by rw [quote]) text
  rw [literalValue_eq known closes.head_ne, quote]
  exact congrArg some (unescape_escape text)

end Style

/-! Literals. -/

/-- A literal without replacement fields. Any text may stand between its quotes that does not end it
earlier. -/
structure Literal where
  letters : List Char
  style : Style
  body : List Char
  known : ∀ c ∈ letters, isPrefixLetter c = true
  simple : (style.quote letters).format = false
  closes : style.Closes letters body
  printed : '\x00' ∉ body

namespace Literal

def chars (l : Literal) : List Char := l.letters ++ (l.style.chars ++ (l.body ++ l.style.chars))

/-- A literal that the mark after it would turn into another one: two marks with nothing between
them. -/
def hollow (l : Literal) : Bool := !l.style.triple && l.body.isEmpty

/-- What the literal stands for; bytes stand for no text. -/
def value (l : Literal) : Option (List Char) :=
  if (l.style.quote l.letters).bytes then none
  else some (if (l.style.quote l.letters).raw then l.body else unescape l.body)

def escaped (letters : List Char) (hl : letters ∈ [[], ['u'], ['U']]) (style : Style)
    (text : List Char) (printed : '\x00' ∉ text) : Literal where
  letters := letters
  style := style
  body := escape text
  known := (Style.plain_letters hl style).1
  simple := by rw [(Style.plain_letters hl style).2]
  closes := Style.closes_escape (by rw [(Style.plain_letters hl style).2])
    (by rw [(Style.plain_letters hl style).2]) text
  printed := by
    intro mem
    obtain ⟨c, hc, mem⟩ := List.mem_flatMap.mp mem
    rcases escapeChar_cases c with ⟨l, written, stands⟩ | ⟨written, _⟩
    · rw [written] at mem
      simp only [List.mem_cons, List.not_mem_nil, or_false] at mem
      rcases mem with h | h
      · cases h
      · rw [← h] at stands
        cases stands
    · rw [written, List.mem_singleton] at mem
      exact printed (mem ▸ hc)

theorem value_escaped (letters : List Char) (hl : letters ∈ [[], ['u'], ['U']]) (style : Style)
    (text : List Char) (printed : '\x00' ∉ text) :
    (escaped letters hl style text printed).value = some text := by
  simp [value, escaped, Style.plain_letters hl style, unescape_escape]

end Literal

/-! Reading a literal. -/

section
variable {s : Style} {letters : List Char} (known : ∀ c ∈ letters, isPrefixLetter c = true)
include known

/-- A literal starts with a letter or with its mark. -/
theorem Style.starts (rest : List Char) :
    ∃ c cs, letters ++ (s.chars ++ rest) = c :: cs ∧ isSolid c = true ∧
    isQuoteMark c = letters.isEmpty := by
  cases letters with
  | nil =>
    obtain ⟨cs, heq⟩ := s.chars_cons
    refine ⟨s.mark, cs ++ rest, by rw [heq]; rfl, ?_, s.isQuoteMark_mark⟩
    rcases s.mark_cases with h | h <;> rw [h] <;> decide
  | cons c letters =>
    have letter : isSolid c = true ∧ isQuoteMark c = false := by
      rcases isPrefixLetter_cases
        (known c List.mem_cons_self) with h | h | h | h | h | h | h | h <;>
        rw [h] <;> decide
    exact ⟨c, _, rfl, letter.1, letter.2⟩

/-- A literal is read from its quote on. -/
theorem Style.readCode_eq (frames : List Frame) (afterWord : Bool) {rest : List Char}
    (apart : s.Apart rest) :
    readCode frames afterWord (letters ++ (s.chars ++ rest)) =
      readString frames (s.quote letters) (letters.length + s.chars.length)
      (letters ++ (s.chars ++ rest)) := by
  have quote := s.quote_eq known apart
  obtain ⟨c, cs, heq, solid, _⟩ := Style.starts (s := s) known rest
  rw [heq] at quote ⊢
  simp only [isSolid, Bool.and_eq_true, bne_iff_ne] at solid
  unfold readCode
  split
  · simp_all
  · simp_all
  · simp_all
  · simp_all
  · simp only [quote]

end

namespace Literal

def spelling (l : Literal) : Spelling where
  token := .string l.letters.isEmpty
  chars := l.chars
  some := by
    obtain ⟨c, cs, heq, _⟩ := Style.starts (s := l.style) l.known (l.body ++ l.style.chars)
    rw [chars, heq]
    exact List.cons_ne_nil c cs
  proper := by simp
  solid _ := by
    obtain ⟨c, cs, heq, solid, _⟩ := Style.starts (s := l.style) l.known (l.body ++ l.style.chars)
    rw [chars, heq]
    intro d hd
    obtain rfl : c = d := Option.some.inj hd
    exact solid

theorem reads (l : Literal) {next : List Char}
    (apart : l.hollow = true → next.head? ≠ some l.style.mark) :
    l.spelling.Reads [] [] next := by
  intro afterWord
  have text : l.spelling.chars ++ next =
      l.letters ++ (l.style.chars ++ (l.body ++ (l.style.chars ++ next))) := by
    simp [spelling, chars]
  have quoted : l.style.Apart (l.body ++ (l.style.chars ++ next)) := by
    intro single
    have head := l.closes.head_ne single
    cases hbody : l.body with
    | nil =>
      intro _
      have behind := apart (by simp [hollow, single, hbody])
      simpa [Style.chars, single] using behind
    | cons c body =>
      rw [hbody] at head
      exact fun same => absurd same head
  have opening : (l.letters ++ (l.style.chars ++ (l.body ++ (l.style.chars ++ next)))).drop
      (l.letters.length + l.style.chars.length) = l.body ++ (l.style.chars ++ next) := by
    rw [← List.drop_drop, List.drop_left, List.drop_left]
  obtain ⟨c, cs, heq, _, mark⟩ := Style.starts (s := l.style) l.known
    (l.body ++ (l.style.chars ++ next))
  have bare : (l.letters ++ (l.style.chars ++ (l.body ++ (l.style.chars ++ next)))).head?.all
      isQuoteMark = l.letters.isEmpty := by
    rw [heq]
    exact mark
  rw [text, readToken_code rfl, Style.readCode_eq l.known [] afterWord quoted, readString, l.simple,
    opening, l.closes, bare]
  simp [spelling, chars, Nat.add_assoc]

theorem literalValue_chars (l : Literal) : literalValue l.chars = l.value := by
  rw [chars, Style.literalValue_eq l.known l.closes.head_ne, l.simple]
  rfl

end Literal

end Written

end RepoAtlas.Python
