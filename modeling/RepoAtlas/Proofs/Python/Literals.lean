import RepoAtlas.Proofs.Python.Headers
import RepoAtlas.Proofs.Python.Quotes

/-!
Literals that follow one another as they are written, with anything that may stand between them.
Each has the tokens that it is made of and the value that it stands for.
-/
namespace RepoAtlas.Python
open RepoAtlas.Text Written

namespace Written

/-! Literals with replacement fields. -/

structure Verbatim where
  chars : List Char
  plain : ∀ c ∈ chars, c ∉ ['\\', '\x27', '"', '\n', '\x7b', '\x7d', '\x00']

inductive Fields where
  | close (text : Verbatim)
  | field (text : Verbatim) (name : Name) (others : Fields)

structure Format where
  letters : List Char
  style : Style
  fields : Fields
  known : ∀ c ∈ letters, isPrefixLetter c = true
  marked : (style.quote letters).format = true

end Written

namespace Spelling

def formatOpen (f : Format) : Spelling where
  token := .formatOpen
  chars := f.letters ++ f.style.chars
  some := by
    obtain ⟨cs, heq⟩ := f.style.chars_cons
    simp [heq]
  proper := by simp
  solid _ := by
    obtain ⟨c, cs, heq, solid, _⟩ := Style.starts (s := f.style) f.known []
    rw [List.append_nil] at heq
    rw [heq]
    intro d hd
    obtain rfl : c = d := Option.some.inj hd
    exact solid

def fieldOpen (text : Verbatim) : Spelling where
  token := .fieldOpen
  chars := text.chars ++ ['\x7b']
  some := by simp
  proper := by simp
  solid h := nomatch h

def fieldClose : Spelling where
  token := .fieldClose
  chars := ['\x7d']
  some := by simp
  proper := by simp
  solid _ := by simp; decide

def formatClose (text : Verbatim) (s : Style) : Spelling where
  token := .formatClose
  chars := text.chars ++ s.chars
  some := by
    obtain ⟨cs, heq⟩ := s.chars_cons
    simp [heq]
  proper := by simp
  solid h := nomatch h

section
variable {s : Style} {letters next : List Char} {frames : List Frame}

theorem formatOpen_reads (f : Format) (apart : f.style.Apart next) :
    (formatOpen f).Reads [] [.text (f.style.quote f.letters)] next := by
  intro afterWord
  have text : (formatOpen f).chars ++ next = f.letters ++ (f.style.chars ++ next) :=
    List.append_assoc ..
  rw [text, readToken_code rfl, Style.readCode_eq f.known [] afterWord apart, readString, f.marked]
  simp [formatOpen]

theorem scanText_verbatim (s : Style) (letters : List Char) (text : Verbatim) (fresh : Bool)
    (n : Nat) (cs : List Char) :
    ∃ fresh', scanText (s.quote letters) fresh 0 n (text.chars ++ cs) =
      scanText (s.quote letters) fresh' 0 (n + text.chars.length) cs := by
  obtain ⟨chars, plain⟩ := text
  induction chars generalizing fresh n with
  | nil => exact ⟨fresh, rfl⟩
  | cons c chars ih =>
    obtain ⟨first, others⟩ := List.forall_mem_cons.mp plain
    obtain ⟨fresh', ran⟩ := ih false (n + 1) others
    have step : scanText (s.quote letters) fresh 0 n (c :: (chars ++ cs)) = _ :=
      Style.scanText_plain (by simp_all) (by simp_all) fresh n (chars ++ cs)
    refine ⟨fresh', step.trans (ran.trans ?_)⟩
    rw [List.length_cons, Nat.add_assoc, Nat.add_comm 1]

theorem fieldOpen_reads (text : Verbatim) (format : (s.quote letters).format = true)
    (single : next.head? ≠ Option.some '\x7b') :
    (fieldOpen text).Reads (.text (s.quote letters) :: frames)
      (.field 0 0 :: .text (s.quote letters) :: frames) next := by
  intro afterWord
  obtain ⟨fresh, ran⟩ := scanText_verbatim s letters text true 0 ('\x7b' :: next)
  have brace : '\x7b' ≠ (s.quote letters).mark := by
    rcases s.mark_cases with h | h <;> simp [Style.quote, h]
  have stopped : scanText (s.quote letters) fresh 0 (0 + text.chars.length) ('\x7b' :: next) =
      (.field, text.chars.length) := by
    simp [scanText, brace, format, single]
  change readText _ _ ((text.chars ++ ['\x7b']) ++ next) = _
  rw [readText, List.append_assoc, List.singleton_append, ran, stopped]
  simp [fieldOpen]

theorem formatClose_reads (text : Verbatim) :
    (formatClose text s).Reads (.text (s.quote letters) :: frames) frames next := by
  intro afterWord
  obtain ⟨fresh, ran⟩ := scanText_verbatim s letters text true 0 (s.chars ++ next)
  change readText _ _ ((text.chars ++ s.chars) ++ next) = _
  rw [readText, List.append_assoc, ran, Style.scanText_chars]
  simp [formatClose]

theorem word_reads_field (name : Name) (stops : Stops next) :
    (word name.text name.spelled).Reads (.field 0 0 :: frames) (.field 0 0 :: frames) next := by
  intro afterWord
  have ordinary : name.text ≠ "lambda" := by
    intro same
    exact absurd name.ordinary (by rw [same]; decide)
  refine (readCode_word (.field 0 0 :: frames) name.spelled stops afterWord).trans ?_
  simp [readWord, ordinary, word]

theorem fieldClose_reads : fieldClose.Reads (.field 0 0 :: frames) frames next := by
  intro afterWord
  have letter : isPrefixLetter '\x7d' = false := by decide
  have start : isIdentStart '\x7d' = false := by decide
  have quote : quote? ('\x7d' :: next) = none := by
    apply quote_eq_none
    rw [List.dropWhile_cons_of_neg (by simp [letter])]
    simp [isQuoteMark]
  have number : numberLength ('\x7d' :: next) = 0 := numberLength_other (by decide) (by decide) next
  have brace : symbol? ('\x7d' :: next) = Option.some "\x7d" := rfl
  change readCode (.field 0 0 :: frames) afterWord ('\x7d' :: next) = _
  simp only [readCode, quote, wordLength, start, number, brace]
  rfl

end

end Spelling

namespace Written

variable {s : Style} {letters next : List Char}

namespace Fields

def pieces (s : Style) : Fields → List Printed
  | .close text => [⟨[], .formatClose text s⟩]
  | .field text name others =>
    ⟨[], .fieldOpen text⟩ :: word [] name.text name.spelled :: ⟨[], .fieldClose⟩ :: others.pieces s

def hollow : Fields → Bool
  | .close text => text.chars.isEmpty
  | .field _ _ _ => false

theorem fitting (format : (s.quote letters).format = true) (fields : Fields) :
    Fitting [.text (s.quote letters)] (fields.pieces s) next := by
  induction fields with
  | close text =>
    exact ⟨[], ⟨rfl, fun _ => rfl, Spelling.formatClose_reads text⟩, rfl⟩
  | field text name others ih =>
    have single : (textOf (word [] name.text name.spelled :: ⟨[], .fieldClose⟩ ::
        others.pieces s) ++ next).head? ≠ some '\x7b' := by
      obtain ⟨c, cs, heq, start⟩ := Spelling.isIdentifier_starts name.spelled
      rw [textOf_word, heq]
      intro same
      obtain rfl : c = '\x7b' := Option.some.inj same
      exact absurd start (by decide)
    have stops : Stops (textOf (⟨[], .fieldClose⟩ :: others.pieces s) ++ next) := by
      intro c hc
      obtain rfl : '\x7d' = c := Option.some.inj hc
      decide
    exact ⟨_, ⟨rfl, fun _ => rfl, Spelling.fieldOpen_reads text format single⟩,
      _, ⟨rfl, fun _ => rfl, Spelling.word_reads_field name stops⟩,
      _, ⟨rfl, fun _ => rfl, Spelling.fieldClose_reads⟩, ih⟩

/-- What is written does not make the quote before it a longer one. -/
theorem apart (fields : Fields)
    (behind : s.triple = false → fields.hollow = true → next.head? ≠ some s.mark) :
    s.Apart (textOf (fields.pieces s) ++ next) := by
  intro single head
  have verbatim {text : Verbatim} {c : Char} {cs : List Char} (h : text.chars = c :: cs) :
      c ≠ s.mark := by
    have plain := text.plain c (by simp [h])
    rcases s.mark_cases with mark | mark <;> simp_all
  cases fields with
  | close text =>
    have written : textOf ((Fields.close text).pieces s) ++ next =
        text.chars ++ s.mark :: next := by
      simp [pieces, Printed.chars, Filler.chars, Spelling.formatClose, Style.chars, single]
    rw [written] at head ⊢
    cases chars : text.chars with
    | nil => exact behind single (by simp [hollow, chars])
    | cons c cs =>
      rw [chars] at head
      exact absurd (Option.some.inj head) (verbatim chars)
  | field text name others =>
    have written : textOf ((Fields.field text name others).pieces s) ++ next =
        text.chars ++ '\x7b' :: (textOf (word [] name.text name.spelled :: ⟨[], .fieldClose⟩ ::
          others.pieces s) ++ next) := by
      simp [pieces, Printed.chars, Filler.chars, Spelling.fieldOpen]
    rw [written] at head
    cases chars : text.chars with
    | nil =>
      rw [chars] at head
      have brace : '\x7b' = s.mark := Option.some.inj head
      rcases s.mark_cases with mark | mark <;> simp_all
    | cons c cs =>
      rw [chars] at head
      exact absurd (Option.some.inj head) (verbatim chars)

end Fields

/-! Parts. -/

inductive Part where
  | literal (l : Literal)
  | format (f : Format)

namespace Part

def style : Part → Style
  | .literal l => l.style
  | .format f => f.style

def pieces (gap : Filler) : Part → List Printed
  | .literal l => [⟨gap, l.spelling⟩]
  | .format f => ⟨gap, .formatOpen f⟩ :: f.fields.pieces f.style

def hollow : Part → Bool
  | .literal l => l.hollow
  | .format f => !f.style.triple && f.fields.hollow

/-- What the part stands for; bytes and literals with replacement fields stand for no text. -/
def value : Part → Option (List Char)
  | .literal l => l.value
  | .format _ => none

theorem fitting (p : Part) (gap : Filler)
    (behind : p.hollow = true → next.head? ≠ some p.style.mark) :
    Fitting [] (p.pieces gap) next := by
  cases p with
  | literal l => exact fitting_cons rfl (l.reads behind) rfl
  | format f =>
    have apart : f.style.Apart (textOf (f.fields.pieces f.style) ++ next) :=
      f.fields.apart fun single none => behind (by simp [hollow, single, none])
    exact ⟨_, ⟨rfl, nofun, Spelling.formatOpen_reads f apart⟩, f.fields.fitting f.marked⟩

theorem literalValue_bodyOf (p : Part) (gap : Filler) :
    literalValue (bodyOf (p.pieces gap)) = p.value := by
  cases p with
  | literal l =>
    change literalValue (l.chars ++ []) = l.value
    rw [List.append_nil, l.literalValue_chars]
  | format f =>
    change literalValue ((f.letters ++ f.style.chars) ++ textOf (f.fields.pieces f.style)) = none
    rw [List.append_assoc, Style.literalValue_none f.known (.inl f.marked)]

end Part

inductive Parts where
  | last (part : Part)
  | more (part : Part) (gap : Filler) (apart : part.hollow = true → gap ≠ []) (others : Parts)

namespace Parts

def list : Parts → List Part
  | .last part => [part]
  | .more part _ _ others => part :: others.list

def gaps : Parts → List Filler
  | .last _ => []
  | .more _ gap _ others => gap :: others.gaps

def pieces (lead : Filler) : Parts → List Printed
  | .last part => part.pieces lead
  | .more part gap _ others => part.pieces lead ++ others.pieces gap

/-- The values of the parts as one text; none if one of the parts has none. -/
def value (ps : Parts) : Option String :=
  (ps.list.mapM Part.value).map fun values => String.ofList values.flatten

/-- Parts start as a literal does. -/
theorem starts (ps : Parts) (lead : Filler) :
    ∃ spelling rest, ps.pieces lead = ⟨lead, spelling⟩ :: rest ∧
    IsLiteral spelling.token := by
  have single (part : Part) (others : List Printed) : ∃ spelling rest, part.pieces lead ++ others =
      ⟨lead, spelling⟩ :: rest ∧ IsLiteral spelling.token := by
    cases part with
    | literal l => exact ⟨_, _, rfl, .inl ⟨_, rfl⟩⟩
    | format f => exact ⟨_, _, rfl, .inr rfl⟩
  cases ps with
  | last part =>
    rw [pieces, ← List.append_nil (part.pieces lead)]
    exact single part []
  | more part gap apart others => exact single part (others.pieces gap)

theorem value_last (part : Part) : (Parts.last part).value = part.value.map String.ofList := by
  cases value : part.value <;> simp [Parts.value, list, value]

theorem length_le (ps : Parts) (lead : Filler) : ps.list.length ≤ (ps.pieces lead).length := by
  have some (part : Part) (lead : Filler) : 0 < (part.pieces lead).length := by
    cases part <;> exact Nat.succ_pos _
  induction ps generalizing lead with
  | last part => exact some part lead
  | more part gap apart others ih =>
    have first := some part lead
    have behind := ih gap
    rw [list, pieces, List.length_cons, List.length_append]
    omega

theorem fitting (ps : Parts) (lead : Filler) (hnext : ∀ c ∈ next.head?, isQuoteMark c = false) :
    Fitting [] (ps.pieces lead) next := by
  have other (s : Style) {c : Char} (hc : isQuoteMark c = false) : c ≠ s.mark := by
    rintro rfl
    rw [s.isQuoteMark_mark] at hc
    cases hc
  induction ps generalizing lead with
  | last part => exact part.fitting lead fun _ mark => other _ (hnext _ mark) rfl
  | more part gap apart others ih =>
    refine fitting_append (part.fitting lead fun hollow mark => ?_) (ih gap)
    obtain ⟨spelling, rest, heq, _⟩ := others.starts gap
    rw [heq, textOf_cons, Printed.chars, List.append_assoc, List.append_assoc] at mark
    have blank : ∀ c, isGapChar c = true → c ≠ part.style.mark := fun c white => by
      rcases isGapChar_iff.mp white with rfl | rfl | rfl | rfl <;> exact other _ (by decide)
    exact head_filler blank (other _ (by decide)) gap
      (fun none => absurd none (apart hollow)) _ mark rfl

end Parts

inductive Concatenation where
  | line (parts : Parts) (tight : ∀ gap ∈ parts.gaps, gap.Tight)
  | grouped (opening : Filler) (parts : Parts) (closing : Filler)

namespace Concatenation

def pieces : Concatenation → List Printed
  | .line parts _ => parts.pieces []
  | .grouped opening parts closing =>
    sign [] "(" opening_mem :: (parts.pieces opening ++ [sign closing ")" closing_mem])

def Means (t : SourceText) (e : Expr) : Concatenation → Prop
  | .line parts _ => t.literalValue? e = parts.value
  | .grouped _ parts _ => ∃ span inner, e = .group span inner true ∧
        t.literalValue? inner = parts.value

def file (x : Concatenation) : String := String.ofList (textOf x.pieces ++ ['\n'])

theorem starts (x : Concatenation) : ∃ p rest, x.pieces = p :: rest ∧ p.filler = [] ∧
    (IsLiteral p.token ∨ p.token = .symbol "(") := by
  cases x with
  | line parts tight =>
    obtain ⟨spelling, rest, heq, token⟩ := parts.starts []
    exact ⟨_, rest, heq, rfl, .inl token⟩
  | grouped opening parts closing => exact ⟨_, _, rfl, rfl, .inr rfl⟩

theorem fitting (x : Concatenation) : Fitting [] x.pieces ['\n'] := by
  cases x with
  | line parts tight => exact parts.fitting [] (by simp; decide)
  | grouped opening parts closing =>
    refine fitting_mark (by decide)
      (fitting_append (parts.fitting opening ?_) (fitting_mark (by decide) rfl))
    rw [textOf_sign]
    refine head_filler (fun c white => ?_) (by decide) closing fun _ => by simp; decide
    rcases isGapChar_iff.mp white with rfl | rfl | rfl | rfl <;> decide

end Concatenation

end Written

end RepoAtlas.Python
