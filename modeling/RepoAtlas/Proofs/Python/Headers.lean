import RepoAtlas.Proofs.Python.Facing
import RepoAtlas.Proofs.Python.Written
import RepoAtlas.Proofs.Text.Blank

/-!
Definitions as they are written: headers of functions and classes with everything that may stand
between their tokens. Each has the tokens that it is made of and the signature that it stands for.
How types, defaults and arguments are written is left open.
-/
namespace RepoAtlas.Python
open RepoAtlas.Text

/-! Texts that end a token. -/

def endMarks : List Char :=
  [' ', '\t', '\n', '\r', '#', ',', '(', ')', '[', ']', ':', '=', '+', '-', '*', '@', '/', '%', '|',
    '&', '^', '<', '>', '!']

/-- The text starts with nothing that a word or a number could run into. -/
def Ends (next : List Char) : Prop := ∀ c ∈ next.head?, c ∈ endMarks

/-- The text starts with nothing that a sign could run into. -/
def Plain (next : List Char) : Prop := ∀ c ∈ next.head?, c ∉ ['=', '*', '/', '<', '>']

theorem endMarks_part : ∀ c ∈ endMarks, (isIdentPart c = false ∧ isQuoteMark c = false) ∧
    (c.isAlphanum || c == '_' || c == '.') = false := by
  have checked : (endMarks.all fun c => !isIdentPart c && !isQuoteMark c &&
      !(c.isAlphanum || c == '_' || c == '.')) = true := by decide
  intro c hc
  have each := List.all_eq_true.mp checked c hc
  simpa only [Bool.and_eq_true, Bool.not_eq_true'] using each

theorem Ends.stops {next : List Char} (h : Ends next) : Stops next :=
  fun c hc => (endMarks_part c (h c hc)).1

theorem Ends.endsNumber {next : List Char} (h : Ends next) : EndsNumber next :=
  fun c hc => (endMarks_part c (h c hc)).2

theorem Plain.reads {s : String} (hs : s ∈ Spelling.plainSymbols) (hdot : s ≠ ".")
    {next : List Char} (h : Plain next) : (Spelling.symbol s hs).Reads [] [] next := by
  refine Spelling.symbol_reads hs fun c hc => ?_
  have other := h c hc
  simp only [List.mem_cons, List.not_mem_nil, or_false, not_or] at other
  rw [Spelling.runsInto]
  split
  · rfl
  · simp [hdot, other]

/-- The first character behind a filler is one of the filler or the next one. -/
theorem head_filler {P : Char → Prop} (gap : ∀ c, isGapChar c = true → P c) (hash : P '#')
    (f : Filler) {next : List Char} (hnext : f = [] → ∀ c ∈ next.head?, P c) :
    ∀ c ∈ (f.chars ++ next).head?, P c := by
  intro c hc
  cases f with
  | nil => exact hnext rfl c hc
  | cons fill f =>
    cases fill with
    | blank d white =>
      obtain rfl : d = c := Option.some.inj hc
      exact gap d white
    | comment text line =>
      obtain rfl : '#' = c := Option.some.inj hc
      exact hash

theorem ends_filler (f : Filler) {next : List Char} (h : f = [] → Ends next) :
    Ends (f.chars ++ next) := by
  refine head_filler (fun c white => ?_) (by decide) f h
  rcases isGapChar_iff.mp white with rfl | rfl | rfl | rfl <;> decide

theorem plain_filler (f : Filler) {next : List Char} (h : Plain next) :
    Plain (f.chars ++ next) := by
  refine head_filler (fun c white => ?_) (by simp) f fun _ => h
  rcases isGapChar_iff.mp white with rfl | rfl | rfl | rfl <;> simp

theorem plain_append {cs : List Char} (h : Plain cs) (some : cs ≠ []) (next : List Char) :
    Plain (cs ++ next) := by
  cases cs with
  | nil => exact absurd rfl some
  | cons c cs => exact h

theorem plain_identifier {text : String} (h : isIdentifier text = true) : Plain text.toList := by
  obtain ⟨c, cs, heq, start⟩ := Spelling.isIdentifier_starts h
  rw [heq]
  intro d hd
  obtain rfl : c = d := Option.some.inj hd
  simp only [List.mem_cons, List.not_mem_nil, or_false, not_or]
  refine ⟨?_, ?_, ?_, ?_, ?_⟩ <;>
  · rintro rfl
    exact absurd start (by decide)

/-! Tokens in code. -/

theorem fitting_cons {p : Printed} {ps : List Printed} {rest : List Char}
    (code : inCode p.token = true) (reads : p.spelling.Reads [] [] (textOf ps ++ rest))
    (h : Fitting [] ps rest) :
    Fitting [] (p :: ps) rest :=
  ⟨[], ⟨code.symm, fun text => absurd (code.symm.trans text) (by simp), reads⟩, h⟩

theorem fitting_append {frames : List Frame} {ps qs : List Printed} {rest : List Char}
    (h : Fitting frames ps (textOf qs ++ rest)) (h' : Fitting [] qs rest) :
    Fitting frames (ps ++ qs) rest := by
  induction ps generalizing frames with
  | nil =>
    obtain rfl : frames = [] := h
    exact h'
  | cons p ps ih =>
    obtain ⟨frames', fits, others⟩ := h
    rw [← List.append_assoc, ← textOf_append] at fits
    exact ⟨frames', fits, ih others⟩

namespace Written

def word (gap : Filler) (text : String) (h : isIdentifier text = true := by decide) : Printed :=
  ⟨gap, .word text h⟩

theorem comma_mem : "," ∈ Spelling.plainSymbols := List.mem_cons_self

theorem opening_mem : "(" ∈ Spelling.plainSymbols := List.mem_cons_of_mem _ List.mem_cons_self

theorem closing_mem : ")" ∈ Spelling.plainSymbols :=
  List.mem_cons_of_mem _ (List.mem_cons_of_mem _ List.mem_cons_self)

theorem colon_mem : ":" ∈ Spelling.plainSymbols := by decide

def sign (gap : Filler) (s : String) (h : s ∈ Spelling.plainSymbols := by decide) : Printed :=
  ⟨gap, .symbol s h⟩

def stars (gap : Filler) (double : Bool) : Printed :=
  if double then sign gap "**" else sign gap "*"

def endSymbols : List String := [",", "(", ")", "[", "]", ":", "="] ++ binarySymbols

theorem endSymbols_ends : ∀ s ∈ endSymbols, ∀ c ∈ s.toList.head?, c ∈ endMarks := by
  have checked : (endSymbols.all fun s => s.toList.head?.all endMarks.contains) = true := by decide
  intro s hs c hc
  have each := List.all_eq_true.mp checked s hs
  exact List.contains_iff_mem.mp ((Option.all_eq_true ..).mp each c hc)

section
variable {gap : Filler} {ps : List Printed} {next : List Char}

@[simp] theorem token_word {text : String} {h : isIdentifier text = true} :
    (word gap text h).token = .word text := rfl

@[simp] theorem token_sign {s : String} {h : s ∈ Spelling.plainSymbols} :
    (sign gap s h).token = .symbol s := rfl

theorem chars_sign {s : String} {h : s ∈ Spelling.plainSymbols} :
    (sign gap s h).chars = gap.chars ++ s.toList := rfl

theorem chars_token {text : String} {h : isIdentifier text = true} :
    (word gap text h).chars = gap.chars ++ text.toList := rfl

theorem textOf_word {text : String} {h : isIdentifier text = true} :
    textOf (word gap text h :: ps) ++ next = gap.chars ++ (text.toList ++ (textOf ps ++ next)) := by
  rw [textOf_cons, chars_token, List.append_assoc, List.append_assoc]

theorem textOf_sign {s : String} {h : s ∈ Spelling.plainSymbols} :
    textOf (sign gap s h :: ps) ++ next = gap.chars ++ (s.toList ++ (textOf ps ++ next)) := by
  rw [textOf_cons, chars_sign, List.append_assoc, List.append_assoc]

theorem fitting_word {text : String} {h : isIdentifier text = true}
    (ends : Ends (textOf ps ++ next)) (others : Fitting [] ps next) :
    Fitting [] (word gap text h :: ps) next :=
  fitting_cons rfl (Spelling.word_reads h ends.stops) others

theorem fitting_sign {s : String} {h : s ∈ Spelling.plainSymbols} (hdot : s ≠ ".")
    (plain : Plain (textOf ps ++ next)) (others : Fitting [] ps next) :
    Fitting [] (sign gap s h :: ps) next :=
  fitting_cons rfl (plain.reads h hdot) others

/-- A comma or a bracket. -/
theorem fitting_mark {s : String} {h : s ∈ Spelling.plainSymbols}
    (hs : s ∈ [",", "(", ")", "[", "]"]) (others : Fitting [] ps next) :
    Fitting [] (sign gap s h :: ps) next := by
  refine fitting_cons rfl (Spelling.symbol_reads h fun c _ => ?_) others
  rw [Spelling.runsInto, if_pos (by simpa using hs)]

theorem plain_word {text : String} {h : isIdentifier text = true} :
    Plain (textOf (word gap text h :: ps) ++ next) := by
  rw [textOf_word]
  exact plain_filler gap (plain_append (plain_identifier h) (Spelling.word text h).some _)

theorem ends_word {text : String} {h : isIdentifier text = true} (apart : gap ≠ []) :
    Ends (textOf (word gap text h :: ps) ++ next) := by
  rw [textOf_word]
  exact ends_filler gap fun none => absurd none apart

theorem ends_sign {s : String} {h : s ∈ Spelling.plainSymbols} (hs : s ∈ endSymbols) :
    Ends (textOf (sign gap s h :: ps) ++ next) := by
  rw [textOf_sign]
  refine ends_filler gap fun _ => ?_
  obtain ⟨c, cs, heq⟩ := List.exists_cons_of_ne_nil (Spelling.symbol s h).some
  have mark := endSymbols_ends s hs
  change s.toList = c :: cs at heq
  rw [heq] at mark ⊢
  exact mark

theorem plain_mark {s : String} {h : s ∈ Spelling.plainSymbols} (hs : s ∈ [",", ")", ":"]) :
    Plain (textOf (sign gap s h :: ps) ++ next) := by
  rw [textOf_sign]
  refine plain_filler gap ?_
  simp only [List.mem_cons, List.not_mem_nil, or_false] at hs
  rcases hs with rfl | rfl | rfl <;> simp [Plain]

end

theorem isIdentPart_of_isIdentifier {text : String} (h : isIdentifier text = true) :
    ∀ c ∈ text.toList, isIdentPart c = true := by
  rw [isIdentifier] at h
  split at h
  · rename_i c cs heq
    obtain ⟨start, parts⟩ := Bool.and_eq_true_iff.mp h
    rw [heq]
    exact List.forall_mem_cons.mpr ⟨isIdentPart_of_isIdentStart start, List.all_eq_true.mp parts⟩
  · cases h

theorem not_isBlank_of_isIdentifier {text : String} (h : isIdentifier text = true) :
    ∀ c ∈ text.toList, isBlank c = false :=
  fun c hc => not_isBlank_of_isIdentPart (isIdentPart_of_isIdentifier h c hc)

/-! Values. -/

def bodyOf : List Printed → List Char
  | [] => []
  | p :: ps => p.spelling.chars ++ textOf ps

def oneLineOf (ps : List Printed) : String := String.ofList (collapseChars (bodyOf ps))

def Coded (ps : List Printed) : Prop := ∀ p ∈ ps, inCode p.token = true

/-- A token in code on a line that belongs to a block. -/
def Inside (width : Nat) (p : Printed) : Prop := inCode p.token = true ∧ p.filler.Within width

def valueEnds : List Token :=
  [.symbol ",", .symbol ")", .symbol "]", .symbol "=", .symbol ":", .fieldClose, .lineEnd]

theorem mem_of_among {t : Token} {ts us : List Token} (h : t ∈ ts) (among : ts ⊆ us := by decide) :
    t ∈ us :=
  among h

/-- Tokens that a reader of expressions takes as one expression before any token that can come after
it. -/
def Readable (ps : List Printed) : Prop :=
  ∀ {text : List Char} {c : Cursor} {width offset : Nat} {q : Printed} {rest :
    List Printed} (place : Place)
    (n : Nat), Facing text c width offset (ps ++ q :: rest) → (∀ p ∈ ps, Inside width p) →
    place.first ≠ .line → place.rest ≠ .line → q.Shows width place.rest →
    q.token ∈ valueEnds → ps.length ≤ n →
    ∃ e c', expression n place c = some (e, c') ∧ (SourceText.ofChars text).slice e.span =
      bodyOf ps ∧
      Facing text c' width (offset + (textOf ps).length) (q :: rest)

def IsOpener (t : Token) : Prop :=
  (∃ w, t = .word w ∧ (w ∉ keywords ∨ w ∈ constants)) ∨ (∃ bare, t = .string bare) ∨
    t ∈ [.number, .symbol "(", .symbol "["]

def signSymbols : List String := ["-", "+", "~"]

def IsStart (t : Token) : Prop := IsOpener t ∨ ∃ s ∈ signSymbols, t = .symbol s

theorem IsStart.ne_symbol {t : Token} (h : IsStart t) {s : String}
    (hs : s ∉ ["(", "["] ++ signSymbols) :
    t ≠ .symbol s := by
  rintro rfl
  rw [List.mem_append, not_or] at hs
  rcases h with (⟨w, word, _⟩ | ⟨bare, string⟩ | symbol) | ⟨s', hs', heq⟩
  · cases word
  · cases string
  · simp [not_or.mp (List.mem_cons.not.mp hs.1)] at symbol
    simp [symbol] at hs
  · cases heq
    exact hs.2 hs'

def IsLiteral (t : Token) : Prop := (∃ bare, t = .string bare) ∨ t = .formatOpen

/-- Tokens of which the first is of some kind, and is not a name that is given something. -/
def OpensAs (P : Token → Prop) (ps : List Printed) : Prop :=
  ∃ p rest, ps = p :: rest ∧ P p.token ∧ Plain p.spelling.chars ∧
    ∀ q ∈ rest.head?, q.token ∉ [.symbol "=", .symbol ":="]

def Opens (ps : List Printed) : Prop := OpensAs IsStart ps

theorem OpensAs.opens {ps : List Printed} (h : OpensAs IsOpener ps) : Opens ps := by
  obtain ⟨p, rest, heq, opener, others⟩ := h
  exact ⟨p, rest, heq, .inl opener, others⟩

theorem OpensAs.append {P : Token → Prop} {ps : List Printed} (h : OpensAs P ps) {q : Printed}
    (hq : q.token ∉ [.symbol "=", .symbol ":="]) (qs : List Printed) :
    OpensAs P (ps ++ q :: qs) := by
  obtain ⟨p, rest, rfl, first, plain, single⟩ := h
  refine ⟨p, rest ++ q :: qs, rfl, first, plain, ?_⟩
  cases rest with
  | nil =>
    intro q' hq'
    obtain rfl : q = q' := Option.some.inj hq'
    exact hq
  | cons r rest => exact single

theorem Opens.plain {ps : List Printed} (h : Opens ps) {next : List Char} :
    Plain (textOf ps ++ next) := by
  obtain ⟨p, ps, rfl, _, plain, _⟩ := h
  rw [textOf_cons, Printed.chars, List.append_assoc, List.append_assoc]
  exact plain_filler _ (plain_append plain p.spelling.some _)

theorem Opens.ne_nil {ps : List Printed} (h : Opens ps) : ps ≠ [] := by
  obtain ⟨p, rest, rfl, _⟩ := h
  exact List.cons_ne_nil p rest

def ReadableTypes (ps : List Printed) : Prop :=
  ∀ {text : List Char} {c : Cursor} {width offset : Nat} {rest : List Printed} (n : Nat),
    Facing text c width offset (ps ++ rest) → (∀ p ∈ ps, Inside width p) → ps.length ≤ n →
    ∃ span c', typeParameters (expression n) c = some (some span, c') ∧
      (SourceText.ofChars text).slice span = bodyOf ps ∧
      Facing text c' width (offset + (textOf ps).length) rest

class Generic (T : Type) where
  pieces : T → List Printed
  opens : ∀ t, ∃ gap rest, pieces t = sign gap "[" :: rest
  code : ∀ t, Coded (pieces t)
  fitting : ∀ t {next : List Char}, Fitting [] (pieces t) next
  reads : ∀ t, ReadableTypes (pieces t)

instance : Generic Empty where
  pieces := nofun
  opens := nofun
  code := nofun
  fitting := nofun
  reads := nofun

/-- What can be written as a type, a default or an argument, and as type parameters along with
it. -/
class Writable (V : Type) where
  pieces : V → List Printed
  opens : ∀ v, Opens (pieces v)
  code : ∀ v, Coded (pieces v)
  fitting : ∀ v {next : List Char}, Ends next → Fitting [] (pieces v) next
  reads : ∀ v, Readable (pieces v)
  Types : Type
  generic : Generic Types

instance {V : Type} [Writable V] : Generic (Writable.Types V) := Writable.generic

def typesOf {T : Type} [Generic T] (t : Option T) : List Printed := t.elim [] Generic.pieces

def lineOf {V : Type} [Writable V] (v : V) : String := oneLineOf (Writable.pieces v)

/-! Headers. -/

/-- Items up to a closing parenthesis, with commas between and perhaps after them. -/
inductive Listing (α : Type) where
  | close (gap : Filler)
  | last (item : α) (gap : Filler)
  | more (item : α) (comma : Filler) (others : Listing α)

namespace Listing

variable {α : Type}

def items : Listing α → List α
  | .close _ => []
  | .last item _ => [item]
  | .more item _ others => item :: others.items

def pieces (f : α → List Printed) : Listing α → List Printed
  | .close gap => [sign gap ")"]
  | .last item gap => f item ++ [sign gap ")"]
  | .more item comma others => f item ++ sign comma "," comma_mem :: others.pieces f

end Listing

/-- A parameter without its layout. Types and defaults are texts. -/
inductive Entry where
  | named (name : String) (type value : Option String)
  | splat (double : Bool) (name : String) (type : Option String)
  | keywordOnly
  | positionalOnly
  deriving DecidableEq, Repr

def Entry.text : Entry → String
  | .named name none none => name
  | .named name (some type) none => name ++ ": " ++ type
  | .named name none (some value) => name ++ "=" ++ value
  | .named name (some type) (some value) => name ++ ": " ++ type ++ " = " ++ value
  | .splat double name type => (if double then "**" else "*") ++ name ++ type.elim "" (": " ++ ·)
  | .keywordOnly => "*"
  | .positionalOnly => "/"

structure Heading where
  async : Bool
  name : String
  params : List Entry
  returns : Option String
  deriving DecidableEq, Repr

namespace Heading

def front (h : Heading) : String := (if h.async then "async " else "") ++ "def " ++ h.name

def back (h : Heading) : String :=
  "(" ++ joinWith ", " (h.params.map Entry.text) ++ ")" ++ h.returns.elim "" (" -> " ++ ·)

def signature (h : Heading) : String := h.front ++ h.back

end Heading

/-- A parameter, with the filler before each token. Types and defaults have a filler before their
sign. -/
inductive Parameter (V : Type) where
  | named (gap : Filler) (name : Name) (type value : Option (Filler × V))
  | splat (gap : Filler) (double : Bool) (inner : Filler) (name : Name) (type : Option (Filler × V))
  | keywordOnly (gap : Filler)
  | positionalOnly (gap : Filler)

section
variable {V : Type} (render : V → String)

def Parameter.entry : Parameter V → Entry
  | .named _ name type value =>
    .named name.text (type.map fun t => render t.2) (value.map fun v => render v.2)
  | .splat _ double _ name type => .splat double name.text (type.map fun t => render t.2)
  | .keywordOnly _ => .keywordOnly
  | .positionalOnly _ => .positionalOnly

structure Space where
  gap : Filler
  tight : gap.Tight
  some : gap ≠ []

structure Function (V : Type) [Writable V] where
  /-- The word `async`, with the white space after it. -/
  async : Option Space
  gap : Filler
  apart : gap ≠ []
  name : Name
  types : Option (Writable.Types V)
  opening : Filler
  params : Listing (Parameter V)
  /-- The type of the result, with the filler before the arrow. -/
  returns : Option (Filler × V)
  colon : Filler

def Function.heading [Writable V] (f : Function V) : Heading :=
  ⟨f.async.isSome, f.name.text, f.params.items.map (Parameter.entry render),
    f.returns.map fun r => render r.2⟩

end

def Function.signature {V : Type} [Writable V] (f : Function V) : String :=
  (f.heading lineOf).front ++ oneLineOf (typesOf f.types) ++ (f.heading lineOf).back

def idle : Printed := word [.blank ' ' rfl] "pass"

def lineStart (width : Nat) : Filler := .lineBreak :: List.replicate width (.blank ' ' rfl)

/-- Items of a block; a filler comes first, and the start of a line before every other item. -/
def stacked {α : Type} (f : Filler → α → List Printed) (width : Nat) :
    Filler → List α → List Printed
  | _, [] => []
  | lead, a :: as => f lead a ++ stacked f width (lineStart width) as

inductive Argument (V : Type) where
  | base (value : V)
  | keyword (gap : Filler) (name : Name) (equals : Filler) (value : V)

section
variable {V : Type} [Writable V]

def signed (s : String) (h : s ∈ Spelling.plainSymbols) : Option (Filler × V) → List Printed
  | none => []
  | some v => sign v.1 s h :: Writable.pieces v.2

def Parameter.pieces : Parameter V → List Printed
  | .named gap name type value =>
    word gap name.text name.spelled :: (signed ":" (by decide) type ++ signed "=" (by decide) value)
  | .splat gap double inner name type =>
    stars gap double :: word inner name.text name.spelled ::
      signed ":" (by decide) type
  | .keywordOnly gap => [sign gap "*"]
  | .positionalOnly gap => [sign gap "/"]

def Function.opener (lead : Filler) (f : Function V) : List Printed :=
  match f.async with
  | none => [word lead "def"]
  | some space => [word lead "async", word space.gap "def"]

def Function.pieces (lead : Filler) (f : Function V) : List Printed :=
  f.opener lead ++ word f.gap f.name.text f.name.spelled ::
    (typesOf f.types ++ sign f.opening "(" ::
    (f.params.pieces Parameter.pieces ++ (signed "->" (by decide) f.returns ++ [sign f.colon ":"])))

def Argument.pieces : Argument V → List Printed
  | .base value => Writable.pieces value
  | .keyword gap name equals value =>
    word gap name.text name.spelled :: sign equals "=" :: Writable.pieces value

def Function.whole (lead : Filler) (f : Function V) : List Printed := f.pieces lead ++ [idle]

inductive Methods (V : Type) [Writable V] where
  | idle
  | block (width : Nat) (positive : 0 < width) (first : Function V) (more : List (Function V))
    (inside : ∀ f ∈ first :: more, ∀ p ∈ f.pieces [], p.filler.Within width)

structure Class (V : Type) [Writable V] where
  gap : Filler
  apart : gap ≠ []
  name : Name
  types : Option (Writable.Types V)
  arguments : Option (Filler × Listing (Argument V))
  colon : Filler
  methods : Methods V

namespace Class

def signature (c : Class V) : String :=
  let arguments := (c.arguments.map fun a => a.2.items.map fun a => oneLineOf a.pieces).getD []
  "class " ++ c.name.text ++ oneLineOf (typesOf c.types) ++
    if arguments.isEmpty then "" else "(" ++ joinWith ", " arguments ++ ")"

def header (lead : Filler) (c : Class V) : List Printed :=
  word lead "class" :: word c.gap c.name.text c.name.spelled :: (typesOf c.types ++
    ((c.arguments.elim [] fun a => sign a.1 "(" :: a.2.pieces Argument.pieces) ++
      [sign c.colon ":"]))

end Class

namespace Methods

def functions : Methods V → List (Function V)
  | .idle => []
  | .block _ _ first more _ => first :: more

def pieces : Methods V → List Printed
  | .idle => [Written.idle]
  | .block width _ first more _ => stacked Function.whole width (lineStart width) (first :: more)

end Methods

inductive Definition (V : Type) [Writable V] where
  | function (f : Function V)
  | classDef (c : Class V)

namespace Definition

def pieces (lead : Filler) : Definition V → List Printed
  | .function f => f.whole lead
  | .classDef c => c.header lead ++ c.methods.pieces

def functions : Definition V → List (Function V)
  | .function f => [f]
  | .classDef c => c.methods.functions

end Definition

def tokensOf (ds : List (Definition V)) : List Printed := stacked Definition.pieces 0 [] ds

def fileOf (ds : List (Definition V)) : String := String.ofList (textOf (tokensOf ds) ++ ['\n'])

end

/-! Tokens of definitions are tokens in code. -/

section
variable {V : Type} [Writable V]

theorem coded_signed {s : String} {h : s ∈ Spelling.plainSymbols} (v : Option (Filler × V)) :
    Coded (signed s h v) := by
  cases v with
  | none => exact List.forall_mem_nil _
  | some v => exact List.forall_mem_cons.mpr ⟨rfl, Writable.code v.2⟩

theorem coded_parameter (p : Parameter V) : Coded p.pieces := by
  cases p with
  | named gap name type value =>
    exact List.forall_mem_cons.mpr
      ⟨rfl, List.forall_mem_append.mpr ⟨coded_signed type, coded_signed value⟩⟩
  | splat gap double inner name type =>
    refine List.forall_mem_cons.mpr ⟨?_, List.forall_mem_cons.mpr ⟨rfl, coded_signed type⟩⟩
    cases double <;> rfl
  | keywordOnly gap => exact List.forall_mem_singleton.mpr rfl
  | positionalOnly gap => exact List.forall_mem_singleton.mpr rfl

theorem coded_argument (a : Argument V) : Coded a.pieces := by
  cases a with
  | base value => exact Writable.code value
  | keyword gap name equals value =>
    exact List.forall_mem_cons.mpr ⟨rfl, List.forall_mem_cons.mpr ⟨rfl, Writable.code value⟩⟩

omit [Writable V] in
theorem coded_listing {α : Type} {f : α → List Printed} (hf : ∀ a, Coded (f a)) (l : Listing α) :
    Coded (l.pieces f) := by
  induction l with
  | close gap => exact List.forall_mem_singleton.mpr rfl
  | last item gap => exact List.forall_mem_append.mpr ⟨hf item, List.forall_mem_singleton.mpr rfl⟩
  | more item comma others ih =>
    exact List.forall_mem_append.mpr ⟨hf item, List.forall_mem_cons.mpr ⟨rfl, ih⟩⟩

omit [Writable V] in
theorem coded_types {T : Type} [Generic T] (t : Option T) : Coded (typesOf t) := by
  cases t with
  | none => exact List.forall_mem_nil _
  | some t => exact Generic.code t

theorem coded_function (lead : Filler) (f : Function V) : Coded (f.pieces lead) := by
  have opener : Coded (f.opener lead) := by
    rw [Function.opener]
    cases f.async with
    | none => exact List.forall_mem_singleton.mpr rfl
    | some space => exact List.forall_mem_cons.mpr ⟨rfl, List.forall_mem_singleton.mpr rfl⟩
  have closing : Coded (signed "->" (by decide) f.returns ++ [sign f.colon ":"]) :=
    List.forall_mem_append.mpr ⟨coded_signed f.returns, List.forall_mem_singleton.mpr rfl⟩
  have params : Coded (sign f.opening "(" :: (f.params.pieces Parameter.pieces ++
      (signed "->" (by decide) f.returns ++ [sign f.colon ":"]))) :=
    List.forall_mem_cons.mpr ⟨rfl, List.forall_mem_append.mpr
      ⟨coded_listing coded_parameter f.params, closing⟩⟩
  exact List.forall_mem_append.mpr ⟨opener, List.forall_mem_cons.mpr ⟨rfl,
    List.forall_mem_append.mpr ⟨coded_types f.types, params⟩⟩⟩

theorem coded_header (lead : Filler) (c : Class V) : Coded (c.header lead) := by
  have arguments : Coded (c.arguments.elim [] fun a => sign a.1 "(" ::
      a.2.pieces Argument.pieces) := by
    cases c.arguments with
    | none => exact List.forall_mem_nil _
    | some arguments =>
      exact List.forall_mem_cons.mpr ⟨rfl, coded_listing coded_argument arguments.2⟩
  exact List.forall_mem_cons.mpr ⟨rfl, List.forall_mem_cons.mpr ⟨rfl, List.forall_mem_append.mpr
    ⟨coded_types c.types, List.forall_mem_append.mpr
      ⟨arguments, List.forall_mem_singleton.mpr rfl⟩⟩⟩⟩

end

/-! Tokens of definitions fit. -/

theorem fitting_opener {V : Type} [Writable V] (lead : Filler) (f : Function V) {next : List Char}
    (ends : Ends next) :
    Fitting [] (f.opener lead) next := by
  rw [Function.opener]
  cases f.async with
  | none => exact fitting_word ends rfl
  | some space => exact fitting_word (ends_word space.some) (fitting_word ends rfl)

section
variable {V : Type} [Writable V] {next : List Char}

theorem fitting_signed {s : String} {h : s ∈ Spelling.plainSymbols} (hdot : s ≠ ".")
    (v : Option (Filler × V)) (ends : Ends next) : Fitting [] (signed s h v) next := by
  cases v with
  | none => rfl
  | some v => exact fitting_sign hdot (Writable.opens v.2).plain (Writable.fitting v.2 ends)

theorem ends_signed {s : String} {h : s ∈ Spelling.plainSymbols} (hs : s ∈ endSymbols)
    (v : Option (Filler × V)) (ends : Ends next) :
    Ends (textOf (signed s h v) ++ next) := by
  cases v with
  | none => exact ends
  | some v => exact ends_sign hs

theorem fitting_parameter (p : Parameter V) (next : List Char) (ends : Ends next)
    (plain : Plain next) :
    Fitting [] p.pieces next := by
  cases p with
  | named gap name type value =>
    have behind : Ends (textOf (signed "=" (by decide) value) ++ next) :=
      ends_signed (by decide) value ends
    refine fitting_word ?_ (fitting_append (fitting_signed (by decide) type behind)
      (fitting_signed (by decide) value ends))
    rw [textOf_append, List.append_assoc]
    exact ends_signed (by decide) type behind
  | splat gap double inner name type =>
    have named : Fitting [] (word inner name.text name.spelled :: signed ":" (by decide) type)
        next :=
      fitting_word (ends_signed (by decide) type ends) (fitting_signed (by decide) type ends)
    cases double with
    | true => exact fitting_sign (by decide) plain_word named
    | false => exact fitting_sign (by decide) plain_word named
  | keywordOnly gap => exact fitting_sign (by decide) plain rfl
  | positionalOnly gap => exact fitting_sign (by decide) plain rfl

theorem fitting_argument (a : Argument V) (next : List Char) (ends : Ends next) (_ : Plain next) :
    Fitting [] a.pieces next := by
  cases a with
  | base value => exact Writable.fitting value ends
  | keyword gap name equals value =>
    exact fitting_word (ends_sign (by decide))
      (fitting_sign (by decide) (Writable.opens value).plain (Writable.fitting value ends))

theorem fitting_listing {α : Type} {f : α → List Printed}
    (hf : ∀ a next, Ends next → Plain next → Fitting [] (f a) next) (l : Listing α) :
    Fitting [] (l.pieces f) next := by
  induction l with
  | close gap => exact fitting_mark (by simp) rfl
  | last item gap =>
    have closing : Fitting [] [sign gap ")"] next := fitting_mark (by simp) rfl
    exact fitting_append (hf item _ (ends_sign (by decide)) (plain_mark (by simp))) closing
  | more item comma others ih =>
    have separated : Fitting [] (sign comma "," :: others.pieces f) next :=
      fitting_mark (by simp) ih
    exact fitting_append (hf item _ (ends_sign (by decide)) (plain_mark (by simp))) separated

omit [Writable V] in
theorem fitting_types {T : Type} [Generic T] (t : Option T) : Fitting [] (typesOf t) next := by
  cases t with
  | none => rfl
  | some t => exact Generic.fitting t

omit [Writable V] in
theorem ends_types {T : Type} [Generic T] (t : Option T) (ends : Ends next) :
    Ends (textOf (typesOf t) ++ next) := by
  cases t with
  | none => exact ends
  | some t =>
    obtain ⟨gap, rest, heq⟩ := Generic.opens t
    rw [typesOf, Option.elim_some, heq]
    exact ends_sign (by decide)

omit [Writable V] in
/-- A name and the type parameters behind it. -/
theorem fitting_name {T : Type} [Generic T] {gap : Filler} {name : Name} (t : Option T)
    {ps : List Printed} (ends : Ends (textOf ps ++ next)) (others : Fitting [] ps next) :
    Fitting [] (word gap name.text name.spelled :: (typesOf t ++ ps)) next := by
  refine fitting_word ?_ (fitting_append (fitting_types t) others)
  rw [textOf_append, List.append_assoc]
  exact ends_types t ends

theorem fitting_function (lead : Filler) (f : Function V) (ends : Ends next) :
    Fitting [] (f.whole lead) next := by
  have closing : Fitting [] [sign f.colon ":", idle] next :=
    fitting_sign (by decide) plain_word (fitting_word ends rfl)
  have params : Fitting [] (f.params.pieces Parameter.pieces ++
      (signed "->" (by decide) f.returns ++ [sign f.colon ":", idle])) next :=
    fitting_append (fitting_listing fitting_parameter f.params)
      (fitting_append (fitting_signed (by decide) f.returns (ends_sign (by decide))) closing)
  have whole : f.whole lead = f.opener lead ++ word f.gap f.name.text f.name.spelled ::
      (typesOf f.types ++ sign f.opening "(" :: (f.params.pieces Parameter.pieces ++
        (signed "->" (by decide) f.returns ++ [sign f.colon ":", idle]))) := by
    simp [Function.whole, Function.pieces]
  rw [whole]
  exact fitting_append (fitting_opener lead f (ends_word f.apart))
    (fitting_name f.types (ends_sign (by decide)) (fitting_mark (by simp) params))

theorem fitting_header (lead : Filler) (c : Class V) (plain : Plain next) :
    Fitting [] (c.header lead) next := by
  have colon : Fitting [] [sign c.colon ":"] next := fitting_sign (by decide) plain rfl
  rw [Class.header]
  cases c.arguments with
  | none =>
    exact fitting_word (ends_word c.apart) (fitting_name c.types (ends_sign (by decide)) colon)
  | some arguments =>
    refine fitting_word (ends_word c.apart) (fitting_name c.types (ends_sign (by decide)) ?_)
    exact fitting_mark (by simp)
      (fitting_append (fitting_listing fitting_argument arguments.2) colon)

theorem Function.whole_eq (lead : Filler) (f : Function V) :
    ∃ text h ps, f.whole lead = word lead text h :: ps := by
  rw [Function.whole, Function.pieces, Function.opener]
  cases f.async with
  | none => exact ⟨_, _, _, rfl⟩
  | some space => exact ⟨_, _, _, rfl⟩

theorem Definition.pieces_eq (lead : Filler) (d : Definition V) :
    ∃ text h ps, d.pieces lead = word lead text h :: ps := by
  cases d with
  | function f => exact f.whole_eq lead
  | classDef c => exact ⟨_, _, _, rfl⟩

omit [Writable V] in
theorem ends_stacked {α : Type} {f : Filler → α → List Printed}
    (opens : ∀ lead a, ∃ text h ps, f lead a = word lead text h :: ps) (width : Nat) (as : List α)
    (ends : Ends next) : Ends (textOf (stacked f width (lineStart width) as) ++ next) := by
  cases as with
  | nil => exact ends
  | cons a as =>
    obtain ⟨text, h, ps, heq⟩ := opens (lineStart width) a
    rw [stacked, heq]
    exact ends_word (List.cons_ne_nil _ _)

omit [Writable V] in
theorem fitting_stacked {α : Type} {f : Filler → α → List Printed}
    (opens : ∀ lead a, ∃ text h ps, f lead a = word lead text h :: ps)
    (hf : ∀ lead a {next : List Char}, Ends next → Fitting [] (f lead a) next)
    (width : Nat) (lead : Filler) (as : List α) (ends : Ends next) :
    Fitting [] (stacked f width lead as) next := by
  induction as generalizing lead with
  | nil => rfl
  | cons a as ih => exact fitting_append (hf lead a (ends_stacked opens width as ends)) (ih _)

theorem fitting_definition (lead : Filler) (d : Definition V) (ends : Ends next) :
    Fitting [] (d.pieces lead) next := by
  cases d with
  | function f => exact fitting_function lead f ends
  | classDef c =>
    rw [Definition.pieces]
    cases c.methods with
    | idle => exact fitting_append (fitting_header lead c plain_word) (fitting_word ends rfl)
    | block width positive first more inside =>
      refine fitting_append (fitting_header lead c ?_)
        (fitting_stacked Function.whole_eq (fun lead f => fitting_function lead f) width
          _ (first :: more) ends)
      obtain ⟨text, h, ps, heq⟩ := first.whole_eq (lineStart width)
      rw [Methods.pieces, stacked, heq]
      exact plain_word

theorem fitting_tokensOf (ds : List (Definition V)) : Fitting [] (tokensOf ds) ['\n'] :=
  fitting_stacked Definition.pieces_eq (fun lead d => fitting_definition lead d) 0 [] ds
    (by simp [Ends, endMarks])

end

end Written

end RepoAtlas.Python
