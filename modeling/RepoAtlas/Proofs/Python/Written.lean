import RepoAtlas.Proofs.Python.Pieces
import RepoAtlas.Python.Outline
import RepoAtlas.Text.Segments

/-!
Import statements as they are written: modules, or names of a module, up to the end of the line or
in parentheses over several lines. Each statement has a text, the imports it stands for and the
pieces that its text is made of.
-/
namespace RepoAtlas.Python.Written
open RepoAtlas.Text

def keywords : List String :=
  ["False", "None", "True", "and", "as", "assert", "async", "await", "break", "class", "continue",
   "def", "del", "elif", "else", "except", "finally", "for", "from", "global", "if", "import", "in",
   "is", "lambda", "nonlocal", "not", "or", "pass", "raise", "return", "try", "while", "with",
   "yield"]

structure Name where
  text : String
  spelled : isIdentifier text = true
  ordinary : text ∉ keywords

structure Dotted where
  first : Name
  more : List Name

def Dotted.text (d : Dotted) : String := dotted (d.first.text :: d.more.map Name.text)

structure Item where
  path : Dotted
  given : Option Name

def Item.text (i : Item) : String := i.path.text ++ i.given.elim "" fun name => " as " ++ name.text

def Item.boundAs (i : Item) : String := i.given.elim i.path.text Name.text

structure Blank where
  chars : List Char
  blank : ∀ c ∈ chars, isGapChar c = true

def Blank.text (b : Blank) : String := String.ofList b.chars

/-- What is imported from a module. In parentheses each item has its own white space before it, and
a comma may come last. -/
inductive Names where
  | wildcard
  | line (first : Item) (more : List Item)
  | parens (first : Blank × Item) (more : List (Blank × Item)) (comma : Bool) (closing : Blank)

def Names.text : Names → String
  | .wildcard => "*"
  | .line first more => joinWith ", " ((first :: more).map Item.text)
  | .parens first more comma closing =>
    "(" ++ joinWith "," ((first :: more).map fun i => i.1.text ++ i.2.text) ++
      (if comma then "," else "") ++ closing.text ++ ")"

/-- A module by its own name, or from so many packages up on. A word of the grammar stands where the
first name of an absolute module is `__future__`. -/
inductive Provenance where
  | absolute (module : Dotted) (ordinary : module.first.text ≠ "__future__")
  | relative (dots : Nat) (some : 0 < dots) (module : Option Dotted)

namespace Provenance

def level : Provenance → Nat
  | .absolute .. => 0
  | .relative dots _ _ => dots

def module? : Provenance → Option String
  | .absolute module _ => some module.text
  | .relative _ _ module => module.map Dotted.text

def text : Provenance → String
  | .absolute module _ => module.text
  | .relative dots _ module => String.ofList (List.replicate dots '.') ++ module.elim "" Dotted.text

end Provenance

def Names.items? : Names → Option (List Item)
  | .wildcard => none
  | .line first more => some (first :: more)
  | .parens first more _ _ => some (first.2 :: more.map Prod.snd)

def Names.imports (origin : Provenance) (names : Names) : List Import :=
  match names.items? with
  | none => [⟨"*", origin.module?, "*", origin.level, .wildcard⟩]
  | some items => items.map fun i => ⟨i.boundAs, origin.module?, i.path.text, origin.level, .member⟩

inductive Statement where
  | modules (first : Item) (more : List Item)
  | members (origin : Provenance) (names : Names)

namespace Statement

def text : Statement → String
  | .modules first more => "import " ++ joinWith ", " ((first :: more).map Item.text)
  | .members origin names => "from " ++ origin.text ++ " import " ++ names.text

def imports : Statement → List Import
  | .modules first more =>
    (first :: more).map fun i => ⟨i.boundAs, some i.path.text, i.path.text, 0, .module⟩
  | .members origin names => names.imports origin

end Statement

def print (ss : List Statement) : String := String.join (ss.map fun s => s.text ++ "\n")

/-! Pieces of statements. -/

def memberPieces (names : List Name) : List Piece :=
  names.flatMap fun name => [.symbol [] ".", .word [] name.text]

def Dotted.pieces (gap : List Char) (d : Dotted) : List Piece :=
  .word gap d.first.text :: memberPieces d.more

def Item.pieces (gap : List Char) (i : Item) : List Piece :=
  i.path.pieces gap ++ i.given.elim [] fun name => [.word [' '] "as", .word [' '] name.text]

def morePieces (items : List (List Char × Item)) : List Piece :=
  items.flatMap fun i => .symbol [] "," :: i.2.pieces i.1

def closePieces (comma : Bool) (closing : List Char) : List Piece :=
  (if comma then [.symbol [] ","] else []) ++ [.symbol closing ")"]

def linePieces (first : Item) (more : List Item) : List Piece :=
  first.pieces [' '] ++ morePieces (more.map fun i => ([' '], i))

def Names.pieces : Names → List Piece
  | .wildcard => [.symbol [' '] "*"]
  | .line first more => linePieces first more
  | .parens first more comma closing =>
    .symbol [' '] "(" :: (first.2.pieces first.1.chars ++
      (morePieces (more.map fun i => (i.1.chars, i.2)) ++ closePieces comma closing.chars))

/-- Three dots are one symbol. -/
def dotPieces : List Char → Nat → List Piece
  | _, 0 => []
  | gap, 1 => [.symbol gap "."]
  | gap, 2 => [.symbol gap ".", .symbol [] "."]
  | gap, n + 3 => .symbol gap "..." :: dotPieces [] n

def Provenance.pieces : Provenance → List Piece
  | .absolute module _ => module.pieces [' ']
  | .relative dots _ module => dotPieces [' '] dots ++ module.elim [] (Dotted.pieces [])

def Statement.pieces (gap : List Char) : Statement → List Piece
  | .modules first more => .word gap "import" :: linePieces first more
  | .members origin names =>
    .word gap "from" :: (origin.pieces ++ .word [' '] "import" :: names.pieces)

theorem toList_joinWith (sep : String) (part : String) (parts : List String) :
    (joinWith sep (part :: parts)).toList =
      part.toList ++ parts.flatMap fun p => sep.toList ++ p.toList := by
  simp only [joinWith]
  induction parts generalizing part with
  | nil => simp
  | cons next parts ih =>
    rw [String.intercalate_cons_cons, String.toList_append, String.toList_append, ih,
      List.flatMap_cons, List.append_assoc, List.append_assoc]

theorem charsOf_flatMap {α : Type} (xs : List α) (f : α → List Piece) :
    charsOf (xs.flatMap f) = xs.flatMap fun x => charsOf (f x) :=
  List.flatMap_assoc

section
variable (gap : List Char)

theorem chars_word (text : String) : (Piece.word gap text).chars = gap ++ text.toList := rfl

theorem chars_symbol (text : String) : (Piece.symbol gap text).chars = gap ++ text.toList := rfl

theorem charsOf_dotted (d : Dotted) : charsOf (d.pieces gap) = gap ++ d.text.toList := by
  simp [Dotted.pieces, memberPieces, Dotted.text, dotted, toList_joinWith, charsOf_flatMap,
    chars_word, chars_symbol, List.flatMap_map]

theorem charsOf_item (i : Item) : charsOf (i.pieces gap) = gap ++ i.text.toList := by
  cases h : i.given <;> simp [Item.pieces, Item.text, h, charsOf_dotted, chars_word]

theorem charsOf_line (first : Item) (more : List Item) :
    charsOf (linePieces first more) =
      ' ' :: (joinWith ", " ((first :: more).map Item.text)).toList := by
  simp [linePieces, morePieces, toList_joinWith, charsOf_flatMap, charsOf_item, chars_symbol,
    List.flatMap_map]

theorem charsOf_names (names : Names) : charsOf names.pieces = ' ' :: names.text.toList := by
  cases names with
  | wildcard => rfl
  | line first more => exact charsOf_line first more
  | parens first more comma closing =>
    cases comma <;> simp [Names.pieces, morePieces, closePieces, Names.text, toList_joinWith,
      charsOf_flatMap, charsOf_item, chars_symbol, List.flatMap_map, Blank.text]

theorem charsOf_dots (n : Nat) :
    charsOf (dotPieces gap n) = (if n = 0 then [] else gap) ++ List.replicate n '.' := by
  fun_induction dotPieces gap n with
  | case1 => rfl
  | case2 | case3 => simp [chars_symbol, List.replicate_succ]
  | case4 gap n ih => simp [chars_symbol, ih, List.replicate_succ]

theorem charsOf_origin (origin : Provenance) :
    charsOf origin.pieces = ' ' :: origin.text.toList := by
  cases origin with
  | absolute module _ => simp [Provenance.pieces, Provenance.text, charsOf_dotted]
  | relative dots some module =>
    have dotted : charsOf (dotPieces [' '] dots) = ' ' :: List.replicate dots '.' := by
      rw [charsOf_dots, if_neg (Nat.pos_iff_ne_zero.mp some)]
      rfl
    cases module <;> simp [Provenance.pieces, Provenance.text, charsOf_dotted, dotted]

theorem charsOf_statement (s : Statement) : charsOf (s.pieces gap) = gap ++ s.text.toList := by
  cases s with
  | modules first more => simp [Statement.pieces, Statement.text, charsOf_line, chars_word]
  | members origin names =>
    simp [Statement.pieces, Statement.text, charsOf_origin, charsOf_names, chars_word]

end

/-! Pieces of statements fit. -/

/-- The characters that can follow a name. -/
theorem stops_of_mem {c : Char} (h : c ∈ [' ', '\t', '\n', '\r', '.', ',', ')']) (cs : List Char) :
    Stops (c :: cs) := by
  intro d hd
  obtain rfl : c = d := Option.some.inj hd
  simp only [List.mem_cons, List.not_mem_nil, or_false] at h
  rcases h with rfl | rfl | rfl | rfl | rfl | rfl | rfl <;> decide

theorem stops_gap (b : Blank) {c : Char} (h : c ∈ [' ', '\t', '\n', '\r', '.', ',', ')'])
    (cs : List Char) : Stops (b.chars ++ c :: cs) := by
  cases hb : b.chars with
  | nil => exact stops_of_mem h cs
  | cons d ds =>
    have gap := b.blank d (by rw [hb]; exact List.mem_cons_self)
    refine stops_of_mem ?_ _
    rcases isGapChar_iff.mp gap with rfl | rfl | rfl | rfl <;> simp

section
variable {gap next : List Char}

/-- A name starts with a letter. -/
theorem Name.toList_eq (name : Name) :
    ∃ c cs, name.text.toList = c :: cs ∧ isIdentStart c = true := by
  have spelled := name.spelled
  rw [isIdentifier] at spelled
  split at spelled
  · rename_i c cs heq
    exact ⟨c, cs, heq, (Bool.and_eq_true_iff.mp spelled).1⟩
  · cases spelled

theorem not_isDigit_of_isIdentStart {c : Char} (h : isIdentStart c = true) : c.isDigit = false := by
  have digits : ∀ n < 58, 48 ≤ n → isIdentStart (Char.ofNat n) = false := by decide
  by_contra digit
  simp only [Bool.not_eq_false, Char.isDigit, Bool.and_eq_true, decide_eq_true_eq, ge_iff_le,
    UInt32.le_iff_toNat_le] at digit
  have := digits c.toNat (Nat.lt_succ_of_le digit.2) digit.1
  rw [Char.ofNat_toNat, h] at this
  cases this

/-- A dot before a name. -/
theorem fits_dot_name (hgap : ∀ c ∈ gap, isGapChar c = true) (name : Name) :
    (Piece.symbol gap ".").Fits (name.text.toList ++ next) := by
  obtain ⟨c, cs, text, start⟩ := name.toList_eq
  rw [text, List.cons_append]
  refine fits_dot hgap ?_ ?_
  · intro d hd
    obtain rfl : c = d := Option.some.inj hd
    exact not_isDigit_of_isIdentStart start
  · intro rest heq
    obtain ⟨rfl, _⟩ := List.cons.inj heq
    exact absurd start (by decide)

theorem blank_space : ∀ c ∈ [' '], isGapChar c = true := List.forall_mem_singleton.mpr rfl

theorem blank_break : ∀ c ∈ ['\n'], isGapChar c = true := List.forall_mem_singleton.mpr rfl

theorem blank_nil : ∀ c ∈ ([] : List Char), isGapChar c = true := by simp

theorem fitted_dotted (hgap : ∀ c ∈ gap, isGapChar c = true) (d : Dotted) (hnext : Stops next) :
    Fitted (d.pieces gap) next := by
  have members : Fitted (memberPieces d.more) next ∧
      Stops (charsOf (memberPieces d.more) ++ next) := by
    induction d.more with
    | nil => exact ⟨trivial, hnext⟩
    | cons name names ih =>
      obtain ⟨fitted, stops⟩ := ih
      refine ⟨⟨?_, fits_word name.spelled stops blank_nil, fitted⟩,
        stops_of_mem (c := '.') (by simp) _⟩
      simpa [chars_word, memberPieces] using fits_dot_name blank_nil name
  exact ⟨fits_word d.first.spelled members.2 hgap, members.1⟩

theorem fitted_item (hgap : ∀ c ∈ gap, isGapChar c = true) (i : Item) (hnext : Stops next) :
    Fitted (i.pieces gap) next := by
  cases given : i.given with
  | none =>
    rw [Item.pieces, given]
    exact fitted_append.mpr ⟨fitted_dotted hgap i.path hnext, trivial⟩
  | some name =>
    rw [Item.pieces, given]
    refine fitted_append.mpr ⟨fitted_dotted hgap i.path (stops_of_mem (by simp) _), ?_, ?_, trivial⟩
    · exact fits_word (by decide) (stops_of_mem (by simp) _) blank_space
    · exact fits_word name.spelled hnext blank_space

theorem fitted_more {items : List (List Char × Item)}
    (hgap : ∀ i ∈ items, ∀ c ∈ i.1, isGapChar c = true) (hnext : Stops next) :
    Fitted (morePieces items) next ∧ Stops (charsOf (morePieces items) ++ next) := by
  induction items with
  | nil => exact ⟨trivial, hnext⟩
  | cons i items ih =>
    obtain ⟨first, others⟩ := List.forall_mem_cons.mp hgap
    obtain ⟨fitted, stops⟩ := ih others
    refine ⟨fitted_append.mpr ⟨⟨fits_comma blank_nil, ?_⟩, fitted⟩,
      stops_of_mem (c := ',') (by simp) _⟩
    exact fitted_item first i.2 stops

theorem fitted_line (first : Item) (more : List Item) (hnext : Stops next) :
    Fitted (linePieces first more) next := by
  have gaps : ∀ i ∈ more.map fun i => ([' '], i), ∀ c ∈ i.1, isGapChar c = true := by
    intro i hi
    obtain ⟨_, _, rfl⟩ := List.mem_map.mp hi
    exact blank_space
  obtain ⟨fitted, stops⟩ := fitted_more gaps hnext
  exact fitted_append.mpr ⟨fitted_item blank_space first stops, fitted⟩

/-- Names at the end of a line. -/
theorem fitted_names (names : Names) (rest : List Char) : Fitted names.pieces ('\n' :: rest) := by
  cases names with
  | wildcard => exact ⟨fits_star blank_space, trivial⟩
  | line first more => exact fitted_line first more (stops_of_mem (by simp) _)
  | parens first more comma closing =>
    have closed : Fitted (closePieces comma closing.chars) ('\n' :: rest) := by
      refine fitted_append.mpr ⟨?_, fits_closing closing.blank, trivial⟩
      split
      · exact ⟨fits_comma blank_nil, trivial⟩
      · trivial
    have stops : Stops (charsOf (closePieces comma closing.chars) ++ '\n' :: rest) := by
      cases comma with
      | true => exact stops_of_mem (c := ',') (by simp) _
      | false =>
        simpa [closePieces, chars_symbol] using stops_gap closing (c := ')') (by simp)
          ('\n' :: rest)
    have gaps : ∀ i ∈ more.map fun i => (i.1.chars, i.2), ∀ c ∈ i.1, isGapChar c = true := by
      intro i hi
      obtain ⟨i, _, rfl⟩ := List.mem_map.mp hi
      exact i.1.blank
    obtain ⟨fitted, stops⟩ := fitted_more gaps stops
    refine ⟨fits_opening blank_space, fitted_append.mpr ⟨?_, fitted_append.mpr ⟨fitted, closed⟩⟩⟩
    rw [charsOf_append, List.append_assoc]
    exact fitted_item first.1.blank first.2 stops

theorem fitted_dots (n : Nat) (hgap : ∀ c ∈ gap, isGapChar c = true)
    (hnext : ∀ d ∈ next.head?, d.isDigit = false ∧ d ≠ '.') : Fitted (dotPieces gap n) next := by
  have digit : ∀ d ∈ next.head?, d.isDigit = false := fun d hd => (hnext d hd).1
  have last {gap : List Char} (hgap : ∀ c ∈ gap, isGapChar c = true) :
      (Piece.symbol gap ".").Fits next :=
    fits_dot hgap digit fun rest heq => (hnext '.' (by rw [heq]; rfl)).2 rfl
  fun_induction dotPieces gap n with
  | case1 => trivial
  | case2 => exact ⟨last hgap, trivial⟩
  | case3 =>
    refine ⟨fits_dot hgap (by simp [chars_symbol]) ?_, last blank_nil, trivial⟩
    intro rest heq
    have behind : next = '.' :: rest := by simpa [chars_symbol] using heq
    exact (hnext '.' (by rw [behind]; rfl)).2 rfl
  | case4 _ _ ih => exact ⟨fits_ellipsis hgap, ih blank_nil⟩

theorem fitted_origin (origin : Provenance) (rest : List Char) :
    Fitted origin.pieces (' ' :: rest) := by
  have space : Stops (' ' :: rest) := stops_of_mem (by simp) _
  cases origin with
  | absolute module _ => exact fitted_dotted blank_space module space
  | relative dots some module =>
    cases module with
    | none =>
      refine fitted_append.mpr ⟨fitted_dots dots blank_space ?_, trivial⟩
      simp
    | some module =>
      refine fitted_append.mpr ⟨fitted_dots dots blank_space ?_,
        fitted_dotted blank_nil module space⟩
      obtain ⟨c, cs, text, start⟩ := module.first.toList_eq
      intro d hd
      obtain rfl : c = d := by simpa [Dotted.pieces, chars_word, text] using hd
      refine ⟨not_isDigit_of_isIdentStart start, ?_⟩
      rintro rfl
      exact absurd start (by decide)

theorem fitted_statement (hgap : ∀ c ∈ gap, isGapChar c = true) (s : Statement) (rest : List Char) :
    Fitted (s.pieces gap) ('\n' :: rest) := by
  cases s with
  | modules first more =>
    refine ⟨fits_word (by decide) ?_ hgap, fitted_line first more (stops_of_mem (by simp) _)⟩
    rw [charsOf_line]
    exact stops_of_mem (by simp) _
  | members origin names =>
    refine ⟨fits_word (by decide) ?_ hgap, fitted_append.mpr ⟨fitted_origin origin _, ?_⟩⟩
    · rw [charsOf_append, charsOf_origin]
      exact stops_of_mem (by simp) _
    · refine ⟨fits_word (by decide) ?_ blank_space, fitted_names names rest⟩
      rw [charsOf_names]
      exact stops_of_mem (by simp) _

end

/-! Texts of statements. -/

def piecesOf : List Char → List Statement → List Piece
  | _, [] => []
  | gap, s :: ss => s.pieces gap ++ piecesOf ['\n'] ss

theorem charsOf_piecesOf (gap : List Char) (s : Statement) (ss : List Statement) :
    charsOf (piecesOf gap (s :: ss)) ++ ['\n'] = gap ++ (print (s :: ss)).toList := by
  induction ss generalizing gap s with
  | nil => simp [piecesOf, print, charsOf_statement]
  | cons s' ss ih =>
    have rest := ih ['\n'] s'
    rw [piecesOf, charsOf_append, List.append_assoc, rest, charsOf_statement]
    simp [print]

theorem fitted_piecesOf {gap : List Char} (hgap : ∀ c ∈ gap, isGapChar c = true)
    (ss : List Statement) : Fitted (piecesOf gap ss) ['\n'] := by
  induction ss generalizing gap with
  | nil => trivial
  | cons s ss ih =>
    refine fitted_append.mpr ⟨?_, ih blank_break⟩
    cases ss with
    | nil => exact fitted_statement hgap s []
    | cons s' ss =>
      rw [charsOf_piecesOf]
      exact fitted_statement hgap s _

/-- The lexemes of printed statements. -/
theorem lex_print (ss : List Statement) :
    ∃ ls last rest, (print ss).toList = charsOf (piecesOf [] ss) ++ rest ∧
      lex (print ss).toList = ls ++ [last] ∧ Lexed 0 (piecesOf [] ss) ls ∧
      last.token = .endOfFile ∧ last.gap.breaks = true := by
  cases ss with
  | nil =>
    obtain ⟨ls, last, heq, lexed, token, breaks⟩ := @lex_pieces [] [] trivial blank_nil
    exact ⟨ls, last, [], rfl, heq, lexed, token, breaks⟩
  | cons s ss =>
    have text := charsOf_piecesOf [] s ss
    obtain ⟨ls, last, heq, lexed⟩ := lex_pieces (fitted_piecesOf blank_nil (s :: ss)) blank_break
    rw [text] at heq
    exact ⟨ls, last, ['\n'], text.symm, heq, lexed⟩

end RepoAtlas.Python.Written
