import RepoAtlas.Text.Segments

/-!
Path patterns. Within one part of a path `*` matches any characters, `?` one character and `[..]`
one character of a set; the part `**` matches any number of parts; `{a,b}` lists alternatives.
-/
namespace RepoAtlas.Path.Pattern
open RepoAtlas.Text

inductive Piece where
  | exactly (c : Char)
  | anyOne
  | anyRun
  | oneOf (negated : Bool) (ranges : List (Char × Char))
  deriving DecidableEq, Repr

inductive Part where
  /-- Any number of path parts. -/
  | span
  | one (pieces : List Piece)
  deriving DecidableEq, Repr

/-- The ranges of a character set and what follows its closing bracket; none if it is not closed.
A bracket that closes stands for itself in first place. -/
def readSet : Bool → List (Char × Char) → List Char → Option (List (Char × Char) × List Char)
  | _, _, [] => none
  | first, ranges, ']' :: cs =>
    if first then readSet false ((']', ']') :: ranges) cs else some (ranges.reverse, cs)
  | _, ranges, a :: '-' :: ']' :: cs => some (((a, a) :: ranges).reverse ++ [('-', '-')], cs)
  | _, ranges, a :: '-' :: b :: cs => readSet false ((a, b) :: ranges) cs
  | _, ranges, a :: cs => readSet false ((a, a) :: ranges) cs

/-- Reads the pieces of one part; a set that is not closed is read as plain characters. -/
def readPieces : Nat → List Char → List Piece
  | 0, _ => []
  | _, [] => []
  | n + 1, '*' :: cs => .anyRun :: readPieces n cs
  | n + 1, '?' :: cs => .anyOne :: readPieces n cs
  | n + 1, '\\' :: c :: cs => .exactly c :: readPieces n cs
  | n + 1, '[' :: cs =>
    let negated := cs.head? == some '!' || cs.head? == some '^'
    match readSet true [] (if negated then cs.tail else cs) with
    | some (ranges, rest) => .oneOf negated ranges :: readPieces n rest
    | none => .exactly '[' :: readPieces n cs
  | n + 1, c :: cs => .exactly c :: readPieces n cs

def readPart (s : String) : Part :=
  if s = "**" then .span else .one (readPieces s.toList.length s.toList)

def anySuffix {α : Type} (p : List α → Bool) : List α → Bool
  | [] => p []
  | c :: cs => p (c :: cs) || anySuffix p cs

def Piece.accepts : Piece → Char → Bool
  | .exactly a, c => a == c
  | .anyOne, _ => true
  | .anyRun, _ => true
  | .oneOf negated ranges, c => (ranges.any fun r => r.1 ≤ c && c ≤ r.2) != negated

def matchPieces : List Piece → List Char → Bool
  | [], cs => cs.isEmpty
  | .anyRun :: ps, cs => anySuffix (matchPieces ps) cs
  | p :: ps, c :: cs => p.accepts c && matchPieces ps cs
  | _ :: _, [] => false

def matchParts : List Part → List String → Bool
  | [], names => names.isEmpty
  | .span :: ps, names => anySuffix (matchParts ps) names
  | .one pieces :: ps, name :: names =>
    name != "" && matchPieces pieces name.toList && matchParts ps names
  | .one _ :: _, [] => false

/-- Splits at the commas of the outermost alternative and returns the choices together with what
follows its closing brace; none if it is not closed. -/
def readChoices :
    Nat → List Char → List (List Char) → List Char → Option (List (List Char) × List Char)
  | _, _, _, [] => none
  | 0, current, choices, '\x7d' :: cs => some ((current.reverse :: choices).reverse, cs)
  | 0, current, choices, ',' :: cs => readChoices 0 [] (current.reverse :: choices) cs
  | depth, current, choices, '\x7b' :: cs => readChoices (depth + 1) ('\x7b' :: current) choices cs
  | depth + 1, current, choices, '\x7d' :: cs => readChoices depth ('\x7d' :: current) choices cs
  | depth, current, choices, c :: cs => readChoices depth (c :: current) choices cs

/-- All texts that an expression with alternatives stands for. A brace group without a comma, or
without its closing brace, stands for itself. -/
def expand : Nat → List Char → List (List Char)
  | 0, cs => [cs]
  | _, [] => [[]]
  | n + 1, '\x7b' :: cs =>
    match readChoices 0 [] [] cs with
    | some (choices, rest) =>
      if choices.length < 2 then (expand n cs).map ('\x7b' :: ·)
      else choices.flatMap fun choice =>
        (expand n choice).flatMap fun head => (expand n rest).map fun tail => head ++ tail
    | none => (expand n cs).map ('\x7b' :: ·)
  | n + 1, c :: cs => (expand n cs).map (c :: ·)

/-- The parts of a pattern; `.` and empty parts carry no meaning. -/
def readParts (s : String) : List Part :=
  ((segments '/' s).filter fun part => part != "" && part != ".").map readPart

def alternatives (pattern : String) : List (List Part) :=
  (expand pattern.toList.length pattern.toList).map fun cs => readParts (String.ofList cs)

/-- Whether a pattern matches a path given by its parts. The empty pattern matches nothing. -/
def accepts (pattern : String) (names : List String) : Bool :=
  (alternatives pattern).any fun parts => !parts.isEmpty && matchParts parts names

end RepoAtlas.Path.Pattern
