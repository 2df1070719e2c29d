/-!
The value of a string literal from its spelling: the letters before the quote, the quote, and the
text with its escapes.
-/
namespace RepoAtlas.Python

def escapes : List (Char × Char) :=
  [('\\', '\\'), ('\x27', '\x27'), ('"', '"'), ('a', '\x07'), ('b', '\x08'), ('f', '\x0c'),
   ('n', '\n'), ('r', '\r'), ('t', '\t'), ('v', '\x0b')]

/-- Replaces the simple escapes and drops escaped line breaks; any other backslash stays, and so
does the character after it. -/
def unescape : List Char → List Char
  | '\\' :: '\n' :: cs => unescape cs
  | '\\' :: '\r' :: '\n' :: cs => unescape cs
  | '\\' :: c :: cs =>
    match escapes.lookup c with
    | some value => value :: unescape cs
    | none => '\\' :: c :: unescape cs
  | c :: cs => c :: unescape cs
  | [] => []

def isLiteralLetter (c : Char) : Bool := "rRuUbBfF".toList.contains c

def isTripleQuoted : List Char → Bool
  | a :: b :: c :: _ => (a == '"' || a == '\x27') && a == b && b == c
  | _ => false

/-- The value of a literal; none for bytes and for literals with replacement fields. -/
def literalValue (spelling : List Char) : Option (List Char) :=
  let letters := (spelling.takeWhile isLiteralLetter).map Char.toLower
  if letters.contains 'f' || letters.contains 'b' then none
  else
    let body := spelling.drop letters.length
    let width := if isTripleQuoted body then 3 else 1
    let inner := (body.take (body.length - width)).drop width
    some (if letters.contains 'r' then inner else unescape inner)

end RepoAtlas.Python
