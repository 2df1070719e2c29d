import RepoAtlas.Text.Identifier

/-!
Lexemes of Python text. Besides tokens proper there are comments and line continuations, because a
reader of the tree can see them. Whether a line break ends a statement is not decided here: each
lexeme carries the gap before it, and the grammar asks about the gap where a line may end.
-/
namespace RepoAtlas.Python

/-- A half-open range of character offsets. -/
structure Span where
  start : Nat
  stop : Nat
  deriving DecidableEq, Repr, Inhabited

inductive Token where
  /-- An identifier or a keyword; which one depends on the place. -/
  | word (text : String)
  | number
  /-- A complete string literal; `bare` if nothing stands before its quote. -/
  | string (bare : Bool)
  /-- The opening of a literal with replacement fields, up to its quote. -/
  | formatOpen
  | fieldOpen
  | conversion
  | formatColon
  | formatText
  | fieldClose
  | formatClose
  | symbol (text : String)
  | comment
  | continuation
  | endOfFile
  /-- The end of a line at a place where a statement may end; only the grammar speaks of it. -/
  | lineEnd
  /-- A place where no token starts, or a literal that does not end. -/
  | malformed
  deriving DecidableEq, Repr, Inhabited

def Token.Spelled : Token → Prop
  | .word text => Text.isIdentifier text = true
  | _ => True

/-- What lies between the end of one lexeme and the next token, as far as lines are concerned. -/
structure Gap where
  /-- A line ends in the gap. The end of the text counts as the end of a line. -/
  breaks : Bool
  /-- The width of the white space that the last line starts with. -/
  indent : Nat
  /-- The width before the first comment that stands on a line of its own. -/
  comment : Option Nat
  deriving DecidableEq, Repr, Inhabited

namespace Gap

def start : Gap := ⟨false, 0, none⟩

/-- Reads a gap. A space is one wide, a tab eight; carriage return and form feed start over; a line
continuation is passed over. Comments after a line break are passed over if `cross` is set; the
first flag of the walk says that one is being passed. -/
def scan (cross : Bool) : Bool → Gap → List Char → Gap
  | _, g, [] => ⟨true, 0, g.comment⟩
  | true, g, c :: cs =>
    if c == '\n' then scan cross false { g with indent := 0 } cs else scan cross true g cs
  | false, g, '\\' :: '\n' :: cs => scan cross false g cs
  | false, g, '\\' :: '\r' :: '\n' :: cs => scan cross false g cs
  | false, g, ['\\'] => ⟨true, 0, g.comment⟩
  | false, g, c :: cs =>
    if c == '\n' then scan cross false { g with breaks := true, indent := 0 } cs
    else if c == ' ' then scan cross false { g with indent := g.indent + 1 } cs
    else if c == '\t' then scan cross false { g with indent := g.indent + 8 } cs
    else if c == '\r' || c == '\x0c' then scan cross false { g with indent := 0 } cs
    else if c == '#' && cross && g.breaks then
      scan cross true { g with comment := g.comment <|> some g.indent } cs
    else g

def full (cs : List Char) : Gap := scan true false start cs

def short (cs : List Char) : Gap := scan false false start cs

/-- Whether the next token closes a block of the given width. A comment that belongs to the block
keeps it open. -/
def closes (g : Gap) (width : Nat) : Bool :=
  g.breaks && g.indent < width && (g.comment.all fun w => w < width)

end Gap

structure Lexeme where
  token : Token
  span : Span
  /-- The gap from the previous lexeme to the next token. -/
  gap : Gap
  /-- The gap from the previous lexeme to the next token or comment. -/
  near : Gap
  spelled : token.Spelled
  deriving DecidableEq, Repr

end RepoAtlas.Python
