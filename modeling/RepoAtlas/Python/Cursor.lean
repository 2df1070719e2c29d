import RepoAtlas.Python.Token

/-!
Reading lexemes in the ways the grammar needs: inside a statement that may end at a line break,
inside brackets, and in the middle of something unfinished. Comments and line continuations stay in
the cursor until a token behind them is taken, so that a reader who wants to see them can.
-/
namespace RepoAtlas.Python

structure Cursor where
  rest : List Lexeme
  /-- The end of the last lexeme taken. -/
  stop : Nat
  /-- The indentation of the innermost open block. -/
  width : Nat
  /-- More than the number of lexemes, which bounds every repetition. -/
  bound : Nat
  deriving Repr

inductive Mode where
  /-- A line break ends the statement. -/
  | line
  /-- Line breaks are white space; a closing bracket may follow. -/
  | bracket
  /-- Line breaks are white space, but the line may not lie outside the block. -/
  | unfinished
  deriving DecidableEq, Repr

abbrev Parser := StateT Cursor Option

def isTrivia (t : Token) : Bool := t == .comment || t == .continuation

/-- Whether a lexeme stands outside its block. A quote in first place is let through. -/
def leavesBlock (width : Nat) (l : Lexeme) : Bool :=
  l.near.breaks && l.near.indent < width && l.token != .string true

def view (m : Mode) (width : Nat) : List Lexeme → Option (Token × List Lexeme)
  | [] => some (.endOfFile, [])
  | l :: rest =>
    match m with
    | .line =>
      if l.gap.breaks || l.token == .comment then some (.lineEnd, l :: rest)
      else if l.token == .continuation then view m width rest
      else some (l.token, l :: rest)
    | .bracket => if isTrivia l.token then view m width rest else some (l.token, l :: rest)
    | .unfinished =>
      if leavesBlock width l then none
      else if isTrivia l.token then view m width rest
      else some (l.token, l :: rest)

/-- The next token; the cursor stays. -/
def look (m : Mode) : Parser Token := fun c => (view m c.width c.rest).map fun r => (r.1, c)

def startOffset (m : Mode) : Parser Nat := fun c =>
  match view m c.width c.rest with
  | some (_, l :: _) => some (l.span.start, c)
  | _ => none

def advance (m : Mode) : Parser Lexeme := fun c =>
  match view m c.width c.rest with
  | some (t, l :: rest) =>
    if t == .lineEnd then none else some (l, { c with rest := rest, stop := l.span.stop })
  | _ => none

def accept (m : Mode) (t : Token) : Parser Bool := do
  if (← look m) == t then
    let _ ← advance m
    return true
  else return false

def expect (m : Mode) (t : Token) : Parser Unit := do
  if (← look m) == t then
    let _ ← advance m
  else failure

def acceptSymbol (m : Mode) (s : String) : Parser Bool := accept m (.symbol s)

def expectSymbol (m : Mode) (s : String) : Parser Unit := expect m (.symbol s)

def acceptWord (m : Mode) (w : String) : Parser Bool := accept m (.word w)

def expectWord (m : Mode) (w : String) : Parser Unit := expect m (.word w)

/-- Takes a word as an identifier, whatever it spells. -/
def identifier (m : Mode) : Parser (String × Span) := do
  match ← look m with
  | .word text =>
    let l ← advance m
    return (text, l.span)
  | _ => failure

def lookSecond (first second : Mode) : Parser Token := do
  let c ← get
  let _ ← advance first
  let t ← look second
  set c
  return t

def continuations : Parser (List Span) := do
  let c ← get
  let trivia := c.rest.takeWhile fun l => isTrivia l.token
  return (trivia.filter fun l => l.token == .continuation).map (·.span)

def bound : Parser Nat := do return (← get).bound

def lastStop : Parser Nat := do return (← get).stop

end RepoAtlas.Python
