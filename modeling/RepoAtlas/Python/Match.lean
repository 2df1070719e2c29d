import RepoAtlas.Python.Block

/-!
The patterns of `case` clauses and the statement that holds them. The word `match` starts such a
statement only where a whole header follows; otherwise it is a name.
-/
namespace RepoAtlas.Python

def patternLiterals (nested : Nested) (rest : Mode) : Nat → Parser Unit
  | 0 => failure
  | n + 1 => do
    match ← look rest with
    | .string _ | .formatOpen =>
      let _ ← literal nested rest
      patternLiterals nested rest n
    | _ => pure ()

def patternNumber (first rest : Mode) : Parser Unit := do
  let signed ← acceptSymbol first "-"
  expect (if signed then .unfinished else first) .number
  let t ← look rest
  if t == .symbol "+" || t == .symbol "-" then
    let _ ← advance rest
    expect .unfinished .number

def patternEntry (simple : Mode → Mode → Parser Unit) (pattern : Mode → Mode → Parser Unit) :
    Parser Unit := do
  match ← look .bracket with
  | .symbol "*" | .symbol "**" =>
    let _ ← advance .bracket
    let _ ← identifier .unfinished
  | _ =>
    simple .bracket .unfinished
    expectSymbol .unfinished ":"
    pattern .unfinished .bracket

def patternItems (item : Parser Unit) (close : String) : Parser Unit := do
  if ← acceptSymbol .bracket close then pure ()
  else
    item
    let _ ← moreItems item close (← bound)

def simplePattern (nested : Nested) (simple pattern : Mode → Mode → Parser Unit)
    (first rest : Mode) :
    Parser Unit := do
  match ← look first with
  | .symbol "*" | .symbol "**" =>
    let _ ← advance first
    let _ ← identifier .unfinished
  | .symbol "[" =>
    let _ ← advance first
    patternItems (pattern .bracket .bracket) "]"
  | .symbol "(" =>
    let _ ← advance first
    patternItems (pattern .bracket .bracket) ")"
  | .symbol "\x7b" =>
    let _ ← advance first
    patternItems (patternEntry simple pattern) "\x7d"
  | .string _ | .formatOpen =>
    let _ ← literal nested first
    patternLiterals nested rest (← bound)
  | .number | .symbol "-" => patternNumber first rest
  | .word w =>
    if constants.contains w then
      let _ ← advance first
    else
      let _ ← dottedName first rest
      if ← acceptSymbol rest "(" then patternItems (pattern .bracket .bracket) ")"
  | _ => failure

def alternatives (simple : Mode → Mode → Parser Unit) (rest : Mode) : Nat → Parser Unit
  | 0 => failure
  | n + 1 => do
    if ← acceptSymbol rest "|" then
      simple .unfinished rest
      alternatives simple rest n

def patternAlias (rest : Mode) : Parser Unit := do
  if ← acceptWord rest "as" then
    let _ ← identifier .unfinished

def anyPattern (simple : Mode → Mode → Parser Unit) (first rest : Mode) : Parser Unit := do
  let keyword ← match ← look first with
    | .word w => pure (!constants.contains w && (← lookSecond first rest) == .symbol "=")
    | _ => pure false
  if keyword then
    let _ ← advance first
    let _ ← advance rest
    simple .unfinished rest
  else
    simple first rest
    alternatives simple rest (← bound)
    patternAlias rest

def casePattern (nested : Nested) : Nat → Mode → Mode → Parser Unit
  | 0, _, _ => failure
  | n + 1, first, rest =>
    let inner := casePattern nested n
    simplePattern nested inner (anyPattern inner) first rest

def casePatterns (nested : Nested) (bound : Nat) : Nat → Parser Unit
  | 0 => failure
  | n + 1 => do
    anyPattern (casePattern nested bound) .unfinished .unfinished
    if ← acceptSymbol .unfinished "," then
      let t ← look .unfinished
      if t != .symbol ":" && t != .word "if" then casePatterns nested bound n

def caseClauses (k : Context) : Nat → Blocks Unit
  | 0 => pure ()
  | n + 1 => do
    let c ← get
    match c.rest with
    | [] => pure ()
    | l :: rest =>
      if l.gap.closes c.width || l.token == .endOfFile then pure ()
      else if isTrivia l.token then
        take l rest
        caseClauses k n
      else
        from? l.span.start do
          expectWord .bracket "case"
          let m ← bound
          casePatterns k.nested m m
          if ← acceptWord .unfinished "if" then
            let _ ← k.nested .header
          colon
        let _ ← k.body
        caseClauses k n

def matchHeader (nested : Nested) : Parser Unit := do
  expectWord .bracket "match"
  let _ ← items nested .header
  colon

/-- Whether clauses, or nothing at all, follow the header on later lines. -/
def clausesFollow (c : Cursor) : Option Nat :=
  match c.rest.dropWhile fun l => l.token == .comment && !l.gap.breaks with
  | [] => some 0
  | l :: rest =>
    if !l.gap.breaks then none
    else if l.gap.indent ≤ c.width then some c.width
    else
      match (l :: rest).dropWhile fun l => isTrivia l.token with
      | first :: _ => if first.token == .word "case" then some l.gap.indent else none
      | [] => none

/-- A `match` statement, or whatever else starts with that word. -/
def matchStatement (k : Context) (otherwise : Blocks (List Stmt)) : Blocks (List Stmt) := fun c =>
  match matchHeader k.nested c with
  | none => otherwise c
  | some (_, after) =>
    match clausesFollow after with
    | none => otherwise c
    | some width =>
      let clauses : Blocks (List Stmt) := do
        trailing (← stepBound)
        if after.width < width then indented width (caseClauses k (← stepBound))
        return [.other]
      clauses after

end RepoAtlas.Python
