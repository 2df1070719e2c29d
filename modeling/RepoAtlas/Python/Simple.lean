import RepoAtlas.Python.Expression

/-!
Statements that fit on a line: imports, assignments, bare expressions and the statements that start
with a word of their own. A statement can start with any word that is not reserved at that place, so
that unknown words are names.
-/
namespace RepoAtlas.Python

def dottedName (first rest : Mode) : Parser Span := do
  let (_, s) ← identifier first
  let rec members : Nat → Parser Unit
    | 0 => failure
    | n + 1 => do
      if ← acceptSymbol rest "." then
        let _ ← identifier .unfinished
        members n
  members (← bound)
  return ⟨s.start, ← lastStop⟩

def importItem (first rest : Mode) : Parser ImportItem := do
  let path ← dottedName first rest
  if ← acceptWord rest "as" then
    let (given, _) ← identifier .unfinished
    return ⟨path, some given⟩
  else return ⟨path, none⟩

def importLine (first : Mode) : Nat → Parser (List ImportItem)
  | 0 => failure
  | n + 1 => do
    let item ← importItem first .line
    if ← acceptSymbol .line "," then
      let t ← look .line
      if t == .lineEnd || t == .symbol ";" || t == .endOfFile then return [item]
      else return item :: (← importLine .line n)
    else return [item]

def importList : Parser (List ImportItem) := do
  if ← acceptSymbol .unfinished "(" then
    let first ← importItem .unfinished .bracket
    return first :: (← moreItems (importItem .bracket .bracket) ")" (← bound))
  else importLine .unfinished (← bound)

def importDots : Nat → Parser Unit
  | 0 => failure
  | n + 1 => do
    let t ← look .unfinished
    if t == .symbol "." || t == .symbol "..." then
      let _ ← advance .unfinished
      importDots n

def importFrom : Parser Stmt := do
  expectWord .bracket "from"
  if ← acceptWord .unfinished "__future__" then
    expectWord .unfinished "import"
    let _ ← importList
    return .other
  let start ← startOffset .unfinished
  let t ← look .unfinished
  let dots ←
    if t == .symbol "." || t == .symbol "..." then do
      importDots (← bound)
      pure (some (⟨start, ← lastStop⟩ : Span))
    else pure none
  let source ←
    if dots.isSome && (← look .unfinished) == .word "import" then pure none
    else pure (some (← dottedName .unfinished .unfinished))
  expectWord .unfinished "import"
  if ← acceptSymbol .unfinished "*" then return .importsFrom dots source none
  else return .importsFrom dots source (some (← importList))

def strictItems (nested : Nested) : Nat → Parser Unit
  | 0 => failure
  | n + 1 => do
    let _ ← nested .statement
    if ← acceptSymbol .line "," then strictItems nested n

def nameList : Nat → Parser Unit
  | 0 => failure
  | n + 1 => do
    let _ ← identifier .unfinished
    if ← acceptSymbol .line "," then nameList n

def augmentedSymbols : List String :=
  ["+=", "-=", "*=", "/=", "@=", "//=", "%=", "**=", ">>=", "<<=", "&=", "^=", "|="]

/-- What an assignment statement amounts to: bare expressions, an assignment with the plain names it
binds, or an effect of another kind. -/
inductive Chain where
  | bare (items : Items)
  | assigns (targets : List String)
  | effect
  deriving Repr

def Items.targets (i : Items) : List String :=
  match i.exprs, i.comma with
  | [.name _ text], false => [text]
  | _, _ => []

def Chain.targets : Chain → List String
  | .assigns names => names
  | _ => []

def chain (nested : Nested) : Nat → Mode → Parser Chain
  | 0, _ => failure
  | n + 1, first => do
    if ← acceptWord first "yield" then
      yieldRest nested .line
      return .effect
    let left ← items nested ⟨first, .line, true⟩
    let needTargets : Parser Unit := if Expr.areTargets left.exprs then pure () else failure
    match ← look .line with
    | .symbol "=" =>
      needTargets
      let _ ← advance .line
      let right ← chain nested n .unfinished
      return .assigns (left.targets ++ right.targets)
    | .symbol ":" =>
      needTargets
      let _ ← advance .line
      let _ ← typeText nested (← bound) true .unfinished .line
      if ← acceptSymbol .line "=" then
        let right ← chain nested n .unfinished
        return .assigns (left.targets ++ right.targets)
      else return .assigns left.targets
    | .symbol s =>
      if augmentedSymbols.contains s then
        needTargets
        let _ ← advance .line
        let _ ← chain nested n .unfinished
        return .effect
      else return .bare left
    | _ => return .bare left

def chainStatement (nested : Nested) : Parser Stmt := do
  let start ← startOffset .bracket
  match ← chain nested (← bound) .bracket with
  | .bare i =>
    match i.exprs with
    | e :: _ => return .expression e (i.exprs.length + i.continuations)
    | [] => failure
  | .assigns names => return .assignment ⟨start, ← lastStop⟩ names
  | .effect => return .effect ⟨start, ← lastStop⟩

def typeAlias (nested : Nested) : Parser Stmt := do
  expectWord .bracket "type"
  let n ← bound
  let _ ← typeText nested n true .unfinished .line
  expectSymbol .line "="
  let _ ← typeText nested n true .unfinished .line
  return .other

def simpleStatement (nested : Nested) : Parser Stmt := do
  let skip : Parser Unit := do let _ ← advance .bracket
  match ← look .bracket with
  | .word "import" =>
    skip
    return .imports (← importLine .unfinished (← bound))
  | .word "from" => importFrom
  | .word "assert" =>
    skip
    strictItems nested (← bound)
    return .other
  | .word "return" =>
    skip
    if startsOperand (← look .line) then
      let _ ← items nested ⟨.line, .line, true⟩
    return .other
  | .word "del" =>
    skip
    let _ ← items nested .statement
    return .other
  | .word "raise" =>
    skip
    let t ← look .line
    if startsOperand t && t != .word "from" then
      let _ ← items nested ⟨.line, .line, true⟩
    if ← acceptWord .line "from" then
      let _ ← nested .statement
    return .other
  | .word "pass" | .word "break" | .word "continue" =>
    skip
    return .other
  | .word "global" | .word "nonlocal" =>
    skip
    nameList (← bound)
    return .other
  | .word "print" =>
    if (← lookSecond .bracket .line) == .symbol ">>" then failure else chainStatement nested
  | .word "type" => typeAlias nested <|> chainStatement nested
  | _ => chainStatement nested

end RepoAtlas.Python
