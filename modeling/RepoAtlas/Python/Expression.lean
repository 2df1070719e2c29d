import RepoAtlas.Python.Cursor
import RepoAtlas.Python.Syntax

/-!
Expressions, types and parameters. Operators are read as a flat sequence of operands, because only
an expression that is a single operand has a shape that matters later. Every reader takes the reader
of a nested expression as its first argument; `expression` ties the knot with a bound on the
nesting.
-/
namespace RepoAtlas.Python

/-- Where an expression stands: how line breaks are read before its first token and between its
parts, and whether it may be a conditional. -/
structure Place where
  first : Mode
  rest : Mode
  conditional : Bool
  deriving DecidableEq, Repr

namespace Place

def bracketed : Place := ⟨.bracket, .bracket, true⟩

def inner : Place := ⟨.unfinished, .bracket, true⟩

def header : Place := ⟨.unfinished, .unfinished, true⟩

def statement : Place := ⟨.unfinished, .line, true⟩

end Place

abbrev Nested := Place → Parser Expr

def operandSymbols : List String := ["(", "[", "\x7b", "-", "+", "~", "*", "..."]

def startsOperand : Token → Bool
  | .word _ | .number | .string _ | .formatOpen => true
  | .symbol s => operandSymbols.contains s
  | _ => false

def moreItems {α : Type} (item : Parser α) (close : String) : Nat → Parser (List α)
  | 0 => failure
  | n + 1 => do
    if ← acceptSymbol .bracket close then return []
    expectSymbol .bracket ","
    if ← acceptSymbol .bracket close then return []
    let e ← item
    return e :: (← moreItems item close n)

structure Items where
  exprs : List Expr
  comma : Bool
  /-- The number of line continuations between the items. -/
  continuations : Nat
  deriving Repr

def openItems (nested : Nested) (rest : Mode) : Nat → Parser Items
  | 0 => failure
  | n + 1 => do
    if (← look rest) == .symbol "," then
      let before := (← continuations).length
      let _ ← advance rest
      if startsOperand (← look rest) then
        let after := (← continuations).length
        let e ← nested ⟨rest, rest, true⟩
        let more ← openItems nested rest n
        return ⟨e :: more.exprs, true, more.continuations + before + after⟩
      else return ⟨[], true, before⟩
    else return ⟨[], false, 0⟩

def items (nested : Nested) (p : Place) : Parser Items := do
  let e ← nested p
  let more ← openItems nested p.rest (← bound)
  return { more with exprs := e :: more.exprs }

def yieldRest (nested : Nested) (rest : Mode) : Parser Unit := do
  let t ← look rest
  if t == .word "from" then
    let _ ← advance rest
    let _ ← nested ⟨.unfinished, rest, true⟩
  else if startsOperand t then
    let _ ← items nested ⟨rest, rest, true⟩

/-- A format specification; the fields in it are read by the first argument. -/
def fieldSpec (inner : Parser Unit) : Nat → Parser Unit
  | 0 => failure
  | n + 1 => do
    if ← accept .bracket .formatText then fieldSpec inner n
    else if ← accept .bracket .fieldOpen then
      inner
      fieldSpec inner n

def field (nested : Nested) : Nat → Parser Unit
  | 0 => failure
  | n + 1 => do
    if ← acceptWord .bracket "yield" then yieldRest nested .bracket
    else let _ ← items nested .bracketed
    let _ ← acceptSymbol .bracket "="
    let _ ← accept .bracket .conversion
    if ← accept .bracket .formatColon then fieldSpec (field nested n) (← bound)
    expect .bracket .fieldClose

def formatRest (nested : Nested) : Nat → Parser Unit
  | 0 => failure
  | n + 1 => do
    if ← accept .bracket .fieldOpen then
      field nested (← bound)
      formatRest nested n
    else expect .bracket .formatClose

def literal (nested : Nested) (first : Mode) : Parser Span := do
  let l ← advance first
  match l.token with
  | .string _ => return l.span
  | .formatOpen =>
    formatRest nested (← bound)
    return ⟨l.span.start, ← lastStop⟩
  | _ => failure

def moreLiterals (nested : Nested) (rest : Mode) : Nat → Parser (List (Option Span))
  | 0 => failure
  | n + 1 => do
    match ← look rest with
    | .string _ | .formatOpen =>
      let gaps := (← continuations).map fun _ => none
      let s ← literal nested rest
      return gaps ++ some s :: (← moreLiterals nested rest n)
    | _ => return []

def literals (nested : Nested) (first rest : Mode) : Parser Expr := do
  let s ← literal nested first
  match ← moreLiterals nested rest (← bound) with
  | [] => return .literal s
  | more => return .literals ⟨s.start, ← lastStop⟩ (some s :: more)

def element (nested : Nested) : Parser Expr := do
  let start ← startOffset .bracket
  if ← acceptSymbol .bracket "*" then
    let e ← nested .inner
    let span : Span := ⟨start, ← lastStop⟩
    return if e.isPlace then .star span e else .other span
  else if ← acceptWord .bracket "yield" then
    yieldRest nested .bracket
    return .other ⟨start, ← lastStop⟩
  else nested .bracketed

def atClause : Parser Bool := do
  match ← look .bracket with
  | .word "for" => return true
  | .word "async" => return (← lookSecond .bracket .unfinished) == .word "for"
  | _ => return false

def iterables (nested : Nested) : Nat → Parser Unit
  | 0 => failure
  | n + 1 => do
    let _ ← nested ⟨.unfinished, .bracket, false⟩
    if ← acceptSymbol .bracket "," then
      let t ← look .bracket
      if startsOperand t && t != .word "for" && t != .word "if" then iterables nested n

def binarySymbols : List String :=
  ["+", "-", "*", "@", "/", "%", "//", "**", "|", "&", "^", "<<", ">>",
   "<", "<=", "==", "!=", ">=", ">", "<>"]

/-- Words that follow an operand, which `await` can therefore not apply to. -/
def followingWords : List String :=
  ["if", "else", "in", "is", "not", "and", "or", "as", "for", "from", "async"]

/-- Whether `await` applies to an operand that starts with the token; otherwise it is a name. -/
def awaits (t : Token) : Bool := startsOperand t && !followingWords.any fun w => t == .word w

def constants : List String := ["True", "False", "None"]

def subscriptItem (nested : Nested) (first : Mode) : Parser Unit := do
  let closers : List Token := [.symbol ":", .symbol ",", .symbol "]"]
  if (← look first) != .symbol ":" then
    let _ ← nested ⟨first, .bracket, true⟩
  if ← acceptSymbol .bracket ":" then
    if !closers.contains (← look .bracket) then
      let _ ← nested .bracketed
    if ← acceptSymbol .bracket ":" then
      if !closers.contains (← look .bracket) then
        let _ ← nested .bracketed

def argument (nested : Nested) : Parser Argument := do
  let start ← startOffset .bracket
  match ← look .bracket with
  | .symbol "*" =>
    let _ ← advance .bracket
    let _ ← nested .inner
    return .starred ⟨start, ← lastStop⟩
  | .symbol "**" =>
    let _ ← advance .bracket
    let _ ← nested .inner
    return .doubleStarred ⟨start, ← lastStop⟩
  | .word w =>
    let second ← lookSecond .bracket .bracket
    if second == .symbol "=" && !(["lambda", "not"] ++ constants).contains w then
      let _ ← advance .bracket
      let _ ← advance .bracket
      let _ ← nested .inner
      return .keyword ⟨start, ← lastStop⟩
    else return .base (← nested .bracketed)
  | _ => return .base (← nested .bracketed)

def arguments (nested : Nested) : Nat → Parser (List Argument)
  | 0 => failure
  | n + 1 => do
    let before := (← continuations).map Argument.continuation
    if ← acceptSymbol .bracket ")" then return before
    let a ← argument nested
    let after := (← continuations).map Argument.continuation
    if ← acceptSymbol .bracket ")" then return before ++ a :: after
    expectSymbol .bracket ","
    return before ++ a :: (after ++ (← arguments nested n))

/-- Arguments after an opening parenthesis; a comma may stand alone. -/
def argumentList (nested : Nested) : Parser (List Argument) := do
  if ← acceptSymbol .bracket "," then
    expectSymbol .bracket ")"
    return []
  else arguments nested (← bound)

/-- Reads what may follow an atom: attributes, subscripts and calls. The clauses of a comprehension
are read by the second argument. -/
def suffixes (nested : Nested) (clauses : Parser Unit) (rest : Mode) (start : Nat) :
    Nat → Expr → Parser Expr
  | 0, _ => failure
  | n + 1, e => do
    match ← look rest with
    | .symbol "." =>
      let _ ← advance rest
      let (attr, s) ← identifier .unfinished
      suffixes nested clauses rest start n (.attribute ⟨start, s.stop⟩ e attr)
    | .symbol "[" =>
      let _ ← advance rest
      subscriptItem nested .unfinished
      let _ ← moreItems (subscriptItem nested .bracket) "]" (← bound)
      suffixes nested clauses rest start n (.subscript ⟨start, ← lastStop⟩ e)
    | .symbol "(" =>
      let _ ← advance rest
      callRest
      suffixes nested clauses rest start n (.call ⟨start, ← lastStop⟩ e)
    | _ => return e
where
  /-- A comprehension may be the only argument. -/
  callRest : Parser Unit := do
    if ← acceptSymbol .bracket ")" then pure ()
    else if ← acceptSymbol .bracket "," then expectSymbol .bracket ")"
    else
      match ← argument nested, ← atClause with
      | .base _, true =>
        clauses
        expectSymbol .bracket ")"
      | _, _ => let _ ← moreItems (argument nested) ")" (← bound)

def clauseRun (nested : Nested) (targets : Parser Unit) : Nat → Parser Unit
  | 0 => failure
  | n + 1 => do
    if ← atClause then
      let _ ← acceptWord .bracket "async"
      expectWord .bracket "for"
      targets
      expectWord .unfinished "in"
      iterables nested (← bound)
      clauseRun nested targets n
    else if ← acceptWord .bracket "if" then
      let _ ← nested ⟨.unfinished, .bracket, false⟩
      clauseRun nested targets n

inductive Collected where
  | comprehension
  | items (more : List Expr) (comma : Bool)
  deriving Repr

def collect (nested : Nested) (clauses : Parser Unit) (close : String) : Parser Collected := do
  if ← atClause then
    clauses
    expectSymbol .bracket close
    return .comprehension
  let comma := (← look .bracket) == .symbol ","
  return .items (← moreItems (element nested) close (← bound)) comma

def parenthesized (nested : Nested) (clauses : Parser Unit) (first : Mode) : Parser Expr := do
  let opening ← advance first
  let start := opening.span.start
  let bare := (← continuations).isEmpty
  if ← acceptSymbol .bracket ")" then return .tuple ⟨start, ← lastStop⟩ []
  let e ← element nested
  match ← collect nested clauses ")" with
  | .comprehension => return .other ⟨start, ← lastStop⟩
  | .items _ false => return .group ⟨start, ← lastStop⟩ e bare
  | .items more true => return .tuple ⟨start, ← lastStop⟩ (e :: more)

def listDisplay (nested : Nested) (clauses : Parser Unit) (first : Mode) : Parser Expr := do
  let opening ← advance first
  let start := opening.span.start
  if ← acceptSymbol .bracket "]" then return .list ⟨start, ← lastStop⟩ []
  let e ← element nested
  match ← collect nested clauses "]" with
  | .comprehension => return .other ⟨start, ← lastStop⟩
  | .items more _ => return .list ⟨start, ← lastStop⟩ (e :: more)

def entry (nested : Nested) : Parser Unit := do
  if ← acceptSymbol .bracket "**" then
    let _ ← nested .inner
  else
    let _ ← nested .bracketed
    expectSymbol .bracket ":"
    let _ ← nested .inner

def braced (nested : Nested) (clauses : Parser Unit) (first : Mode) : Parser Expr := do
  let opening ← advance first
  let close := "\x7d"
  if ← acceptSymbol .bracket close then pure ()
  else if ← acceptSymbol .bracket "," then expectSymbol .bracket close
  else if (← look .bracket) == .symbol "**" then
    entry nested
    let _ ← moreItems (entry nested) close (← bound)
  else
    let _ ← element nested
    let paired ← acceptSymbol .bracket ":"
    if paired then
      let _ ← nested .inner
    if ← atClause then
      clauses
      expectSymbol .bracket close
    else
      let item : Parser Unit := if paired then entry nested else do let _ ← element nested
      let _ ← moreItems item close (← bound)
  return .other ⟨opening.span.start, ← lastStop⟩

def atom (nested : Nested) (clauses : Parser Unit) (first rest : Mode) : Parser Expr := do
  match ← look first with
  | .word w =>
    let l ← advance first
    return if constants.contains w then .other l.span else .name l.span w
  | .number | .symbol "..." =>
    let l ← advance first
    return .other l.span
  | .string _ | .formatOpen => literals nested first rest
  | .symbol "(" => parenthesized nested clauses first
  | .symbol "[" => listDisplay nested clauses first
  | .symbol "\x7b" => braced nested clauses first
  | _ => failure

def primary (nested : Nested) (clauses : Parser Unit) (first rest : Mode) : Parser Expr := do
  let start ← startOffset first
  let e ← atom nested clauses first rest
  suffixes nested clauses rest start (← bound) e

/-- Whether an attribute or subscript is taken somewhere in a chain, or its base is a name. -/
def Expr.hasPlace : Expr → Bool
  | .name .. | .attribute .. | .subscript .. => true
  | .call _ f => f.hasPlace
  | _ => false

def spread (nested : Nested) (clauses : Parser Unit) (first rest : Mode) : Parser Expr := do
  let star ← advance first
  let e ← primary nested clauses .unfinished rest
  let span : Span := ⟨star.span.start, ← lastStop⟩
  if e.isPlace then return .star span e
  else if e.hasPlace then return .other span
  else failure

def target (nested : Nested) (clauses : Parser Unit) : Parser Unit := do
  let e ←
    if (← look .unfinished) == .symbol "*" then spread nested clauses .unfinished .unfinished
    else primary nested clauses .unfinished .unfinished
  if !e.isTarget then failure

def targetRun (nested : Nested) (clauses : Parser Unit) : Nat → Parser Unit
  | 0 => failure
  | n + 1 => do
    target nested clauses
    if ← acceptSymbol .unfinished "," then
      if (← look .unfinished) != .word "in" then targetRun nested clauses n

/-- Clauses of a comprehension; the bound is on clauses inside targets. -/
def clauses (nested : Nested) : Nat → Parser Unit
  | 0 => failure
  | n + 1 => do
    clauseRun nested (do targetRun nested (clauses nested n) (← bound)) (← bound)

def targets (nested : Nested) : Parser Unit := do
  let n ← bound
  targetRun nested (clauses nested n) n

def genericType (type : Mode → Parser Span) (first : Mode) : Parser Unit := do
  let _ ← identifier first
  expectSymbol .unfinished "["
  let _ ← type .unfinished
  let _ ← moreItems (type .bracket) "]" (← bound)

def typeRest (type : Parser Span) (bounded : Bool) (rest : Mode) : Nat → Parser Unit
  | 0 => failure
  | n + 1 => do
    match ← look rest with
    | .symbol "." =>
      let _ ← advance rest
      let _ ← identifier .unfinished
      typeRest type bounded rest n
    | .symbol "|" =>
      let _ ← advance rest
      let _ ← type
    | .symbol ":" =>
      if bounded then
        let _ ← advance rest
        let _ ← type
    | _ => pure ()

def typeText (nested : Nested) : Nat → Bool → Mode → Mode → Parser Span
  | 0, _, _, _ => failure
  | n + 1, bounded, first, rest => do
    let start ← startOffset first
    if ← acceptSymbol first "**" then
      let _ ← identifier .unfinished
    else
      (do let _ ← nested ⟨first, rest, true⟩) <|>
        genericType (fun first => typeText nested n true first .bracket) first
    typeRest (typeText nested n bounded .unfinished rest) bounded rest (← bound)
    return ⟨start, ← lastStop⟩

def typeParameters (nested : Nested) : Parser (Option Span) := do
  if (← look .unfinished) == .symbol "[" then
    let opening ← advance .unfinished
    let n ← bound
    let _ ← typeText nested n true .unfinished .bracket
    let _ ← moreItems (typeText nested n true .bracket .bracket) "]" n
    return some ⟨opening.span.start, ← lastStop⟩
  else return none

structure ParamStyle where
  close : String
  mode : Mode
  typed : Bool
  deriving DecidableEq, Repr

def ParamStyle.definition : ParamStyle := ⟨")", .bracket, true⟩

def ParamStyle.lambda : ParamStyle := ⟨":", .unfinished, false⟩

def paramType (nested : Nested) (style : ParamStyle) : Parser (Option Span) := do
  if style.typed && (← look style.mode) == .symbol ":" then
    let _ ← advance style.mode
    return some (← typeText nested (← bound) true .unfinished style.mode)
  else return none

def paramDefault (nested : Nested) (style : ParamStyle) : Parser (Option Span) := do
  if ← acceptSymbol style.mode "=" then
    let e ← nested ⟨.unfinished, style.mode, true⟩
    return some e.span
  else return none

/-- One or two stars and a place; a line continuation that comes first stands for the place. -/
def splatParam (nested : Nested) (clauses : Parser Unit) (style : ParamStyle) (stars : Nat) :
    Parser Param := do
  let gap := (← continuations).head?
  let e ← primary nested clauses .unfinished style.mode
  if !e.isPlace then failure
  let inner := gap.getD e.span
  match ← paramType nested style with
  | some type => return .typed (.splat stars inner) type
  | none => return .splat stars inner

def param (nested : Nested) (clauses : Parser Unit) (style : ParamStyle) : Parser Param := do
  match ← look style.mode with
  | .symbol "*" =>
    let _ ← advance style.mode
    let t ← look style.mode
    if t == .symbol "," || t == .symbol style.close then return .keywordOnly
    else splatParam nested clauses style 1
  | .symbol "**" =>
    let _ ← advance style.mode
    splatParam nested clauses style 2
  | .symbol "/" =>
    let _ ← advance style.mode
    return .positionalOnly
  | .symbol "(" =>
    let e ← parenthesized nested clauses style.mode
    if !e.isTarget then failure
    match ← paramDefault nested style with
    | some value => return .defaulted e.span value
    | none => return .pattern e.span
  | .word _ =>
    let (name, span) ← identifier style.mode
    let type ← paramType nested style
    let value ← paramDefault nested style
    match type, value with
    | none, none => return .plain name
    | some type, none => return .typed (.plain name) type
    | none, some value => return .defaulted span value
    | some type, some value => return .typedDefaulted name type value
  | _ => failure

def paramRun (nested : Nested) (clauses : Parser Unit) (style : ParamStyle) :
    Nat → Parser (List Param)
  | 0 => failure
  | n + 1 => do
    let before := (← continuations).map Param.continuation
    if ← acceptSymbol style.mode style.close then return before
    let p ← param nested clauses style
    let after := (← continuations).map Param.continuation
    if ← acceptSymbol style.mode style.close then return before ++ p :: after
    expectSymbol style.mode ","
    return before ++ p :: (after ++ (← paramRun nested clauses style n))

def params (nested : Nested) (style : ParamStyle) : Parser (List Param) := do
  let n ← bound
  paramRun nested (clauses nested n) style n

/-- An operand with what stands before it. `full` lets it start with `not`, `lambda` or a name that
is given a value; after an arithmetic operator or a comparison those words are names. -/
def operand (nested : Nested) (p : Place) : Bool → Mode → Nat → Parser Expr
  | _, _, 0 => failure
  | full, first, n + 1 => do
    let start ← startOffset first
    let plain : Parser Expr := do primary nested (clauses nested (← bound)) first p.rest
    let whole : Parser Expr := do return .other ⟨start, ← lastStop⟩
    match ← look first with
    | .symbol "-" | .symbol "+" | .symbol "~" =>
      let _ ← advance first
      let _ ← operand nested p false .unfinished n
      whole
    | .symbol "*" => spread nested (clauses nested (← bound)) first p.rest
    | .word "await" =>
      if awaits (← lookSecond first p.rest) then
        let _ ← advance first
        let _ ← operand nested p false .unfinished n
        whole
      else plain
    | .word w =>
      if !full then plain
      else if w == "not" then
        let _ ← advance first
        let _ ← operand nested p true .unfinished n
        whole
      else if w == "lambda" then
        let _ ← advance first
        let _ ← params nested .lambda
        let _ ← nested ⟨.unfinished, p.rest, p.conditional⟩
        whole
      else if !constants.contains w && (← lookSecond first p.rest) == .symbol ":=" then
        let _ ← advance first
        let _ ← advance p.rest
        let _ ← nested ⟨.unfinished, p.rest, p.conditional⟩
        whole
      else plain
    | _ => plain

/-- Operators and further operands; the result says whether there were any. -/
def operators (nested : Nested) (p : Place) : Nat → Parser Bool
  | 0 => failure
  | n + 1 => do
    let next (full : Bool) : Parser Bool := do
      let _ ← operand nested p full .unfinished (← bound)
      let _ ← operators nested p n
      return true
    match ← look p.rest with
    | .symbol s =>
      if binarySymbols.contains s then
        let _ ← advance p.rest
        next false
      else return false
    | .word "in" =>
      let _ ← advance p.rest
      next false
    | .word "is" =>
      let _ ← advance p.rest
      let _ ← acceptWord .unfinished "not"
      next false
    | .word "not" =>
      if (← lookSecond p.rest .unfinished) == .word "in" then
        let _ ← advance p.rest
        let _ ← advance .unfinished
        next false
      else return false
    | .word "and" | .word "or" | .word "as" =>
      let _ ← advance p.rest
      next true
    | .word "if" =>
      if p.conditional then
        let _ ← advance p.rest
        let _ ← nested .header
        expectWord .unfinished "else"
        let _ ← nested ⟨.unfinished, p.rest, p.conditional⟩
        return true
      else return false
    | _ => return false

def expression : Nat → Nested
  | 0, _ => failure
  | n + 1, p => do
    let start ← startOffset p.first
    let e ← operand (expression n) p true p.first (← bound)
    if ← operators (expression n) p (← bound) then return .other ⟨start, ← lastStop⟩
    else return e

end RepoAtlas.Python
