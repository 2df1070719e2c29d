import RepoAtlas.Python.Simple

/-!
Blocks and the statements that hold them. A block is left when a line lies outside it; what is left
unread then belongs to a block further out. A fault is the offset at which the statement, header or
decorator with the fault starts.
-/
namespace RepoAtlas.Python

/-- Readers of blocks; a failure is the offset of the fault. -/
abbrev Blocks := StateT Cursor (Except Nat)

def from? {α : Type} (start : Nat) (p : Parser α) : Blocks α := fun c =>
  match p c with
  | some r => .ok r
  | none => .error start

def here : Blocks Nat := do
  match (← get).rest with
  | l :: _ => return l.span.start
  | [] => return (← get).stop

def take (l : Lexeme) (rest : List Lexeme) : Blocks Unit :=
  modify fun c => { c with rest := rest, stop := l.span.stop }

def trailing : Nat → Blocks Unit
  | 0 => pure ()
  | n + 1 => do
    match (← get).rest with
    | l :: rest =>
      if isTrivia l.token && !l.gap.breaks then
        take l rest
        trailing n
    | [] => pure ()

def stepBound : Blocks Nat := do return (← get).bound

def simpleLine (nested : Nested) : Nat → List Stmt → Blocks (List Stmt)
  | 0, _ => do throw (← here)
  | n + 1, before => do
    let start ← here
    let s ← from? start (simpleStatement nested)
    let more ← from? start do
      match ← look .line with
      | .symbol ";" =>
        let _ ← advance .line
        let t ← look .line
        return t != .lineEnd && t != .endOfFile
      | .lineEnd | .endOfFile => return false
      | _ => failure
    if more then simpleLine nested n (s :: before)
    else
      trailing (← stepBound)
      return (s :: before).reverse

def blockItems (statement : Blocks (List Stmt)) : Nat → List Stmt → Blocks (List Stmt)
  | 0, before => return before.reverse
  | n + 1, before => do
    let c ← get
    match c.rest with
    | [] => return before.reverse
    | l :: rest =>
      if l.gap.closes c.width then return before.reverse
      else
        match l.token with
        | .endOfFile => return before.reverse
        | .comment =>
          take l rest
          blockItems statement n before
        | .continuation =>
          take l rest
          blockItems statement n (.continuation :: before)
        | _ =>
          let s ← statement
          blockItems statement n (s.reverse ++ before)

def indented {α : Type} (width : Nat) (p : Blocks α) : Blocks α := do
  let outer := (← get).width
  modify fun c => { c with width := width }
  let a ← p
  modify fun c => { c with width := outer }
  return a

/-- The body after a colon: the rest of the line, an indented block, or nothing. -/
def suite (nested : Nested) (statement : Blocks (List Stmt)) : Blocks (List Stmt) := do
  trailing (← stepBound)
  let c ← get
  match c.rest with
  | [] => return []
  | l :: _ =>
    if !l.gap.breaks then simpleLine nested c.bound []
    else if c.width < l.gap.indent then
      indented l.gap.indent (blockItems statement c.bound [])
    else return []

structure Context where
  nested : Nested
  body : Blocks (List Stmt)

def skipTrivia (width : Nat) : List Lexeme → List Lexeme
  | [] => []
  | l :: rest =>
    if l.gap.closes width then []
    else if isTrivia l.token then skipTrivia width rest
    else l :: rest

def clause? (words : List String) : Blocks (Option (String × Nat)) := do
  let c ← get
  match skipTrivia c.width c.rest with
  | l :: rest =>
    match l.token with
    | .word w =>
      if words.contains w then
        set { c with rest := rest, stop := l.span.stop }
        return some (w, l.span.start)
      else return none
    | _ => return none
  | [] => return none

def colon : Parser Unit := expectSymbol .unfinished ":"

def branch (k : Context) (start : Nat) : Blocks Unit := do
  from? start do
    let _ ← k.nested .header
    colon
  let _ ← k.body

def elseBranch (k : Context) : Blocks Unit := do
  if let some (_, start) ← clause? ["else"] then
    from? start colon
    let _ ← k.body

def elifBranches (k : Context) : Nat → Blocks Unit
  | 0 => pure ()
  | n + 1 => do
    match ← clause? ["elif", "else"] with
    | some ("elif", start) =>
      branch k start
      elifBranches k n
    | some (_, start) =>
      from? start colon
      let _ ← k.body
    | none => pure ()

def ifStatement (k : Context) (start : Nat) : Blocks Stmt := do
  from? start (expectWord .bracket "if")
  branch k start
  elifBranches k (← stepBound)
  return .other

def whileStatement (k : Context) (start : Nat) : Blocks Stmt := do
  from? start (expectWord .bracket "while")
  branch k start
  elseBranch k
  return .other

def forStatement (k : Context) (start : Nat) (first : Mode) : Blocks Stmt := do
  from? start do
    expectWord first "for"
    targets k.nested
    expectWord .unfinished "in"
    let _ ← items k.nested .header
    colon
  let _ ← k.body
  elseBranch k
  return .other

def withStatement (k : Context) (start : Nat) (first : Mode) : Blocks Stmt := do
  from? start do
    expectWord first "with"
    let _ ← items k.nested .header
    colon
  let _ ← k.body
  return .other

def starred : Parser Bool := do
  let c ← get
  match c.rest with
  | l :: rest =>
    if l.token == .symbol "*" && l.span.start == c.stop then
      set { c with rest := rest, stop := l.span.stop }
      return true
    else return false
  | [] => return false

/-- What stands between `except` and its body. Every clause of a statement has a star or none
has. -/
def exceptHeader (nested : Nested) (star : Bool) : Parser Unit := do
  if star then
    let _ ← nested .header
  else if (← look .unfinished) != .symbol ":" then
    let _ ← nested .header
    if ← acceptSymbol .unfinished "," then
      let _ ← nested .header
  colon

def handlers (k : Context) : Nat → Option Bool → Blocks Bool
  | 0, seen => return seen.isSome
  | n + 1, seen => do
    let words := if seen.isSome then ["except", "else", "finally"] else ["except", "finally"]
    match ← clause? words with
    | some ("except", start) =>
      let star ← from? start do
        let star ← starred
        if seen.all (· == star) then exceptHeader k.nested star else failure
        return star
      let _ ← k.body
      handlers k n (some star)
    | some ("else", start) =>
      from? start colon
      let _ ← k.body
      finallyClause
      return true
    | some (_, start) =>
      from? start colon
      let _ ← k.body
      return true
    | none => return seen.isSome
where
  finallyClause : Blocks Unit := do
    if let some (_, start) ← clause? ["finally"] then
      from? start colon
      let _ ← k.body

def tryStatement (k : Context) (start : Nat) : Blocks Stmt := do
  from? start do
    expectWord .bracket "try"
    colon
  let _ ← k.body
  if ← handlers k (← stepBound) none then return .other else throw start

structure Opening where
  start : Nat
  decorators : List (Option Expr)

def functionHeader (nested : Nested) (o : Opening) (first : Mode) : Parser Header := do
  let async ← acceptWord first "async"
  expectWord (if async then .line else first) "def"
  let (name, _) ← identifier .unfinished
  let typeParams ← typeParameters nested
  expectSymbol .unfinished "("
  let ps ← params nested .definition
  let returns ←
    if ← acceptSymbol .unfinished "->" then
      pure (some (← typeText nested (← bound) false .unfinished .unfinished))
    else pure none
  let stop ← lastStop
  colon
  return ⟨.function, async, name, ⟨o.start, stop⟩, stop, typeParams, ps, returns, [], o.decorators⟩

def classHeader (nested : Nested) (o : Opening) (first : Mode) : Parser Header := do
  expectWord first "class"
  let (name, _) ← identifier .unfinished
  let typeParams ← typeParameters nested
  let arguments ← if ← acceptSymbol .unfinished "(" then argumentList nested else pure []
  let stop ← lastStop
  colon
  return ⟨.classDef, false, name, ⟨o.start, stop⟩, stop, typeParams, [], none, arguments,
    o.decorators⟩

def definition (k : Context) (o : Opening) (header : Parser Header) : Blocks Stmt := do
  let h ← from? o.start header
  let body ← k.body
  let stop := (← get).stop
  return .definition { h with span := ⟨h.span.start, stop⟩ } body

def decorated (k : Context) (start : Nat) : Nat → List (Option Expr) → Blocks Stmt
  | 0, _ => throw start
  | n + 1, before => do
    let t ← from? start (look .unfinished)
    match t with
    | .symbol "@" =>
      let d ← from? start do
        let _ ← advance .unfinished
        let bare := (← continuations).isEmpty
        let e ← k.nested .statement
        let t ← look .line
        if t == .lineEnd || t == .endOfFile then return if bare then some e else none
        else failure
      decorated k start n (d :: before)
    | .word "class" =>
      definition k ⟨start, before.reverse⟩
        (classHeader k.nested ⟨start, before.reverse⟩ .unfinished)
    | .word "def" | .word "async" =>
      definition k ⟨start, before.reverse⟩
        (functionHeader k.nested ⟨start, before.reverse⟩ .unfinished)
    | _ => throw start

end RepoAtlas.Python
