import RepoAtlas.Python.Match

/-!
Statements of every kind, and the statements of a whole text. Words that start a compound statement
do so only at the start of a line of a block; on the line of a header they are names.
-/
namespace RepoAtlas.Python

def asyncWord (rest : List Lexeme) : Option String :=
  match view .line 0 rest with
  | some (.word w, _) => if ["def", "for", "with"].contains w then some w else none
  | _ => none

def statementOf (k : Context) : Blocks (List Stmt) := do
  let c ← get
  let start ← here
  let bound := c.bound
  let one (s : Blocks Stmt) : Blocks (List Stmt) := do return [← s]
  let simple := simpleLine k.nested bound []
  let opening : Opening := ⟨start, []⟩
  match c.rest with
  | [] => return []
  | l :: rest =>
    match l.token with
    | .symbol "@" => one (decorated k start bound [])
    | .word "if" => one (ifStatement k start)
    | .word "while" => one (whileStatement k start)
    | .word "for" => one (forStatement k start .bracket)
    | .word "with" => one (withStatement k start .bracket)
    | .word "try" => one (tryStatement k start)
    | .word "def" => one (definition k opening (functionHeader k.nested opening .bracket))
    | .word "class" => one (definition k opening (classHeader k.nested opening .bracket))
    | .word "match" => matchStatement k simple
    | .word "async" =>
      match asyncWord rest with
      | some "def" => one (definition k opening (functionHeader k.nested opening .bracket))
      | some "for" =>
        take l rest
        one (forStatement k start .line)
      | some _ =>
        take l rest
        one (withStatement k start .line)
      | none => simple
    | _ => simple

def statement (nested : Nested) : Nat → Blocks (List Stmt)
  | 0 => do throw (← here)
  | n + 1 => statementOf ⟨nested, suite nested (statement nested n)⟩

def statements (lexemes : List Lexeme) : Except Nat (List Stmt) :=
  let bound := lexemes.length + 1
  (blockItems (statement (expression bound) bound) bound [] ⟨lexemes, 0, 0, bound⟩).map (·.1)

end RepoAtlas.Python
