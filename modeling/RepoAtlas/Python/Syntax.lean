import RepoAtlas.Python.Token

/-!
The tree of a Python text, as far as the analysis reads it: definitions with their headers and
bodies, imports, assignments and bare expressions. Texts of parts are spans of the source.
-/
namespace RepoAtlas.Python

/-- Expressions by what can be read off them: names, literals and assignment targets. -/
inductive Expr where
  | name (span : Span) (text : String)
  | attribute (span : Span) (object : Expr) (attr : String)
  | subscript (span : Span) (value : Expr)
  | call (span : Span) (function : Expr)
  /-- An expression in parentheses; `bare` unless a line continuation stands before it. -/
  | group (span : Span) (inner : Expr) (bare : Bool)
  /-- One string literal. -/
  | literal (span : Span)
  /-- Adjacent string literals; nothing stands for a line continuation among them. -/
  | literals (span : Span) (parts : List (Option Span))
  | star (span : Span) (inner : Expr)
  | tuple (span : Span) (items : List Expr)
  | list (span : Span) (items : List Expr)
  | other (span : Span)
  deriving Repr, Inhabited

def Expr.span : Expr → Span
  | .name s _ | .attribute s _ _ | .subscript s _ | .call s _ | .group s _ _ | .literal s
  | .literals s _ | .star s _ | .tuple s _ | .list s _ | .other s => s

def Expr.isPlace : Expr → Bool
  | .name .. | .attribute .. | .subscript .. => true
  | _ => false

mutual

def Expr.isTarget : Expr → Bool
  | .name .. | .attribute .. | .subscript .. => true
  | .star _ inner => inner.isPlace
  | .group _ inner _ => inner.isTarget
  | .tuple _ items | .list _ items => Expr.areTargets items
  | _ => false

def Expr.areTargets : List Expr → Bool
  | [] => true
  | e :: es => e.isTarget && Expr.areTargets es

end

/-- Parameters of a function, with the line continuations that stand between them. -/
inductive Param where
  | plain (name : String)
  /-- One or two stars before a place. -/
  | splat (stars : Nat) (inner : Span)
  | keywordOnly
  | positionalOnly
  | typed (target : Param) (type : Span)
  | defaulted (name value : Span)
  | typedDefaulted (name : String) (type value : Span)
  | pattern (span : Span)
  | continuation (span : Span)
  deriving Repr, Inhabited

inductive Argument where
  | base (value : Expr)
  | starred (span : Span)
  | doubleStarred (span : Span)
  | keyword (span : Span)
  | continuation (span : Span)
  deriving Repr, Inhabited

inductive DefinitionKind where
  | function
  | classDef
  deriving DecidableEq, Repr, Inhabited

structure Header where
  kind : DefinitionKind
  async : Bool
  name : String
  /-- The whole statement, decorators included. -/
  span : Span
  /-- The end of the last part before the colon. -/
  stop : Nat
  typeParams : Option Span
  params : List Param
  returns : Option Span
  arguments : List Argument
  /-- The decorators' expressions; nothing where a line continuation comes first. -/
  decorators : List (Option Expr)
  deriving Repr, Inhabited

structure ImportItem where
  path : Span
  boundAs : Option String
  deriving Repr, Inhabited

inductive Stmt where
  | definition (header : Header) (body : List Stmt)
  | imports (items : List ImportItem)
  /-- A relative or absolute import of names from a module; no items for a wildcard. -/
  | importsFrom (dots source : Option Span) (items : Option (List ImportItem))
  /-- Bare expressions: the first of them and the number of parts, line continuations included. -/
  | expression (first : Expr) (parts : Nat)
  /-- An assignment and the plain names that it binds, in order. -/
  | assignment (span : Span) (targets : List String)
  /-- An augmented assignment or a bare `yield`. -/
  | effect (span : Span)
  | other
  /-- A line continuation among statements. -/
  | continuation
  deriving Repr, Inhabited

end RepoAtlas.Python
