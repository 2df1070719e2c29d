import RepoAtlas.Python.Literal
import RepoAtlas.Python.Source
import RepoAtlas.Text.Blank
import RepoAtlas.Text.Units

/-!
What a file defines and imports at its top level: definitions, the methods of classes, variables and
imports, with the names, bases and docstrings that belong to them.
-/
namespace RepoAtlas.Python
open RepoAtlas.Text

structure Definition where
  header : Header
  body : List Stmt
  deriving Inhabited

def Definition.name (d : Definition) : String := d.header.name

def Definition.kind (d : Definition) : DefinitionKind := d.header.kind

def Stmt.definition? : Stmt → Option Definition
  | .definition header body => some ⟨header, body⟩
  | _ => none

def definitionsOf (body : List Stmt) : List Definition := body.filterMap Stmt.definition?

def SourceFile.definitions (f : SourceFile) : List Definition := definitionsOf f.body

def Definition.methods (d : Definition) : List Definition :=
  (definitionsOf d.body).filter fun m => m.kind == .function

/-- The last definition of a name, of a kind if one is given: later ones replace earlier ones. -/
def SourceFile.find? (f : SourceFile) (name : String) (kind : Option DefinitionKind) :
    Option Definition :=
  (f.definitions.filter fun d => d.name == name && kind.all (· == d.kind)).getLast?

def Stmt.assignedNames : Stmt → List String
  | .assignment _ names => names
  | _ => []

def SourceFile.variables (f : SourceFile) : List String := f.body.flatMap Stmt.assignedNames

def SourceFile.hasVariable (f : SourceFile) (name : String) : Bool := f.variables.contains name

/-- The dotted name of an expression. Subscripts, calls and parentheses are looked through. -/
def Expr.dottedName? : Expr → Option String
  | .name _ text => some text
  | .attribute _ object attr => object.dottedName?.map fun o => o ++ "." ++ attr
  | .subscript _ value => value.dottedName?
  | .call _ function => function.dottedName?
  | .group _ inner bare => if bare then inner.dottedName? else none
  | _ => none

/-- What a class may inherit from: every argument without a star and without a keyword. -/
def Argument.isBase : Argument → Bool
  | .base _ | .continuation _ => true
  | _ => false

def Argument.baseName? : Argument → Option String
  | .base e => e.dottedName?
  | _ => none

def Definition.baseArguments (d : Definition) : List Argument :=
  d.header.arguments.filter Argument.isBase

def Definition.baseNames (d : Definition) : List String :=
  d.baseArguments.filterMap Argument.baseName?

def Definition.decoratorNames (d : Definition) : List (Option String) :=
  d.header.decorators.map fun e => e.bind Expr.dottedName?

def SourceText.literalValue? (t : SourceText) : Expr → Option String
  | .literal s => (literalValue (t.slice s)).map String.ofList
  | .literals _ parts =>
    (parts.mapM fun (part : Option Span) =>
      part.bind fun s => literalValue (t.slice s)).map fun values => String.ofList values.flatten
  | _ => none

/-- The docstring of a body: its first statement, if that is one bare string. -/
def SourceText.docstring? (t : SourceText) (body : List Stmt) : Option String :=
  match body with
  | .expression e 1 :: _ => t.literalValue? e
  | _ => none

inductive ImportKind where
  /-- A module as a whole. -/
  | module
  /-- A name from a module. -/
  | member
  /-- All names from a module. -/
  | wildcard
  deriving DecidableEq, Repr

structure Import where
  boundAs : String
  source : Option String
  name : String
  /-- The number of leading dots. -/
  level : Nat
  kind : ImportKind
  deriving DecidableEq, Repr

/-- The level that the text of the dots gives: the units in it that are not blank. -/
def SourceText.level (t : SourceText) (dots : Option Span) : Nat :=
  match dots with
  | some s => unitLength (String.ofList ((t.slice s).filter fun c => !isBlank c))
  | none => 0

def SourceText.importsOf (t : SourceText) : Stmt → List Import
  | .imports items =>
    items.map fun i =>
      let path := t.text i.path
      ⟨i.boundAs.getD path, some path, path, 0, .module⟩
  | .importsFrom dots source items =>
    let module := source.map t.text
    let level := t.level dots
    match items with
    | none => [⟨"*", module, "*", level, .wildcard⟩]
    | some items =>
      items.map fun i =>
        let path := t.text i.path
        ⟨i.boundAs.getD path, module, path, level, .member⟩
  | _ => []

def SourceFile.imports (f : SourceFile) : List Import := f.body.flatMap f.text.importsOf

end RepoAtlas.Python
