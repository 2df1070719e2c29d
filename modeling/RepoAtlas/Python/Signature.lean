import RepoAtlas.Python.Outline
import RepoAtlas.Text.Segments

/-!
The header of a definition on one line, with white space collapsed and comments between parameters
left out.
-/
namespace RepoAtlas.Python
open RepoAtlas.Text

def SourceText.oneLine (t : SourceText) (s : Span) : String :=
  String.ofList (collapseChars (t.slice s))

def SourceText.param (t : SourceText) : Param → String
  | .plain name => name
  | .splat stars inner => String.ofList (List.replicate stars '*') ++ t.text inner
  | .keywordOnly => "*"
  | .positionalOnly => "/"
  | .typed target type => t.param target ++ ": " ++ t.oneLine type
  | .defaulted name value => t.oneLine name ++ "=" ++ t.oneLine value
  | .typedDefaulted name type value => name ++ ": " ++ t.oneLine type ++ " = " ++ t.oneLine value
  | .pattern s | .continuation s => t.oneLine s

def Argument.span : Argument → Span
  | .base e => e.span
  | .starred s | .doubleStarred s | .keyword s | .continuation s => s

def SourceText.typeParams (t : SourceText) (h : Header) : String :=
  (h.typeParams.map t.oneLine).getD ""

def SourceText.functionSignature (t : SourceText) (h : Header) : String :=
  let params := joinWith ", " (h.params.map t.param)
  let returns := match h.returns with
    | some s => " -> " ++ t.oneLine s
    | none => ""
  (if h.async then "async " else "") ++ "def " ++ h.name ++ t.typeParams h ++ "(" ++ params ++
    ")" ++ returns

def SourceText.classSignature (t : SourceText) (h : Header) : String :=
  let arguments := h.arguments.map fun a => t.oneLine a.span
  let list := if arguments.isEmpty then "" else "(" ++ joinWith ", " arguments ++ ")"
  "class " ++ h.name ++ t.typeParams h ++ list

def SourceText.signature (t : SourceText) (h : Header) : String :=
  match h.kind with
  | .function => t.functionSignature h
  | .classDef => t.classSignature h

end RepoAtlas.Python
