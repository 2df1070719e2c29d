import RepoAtlas.Python.Lexer
import RepoAtlas.Python.Statement
import RepoAtlas.Text.Utf8

/-!
Python files: the text, its lines and the statements read from it, or the reason why there are none.
-/
namespace RepoAtlas.Python
open RepoAtlas.Text

structure SourceText where
  chars : Array Char
  rows : Array Nat

namespace SourceText

/-- For each offset, the end included, the line breaks before it. -/
def countRows (cs : List Char) : Array Nat :=
  (cs.foldl (fun (rows, n) c =>
    let n := if c == '\n' then n + 1 else n
    (rows.push n, n)) (#[0], 0)).1

def ofChars (cs : List Char) : SourceText := ⟨cs.toArray, countRows cs⟩

def line (t : SourceText) (offset : Nat) : Nat := t.rows.getD offset 0 + 1

def slice (t : SourceText) (s : Span) : List Char := (t.chars.extract s.start s.stop).toList

def text (t : SourceText) (s : Span) : String := String.ofList (t.slice s)

end SourceText

inductive ParseFault where
  | notUtf8
  | syntaxError (line : Nat)
  deriving DecidableEq, Repr

structure ParseError where
  path : String
  fault : ParseFault
  deriving DecidableEq, Repr

def ParseError.line? (e : ParseError) : Option Nat :=
  match e.fault with
  | .notUtf8 => none
  | .syntaxError line => some line

def ParseError.message (e : ParseError) : String :=
  match e.fault with
  | .notUtf8 => e.path ++ " is not valid UTF-8"
  | .syntaxError line => "syntax error in " ++ e.path ++ " at line " ++ toString line

structure SourceFile where
  path : String
  text : SourceText
  body : List Stmt

namespace SourceFile

def parse (path : String) (text : String) : Except ParseError SourceFile :=
  let cs := text.toList
  let source := SourceText.ofChars cs
  match statements (lex cs) with
  | .ok body => .ok ⟨path, source, body⟩
  | .error offset => .error ⟨path, .syntaxError (source.line offset)⟩

def ofBytes (path : String) (bytes : ByteArray) : Except ParseError SourceFile :=
  match Utf8.decode? bytes with
  | some text => parse path text
  | none => .error ⟨path, .notUtf8⟩

end SourceFile

end RepoAtlas.Python
