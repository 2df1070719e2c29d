import RepoAtlas.Text.Segments

/-!
Slash-separated paths as texts: normal form, joining, absolute and relative spelling. An absolute
path in normal form is a slash followed by its parts; `.` and `..` and repeated slashes are gone.
-/
namespace RepoAtlas.Path
open RepoAtlas.Text

def isAbsolute (p : String) : Bool := startsWith "/" p

/-- Walks over the parts with a stack of those kept, last first. A `..` takes the top away; with
nothing to take away it is kept in a relative path and dropped in an absolute one. -/
def settle (absolute : Bool) : List String → List String → List String
  | stack, [] => stack.reverse
  | stack, part :: rest =>
    if part = "" ∨ part = "." then settle absolute stack rest
    else if part = ".." then
      match stack with
      | [] => if absolute then settle absolute [] rest else settle absolute [".."] rest
      | top :: below =>
        if top = ".." then settle absolute (".." :: top :: below) rest
        else settle absolute below rest
    else settle absolute (part :: stack) rest

def absoluteParts (p : String) : List String := settle true [] (segments '/' p)

def ofParts (parts : List String) : String := "/" ++ joinWith "/" parts

/-- Normal form; a slash at the end of the path is kept. -/
def normalize (p : String) : String :=
  let absolute := isAbsolute p
  let trailing := p.toList.getLast? == some '/'
  let body := joinWith "/" (settle absolute [] (segments '/' p))
  let body := if body = "" then (if absolute then "" else ".") else body
  let body := if trailing && body != "" then body ++ "/" else body
  if absolute then "/" ++ body else body

/-- Joins the non-empty pieces with slashes and brings the result into normal form. -/
def join (pieces : List String) : String :=
  normalize (joinWith "/" (pieces.filter (fun piece => piece != "")))

def resolve (dir p : String) : String :=
  ofParts (absoluteParts (if isAbsolute p then p else dir ++ "/" ++ p))

def parent (p : String) : String := ofParts (absoluteParts p).dropLast

def baseName (p : String) : String := (absoluteParts p).getLastD ""

def relativeParts : List String → List String → List String
  | a :: as, b :: bs =>
    if a = b then relativeParts as bs else (a :: as).map (fun _ => "..") ++ b :: bs
  | as, bs => as.map (fun _ => "..") ++ bs

/-- How to write the absolute path `p` from the directory `dir`; empty for `dir` itself. -/
def relativeTo (dir p : String) : String :=
  joinWith "/" (relativeParts (absoluteParts dir) (absoluteParts p))

def toAbsolute (root p : String) : String := if isAbsolute p then normalize p else resolve root p

end RepoAtlas.Path
