/-!
Texts as segments between one-character separators, such as the parts of a dotted name or of a path.
-/
namespace RepoAtlas.Text

/-- The parts between separators: one more than there are separators, empty parts included. -/
def segments (sep : Char) (s : String) : List String :=
  (s.toList.splitOn sep).map String.ofList

def properSegments (sep : Char) (s : String) : List String :=
  (segments sep s).filter (fun part => part != "")

def joinWith (sep : String) (parts : List String) : String := sep.intercalate parts

def dotted (parts : List String) : String := joinWith "." parts

def lastSegment (sep : Char) (s : String) : String := (segments sep s).getLastD ""

def firstSegment (sep : Char) (s : String) : String := (segments sep s).headD ""

def dropSuffixChars (suffix : List Char) (cs : List Char) : List Char :=
  if suffix.isSuffixOf cs then cs.take (cs.length - suffix.length) else cs

def withoutSuffix (suffix s : String) : String :=
  String.ofList (dropSuffixChars suffix.toList s.toList)

def startsWith (start s : String) : Bool := start.toList.isPrefixOf s.toList

def afterStart? (start s : String) : Option String :=
  if startsWith start s then some (String.ofList (s.toList.drop start.toList.length)) else none

def isDot (c : Char) : Bool := c == '.'

def isSlash (c : Char) : Bool := c == '/' || c == '\\'

def dotRuns (kind : Char → Bool) : List Char → List Char
  | [] => []
  | c :: cs =>
    if kind c then
      -- the dot stands for the last character of the run
      if cs.head?.any kind then dotRuns kind cs else '.' :: dotRuns kind cs
    else c :: dotRuns kind cs

def stripEnds (kind : Char → Bool) (cs : List Char) : List Char :=
  ((cs.dropWhile kind).reverse.dropWhile kind).reverse

/-- Slashes become dots, then dots side by side become one, then dots at the ends vanish. -/
def normalizeSeparators (s : String) : String :=
  String.ofList (stripEnds isDot (dotRuns isDot (dotRuns isSlash s.toList)))

end RepoAtlas.Text
