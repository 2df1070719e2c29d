import RepoAtlas.Text.Segments

/-!
Blank characters, trimming, and the collapsed form of a text: every run of blanks becomes one space,
and no space stands at an end, after an opening bracket or before a closing one.
-/
namespace RepoAtlas.Text

/-- The Unicode space separators together with the ASCII and Unicode line controls and the byte
order mark. U+0085, U+180E and U+200B are not blank. -/
def isBlank (c : Char) : Bool :=
  let n := c.toNat
  (9 ≤ n && n ≤ 13) || n == 0x20 || n == 0xA0 || n == 0x1680 || (0x2000 ≤ n && n ≤ 0x200A) ||
    n == 0x2028 || n == 0x2029 || n == 0x202F || n == 0x205F || n == 0x3000 || n == 0xFEFF

def trimChars (cs : List Char) : List Char := stripEnds isBlank cs

def trim (s : String) : String := String.ofList (trimChars s.toList)

def isOpening (c : Char) : Bool := c == '(' || c == '[' || c == '\x7b'

def isClosing (c : Char) : Bool := c == ')' || c == ']' || c == '\x7d'

/-- Writes each run of blanks as one space. The flag says that the run's space is already out. -/
def squeeze : Bool → List Char → List Char
  | _, [] => []
  | inRun, c :: cs =>
    if isBlank c then
      if inRun then squeeze true cs else ' ' :: squeeze true cs
    else c :: squeeze false cs

def tightenOpening : Bool → List Char → List Char
  | _, [] => []
  | afterOpening, c :: cs =>
    if afterOpening && c == ' ' then tightenOpening false cs
      else c :: tightenOpening (isOpening c) cs

def tightenClosing : List Char → List Char
  | [] => []
  | [c] => [c]
  | c :: d :: cs =>
    if c == ' ' && isClosing d then tightenClosing (d :: cs) else c :: tightenClosing (d :: cs)

def collapseChars (cs : List Char) : List Char :=
  trimChars (tightenClosing (tightenOpening false (squeeze false cs)))

def collapse (s : String) : String := String.ofList (collapseChars s.toList)

end RepoAtlas.Text
