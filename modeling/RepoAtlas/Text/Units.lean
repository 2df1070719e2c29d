/-!
Texts in 16-bit code units: a character from U+10000 on takes a pair of them. Any list of units is a
text, also one that holds half of a pair.
-/
namespace RepoAtlas.Text

abbrev Units := List UInt16

def unitsOf (c : Char) : Units :=
  let n := c.toNat
  if n < 0x10000 then [UInt16.ofNat n]
  else [UInt16.ofNat (0xD800 + (n - 0x10000) / 0x400),
    UInt16.ofNat (0xDC00 + (n - 0x10000) % 0x400)]

def units (s : String) : Units := s.toList.flatMap unitsOf

def unitLength (s : String) : Nat := (units s).length

/-- Code-unit order, which differs from code-point order above U+FFFF. -/
def unitLt (a b : String) : Bool := List.lex (units a) (units b) (fun x y => decide (x < y))

def isHighUnit (u : UInt16) : Bool := 0xD800 ≤ u && u < 0xDC00

def isLowUnit (u : UInt16) : Bool := 0xDC00 ≤ u && u < 0xE000

def pairedUnits (u v : UInt16) : Char :=
  Char.ofNat (0x10000 + (u.toNat - 0xD800) * 0x400 + (v.toNat - 0xDC00))

/-- The character of a unit that has no partner; half of a pair is shown as U+FFFD. -/
def loneUnit (u : UInt16) : Char :=
  if isHighUnit u || isLowUnit u then Char.ofNat 0xFFFD else Char.ofNat u.toNat

def charsOf : Units → List Char
  | [] => []
  | [u] => [loneUnit u]
  | u :: v :: us =>
    if isHighUnit u && isLowUnit v then pairedUnits u v :: charsOf us
    else loneUnit u :: charsOf (v :: us)

/-- The text as it is shown, where every half of a pair that stands alone looks the same. -/
def ofUnits (us : Units) : String := String.ofList (charsOf us)

end RepoAtlas.Text
