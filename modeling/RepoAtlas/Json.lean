import RepoAtlas.Text.Units

/-!
JSON values and a strict reader: no byte order mark, no trailing comma, no raw control character in
a string, and only space, tab, line feed and carriage return between tokens. Members of an object
are kept as written, repeated keys included. Strings are kept in code units, since an escape may
give half of a pair and nothing else.
-/
namespace RepoAtlas
open Text

inductive Json where
  | null
  | bool (value : Bool)
  | number (text : String)
  | string (value : Units)
  | array (items : List Json)
  | object (members : List (Units × Json))
  deriving Repr

namespace Json

def isGap (c : Char) : Bool := c == ' ' || c == '\t' || c == '\n' || c == '\r'

def skipGap (cs : List Char) : List Char := cs.dropWhile isGap

def hexValue? (c : Char) : Option Nat :=
  if c.isDigit then some (c.toNat - 48)
  else if 'a' ≤ c && c ≤ 'f' then some (c.toNat - 87)
  else if 'A' ≤ c && c ≤ 'F' then some (c.toNat - 55)
  else none

def readHex4? : List Char → Option (UInt16 × List Char)
  | a :: b :: c :: d :: cs => do
    let a ← hexValue? a
    let b ← hexValue? b
    let c ← hexValue? c
    let d ← hexValue? d
    some (UInt16.ofNat (((a * 16 + b) * 16 + c) * 16 + d), cs)
  | _ => none

def escapedChar? : Char → Option Char
  | '"' => some '"'
  | '\\' => some '\\'
  | '/' => some '/'
  | 'b' => some '\x08'
  | 'f' => some '\x0c'
  | 'n' => some '\n'
  | 'r' => some '\r'
  | 't' => some '\t'
  | _ => none

/-- The units of a string up to its closing quote, and what follows the quote; those in front come
in reverse. -/
def readString? : Nat → Units → List Char → Option (Units × List Char)
  | 0, _, _ => none
  | _, _, [] => none
  | _ + 1, out, '"' :: cs => some (out.reverse, cs)
  | n + 1, out, '\\' :: 'u' :: cs =>
    match readHex4? cs with
    | some (u, rest) => readString? n (u :: out) rest
    | none => none
  | n + 1, out, '\\' :: c :: cs =>
    match escapedChar? c with
    | some e => readString? n ((unitsOf e).reverse ++ out) cs
    | none => none
  | n + 1, out, c :: cs =>
    if c.toNat < 0x20 || c == '\\' then none else readString? n ((unitsOf c).reverse ++ out) cs

def takeDigits (cs : List Char) : List Char × List Char := cs.span Char.isDigit

/-- The integer part: one zero, or digits that do not start with zero. -/
def readWhole? (cs : List Char) : Option (List Char × List Char) :=
  match cs with
  | '0' :: rest => some (['0'], rest)
  | _ =>
    match takeDigits cs with
    | ([], _) => none
    | found => some found

def readFraction? (cs : List Char) : Option (List Char × List Char) :=
  match cs with
  | '.' :: rest =>
    match takeDigits rest with
    | ([], _) => none
    | (ds, rest') => some ('.' :: ds, rest')
  | _ => some ([], cs)

def readExponent? (cs : List Char) : Option (List Char × List Char) :=
  match cs with
  | e :: rest =>
    if e == 'e' || e == 'E' then
      let (sign, rest) := match rest with
        | '+' :: more => (['+'], more)
        | '-' :: more => (['-'], more)
        | more => ([], more)
      match takeDigits rest with
      | ([], _) => none
      | (ds, rest') => some (e :: sign ++ ds, rest')
    else some ([], cs)
  | [] => some ([], [])

def readNumber? (cs : List Char) : Option (Json × List Char) := do
  let (sign, cs) := match cs with
    | '-' :: rest => (['-'], rest)
    | rest => ([], rest)
  let (whole, cs) ← readWhole? cs
  let (fraction, cs) ← readFraction? cs
  let (exponent, cs) ← readExponent? cs
  some (.number (String.ofList (sign ++ whole ++ fraction ++ exponent)), cs)

def readWord? (word : String) (cs : List Char) : Option (List Char) :=
  if word.toList.isPrefixOf cs then some (cs.drop word.toList.length) else none

mutual

def readValue? : Nat → List Char → Option (Json × List Char)
  | 0, _ => none
  | n + 1, '"' :: cs => (readString? n [] cs).map fun r => (.string r.1, r.2)
  | n + 1, '[' :: cs =>
    match skipGap cs with
    | ']' :: rest => some (.array [], rest)
    | rest => (readItems? n rest).map fun r => (.array r.1, r.2)
  | n + 1, '\x7b' :: cs =>
    match skipGap cs with
    | '\x7d' :: rest => some (.object [], rest)
    | rest => (readMembers? n rest).map fun r => (.object r.1, r.2)
  | _ + 1, 't' :: cs => (readWord? "rue" cs).map fun r => (.bool true, r)
  | _ + 1, 'f' :: cs => (readWord? "alse" cs).map fun r => (.bool false, r)
  | _ + 1, 'n' :: cs => (readWord? "ull" cs).map fun r => (.null, r)
  | _ + 1, cs => readNumber? cs

def readItems? : Nat → List Char → Option (List Json × List Char)
  | 0, _ => none
  | n + 1, cs =>
    match readValue? n cs with
    | none => none
    | some (item, rest) =>
      match skipGap rest with
      | ']' :: rest => some ([item], rest)
      | ',' :: rest => (readItems? n (skipGap rest)).map fun r => (item :: r.1, r.2)
      | _ => none

def readMembers? : Nat → List Char → Option (List (Units × Json) × List Char)
  | 0, _ => none
  | n + 1, '"' :: cs =>
    match readString? n [] cs with
    | none => none
    | some (key, rest) =>
      match skipGap rest with
      | ':' :: rest =>
        match readValue? n (skipGap rest) with
        | none => none
        | some (value, rest) =>
          match skipGap rest with
          | '\x7d' :: rest => some ([(key, value)], rest)
          | ',' :: rest => (readMembers? n (skipGap rest)).map fun r => ((key, value) :: r.1, r.2)
          | _ => none
      | _ => none
  | _ + 1, _ => none

end

def parse? (s : String) : Option Json :=
  let cs := s.toList
  match readValue? (2 * cs.length + 1) (skipGap cs) with
  | some (value, rest) => if (skipGap rest).isEmpty then some value else none
  | none => none

end Json

end RepoAtlas
