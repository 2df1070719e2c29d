import RepoAtlas.Python.Token
import RepoAtlas.Text.Identifier

/-!
From characters to lexemes. String literals are one lexeme each, except those with replacement
fields, whose fields hold ordinary tokens; a stack of frames says where the reader stands in such
literals. The list ends with `endOfFile`, or with `malformed` at the first place where no lexeme can
be read.
-/
namespace RepoAtlas.Python
open RepoAtlas.Text

/-- White space between tokens; other blank characters are errors there. -/
def isSpace (c : Char) : Bool :=
  let n := c.toNat
  n == 32 || (9 ≤ n && n ≤ 13) || n == 0xFEFF || n == 0x2060 || n == 0x200B

/-- The length of decimal digits with single underscores between or after them. -/
def decimalLength : Bool → List Char → Nat
  | _, [] => 0
  | afterDigit, c :: cs =>
    if c.isDigit then decimalLength true cs + 1
    else if c == '_' && afterDigit then decimalLength false cs + 1
    else 0

/-- The length of digits of a kind with single underscores before any of them. -/
def basedLength (isDigit : Char → Bool) : List Char → Nat
  | [] => 0
  | '_' :: c :: cs => if isDigit c then basedLength isDigit cs + 2 else 0
  | c :: cs => if isDigit c then basedLength isDigit cs + 1 else 0

def isHexDigit (c : Char) : Bool := c.isDigit || ('a' ≤ c && c ≤ 'f') || ('A' ≤ c && c ≤ 'F')

def oneIf (isOk : Char → Bool) : List Char → Nat
  | c :: _ => if isOk c then 1 else 0
  | [] => 0

def isLongMark (c : Char) : Bool := c == 'l' || c == 'L'

def isImaginaryMark (c : Char) : Bool := c == 'j' || c == 'J'

def exponentLength : List Char → Nat
  | c :: cs =>
    if c == 'e' || c == 'E' then
      let sign := oneIf (fun d => d == '+' || d == '-') cs
      match decimalLength false (cs.drop sign) with
      | 0 => 0
      | n => 1 + sign + n
    else 0
  | [] => 0

/-- The length of a number without a base letter: `1`, `1.`, `.5`, `1e5`, `1j`, `1L` and so on. -/
def plainNumberLength (cs : List Char) : Nat :=
  let whole := decimalLength false cs
  match cs.drop whole with
  | '.' :: rest =>
    let fraction := decimalLength false rest
    if whole == 0 && fraction == 0 then 0
    else
      let n := fraction + exponentLength (rest.drop fraction)
      whole + 1 + n + oneIf isImaginaryMark (rest.drop n)
  | rest =>
    if whole == 0 then 0
    else
      match exponentLength rest with
      | 0 => whole + oneIf (fun c => isLongMark c || isImaginaryMark c) rest
      | n => whole + n + oneIf isImaginaryMark (rest.drop n)

def digitsOfBase (letter : Char) : Option (Char → Bool) :=
  if letter == 'x' || letter == 'X' then some isHexDigit
  else if letter == 'o' || letter == 'O' then some fun c => '0' ≤ c && c ≤ '7'
  else if letter == 'b' || letter == 'B' then some fun c => c == '0' || c == '1'
  else none

def numberLength (cs : List Char) : Nat :=
  match cs with
  | '0' :: letter :: rest =>
    match digitsOfBase letter with
    | some isDigit =>
      match basedLength isDigit rest with
      | 0 => plainNumberLength cs
      | n => 2 + n + oneIf isLongMark (rest.drop n)
    | none => plainNumberLength cs
  | _ => plainNumberLength cs

def wordLength (cs : List Char) : Nat :=
  match cs with
  | c :: rest => if isIdentStart c then (rest.takeWhile isIdentPart).length + 1 else 0
  | [] => 0

def symbols : List String :=
  ["**=", "//=", ">>=", "<<=", "...",
   "**", "//", ">>", "<<", "<=", ">=", "==", "!=", "<>", "->", "+=", "-=", "*=", "/=", "%=", "&=",
   "|=", "^=", "@=", ":=",
   "(", ")", "[", "]", "\x7b", "\x7d", ",", ":", ".", ";", "=", "+", "-", "*", "/", "%", "&", "|",
   "^", "~", "<", ">", "@"]

def symbol? (cs : List Char) : Option String := symbols.find? fun s => s.toList.isPrefixOf cs

structure Quote where
  mark : Char
  triple : Bool
  raw : Bool
  bytes : Bool
  format : Bool
  deriving DecidableEq, Repr

def isPrefixLetter (c : Char) : Bool := "fFrRbBuU".toList.contains c

def isQuoteMark (c : Char) : Bool := c == '\x27' || c == '"' || c == '`'

def quote? (cs : List Char) : Option (Quote × Nat) :=
  let letters := cs.takeWhile isPrefixLetter
  let raw := letters.any fun c => c == 'r' || c == 'R'
  let bytes := letters.any fun c => c == 'b' || c == 'B'
  let format := letters.any fun c => c == 'f' || c == 'F'
  match cs.drop letters.length with
  | a :: b :: c :: _ =>
    if !isQuoteMark a then none
    else if a != '`' && a == b && b == c then
      some (⟨a, true, raw, bytes, format⟩, letters.length + 3)
    else some (⟨a, false, raw, bytes, format⟩, letters.length + 1)
  | a :: _ =>
    if isQuoteMark a then some (⟨a, false, raw, bytes, format⟩, letters.length + 1) else none
  | [] => none

/-- How many characters after a backslash belong to the escape, none if it is no known escape. -/
def escapeLength (cs : List Char) : Nat :=
  match cs with
  | '\r' :: '\n' :: _ => 2
  | '\n' :: _ => 1
  | 'x' :: rest => if 2 ≤ (rest.takeWhile isHexDigit).length then 3 else 0
  | 'u' :: rest => if 4 ≤ (rest.takeWhile isHexDigit).length then 5 else 0
  | 'U' :: rest => if 8 ≤ (rest.takeWhile isHexDigit).length then 9 else 0
  | 'N' :: '\x7b' :: rest =>
    let name := (rest.takeWhile fun c => c != '\x7d').length
    if 0 < name && name < rest.length then name + 3 else 0
  | c :: rest =>
    if "'\"abfrntv\\".toList.contains c then 1
    else if c.isDigit && 2 ≤ (rest.takeWhile Char.isDigit).length then 3
    else 0
  | [] => 0

def rawEscapeLength (mark : Char) (cs : List Char) : Nat :=
  let kept := oneIf (fun c => c == mark || c == '\\') cs
  match cs.drop kept with
  | '\r' :: '\n' :: _ => kept + 2
  | '\r' :: _ => kept + 1
  | '\n' :: _ => kept + 1
  | _ => kept

/-- Whether a backslash in bytes starts what would be the name or number of a character
elsewhere. -/
def isTextEscape (cs : List Char) : Bool :=
  match cs with
  | c :: _ => c == 'N' || c == 'u' || c == 'U'
  | [] => false

inductive Ending where
  | closed
  | field
  | broken
  deriving DecidableEq, Repr

/-- Reads the text of a literal and counts its characters, the closing quote included. A line break
in a literal of one line is tolerated only where nothing was read since the last escape, field or
quote; the first flag says so. The next argument counts characters of an escape to be passed over.
In bytes, `\N`, `\u` and `\U` are text together with the character after them. -/
def scanText (q : Quote) : Bool → Nat → Nat → List Char → Ending × Nat
  | _, _, n, [] => (.broken, n)
  | fresh, skip + 1, n, _ :: cs => scanText q fresh skip (n + 1) cs
  | fresh, 0, n, c :: cs =>
    if c == '\\' then
      if q.raw then scanText q fresh (rawEscapeLength q.mark cs) (n + 1) cs
      else if q.bytes && isTextEscape cs then scanText q false 2 (n + 1) cs
      else scanText q true (escapeLength cs) (n + 1) cs
    else if c == q.mark then
      if !q.triple then (.closed, n + 1)
      else if cs.head? == some q.mark && cs.tail.head? == some q.mark then (.closed, n + 3)
      else scanText q false 0 (n + 1) cs
    else if c == '\n' && !q.triple then
      if fresh then scanText q false 0 (n + 1) cs else (.broken, n)
    else if q.format && c == '\x7b' then
      if cs.head? == some '\x7b' then scanText q true 1 (n + 1) cs else (.field, n)
    else if q.format && c == '\x7d' then
      if cs.head? == some '\x7d' then scanText q true 1 (n + 1) cs else (.broken, n)
    else scanText q false 0 (n + 1) cs

inductive Frame where
  | text (quote : Quote)
  /-- In a field, below so many open brackets and lambdas whose colon is still to come. -/
  | field (depth lambdas : Nat)
  | spec
  deriving DecidableEq, Repr

structure Found where
  token : Token
  length : Nat
  frames : List Frame
  deriving Repr

def opens (s : String) : Bool := s == "(" || s == "[" || s == "\x7b"

def closesBracket (s : String) : Bool := s == ")" || s == "]" || s == "\x7d"

def readSymbol (frames : List Frame) (s : String) : Found :=
  let plain (frames : List Frame) : Found := ⟨.symbol s, s.length, frames⟩
  match frames with
  | .field depth lambdas :: below =>
    if opens s then plain (.field (depth + 1) lambdas :: below)
    else if depth == 0 then
      if s == "\x7d" then ⟨.fieldClose, 1, below⟩
      else if s == ":" then
        if lambdas == 0 then ⟨.formatColon, 1, .spec :: frames⟩
        else plain (.field depth (lambdas - 1) :: below)
      else plain frames
    else if closesBracket s then plain (.field (depth - 1) lambdas :: below)
    else plain frames
  | _ => plain frames

def readWord (frames : List Frame) (text : String) (length : Nat) : Found :=
  match frames with
  | .field 0 lambdas :: below =>
    ⟨.word text, length, if text == "lambda" then .field 0 (lambdas + 1) :: below else frames⟩
  | _ => ⟨.word text, length, frames⟩

def readString (frames : List Frame) (q : Quote) (opening : Nat) (cs : List Char) : Found :=
  if q.format then ⟨.formatOpen, opening, .text q :: frames⟩
  else
    match scanText q true 0 opening (cs.drop opening) with
    | (.closed, n) => ⟨.string (cs.head?.all isQuoteMark), n, frames⟩
    | (_, n) => ⟨.malformed, n, frames⟩

/-- Whether a colon that ends a field's expression is followed by a sign that belongs to it. -/
def isWalrus (afterWord : Bool) (cs : List Char) : Bool := afterWord && cs.head? == some '='

def readCode (frames : List Frame) (afterWord : Bool) (cs : List Char) : Found :=
  match cs with
  | '#' :: _ => ⟨.comment, (cs.takeWhile fun c => c != '\n').length, frames⟩
  | ['\\'] => ⟨.continuation, 1, frames⟩
  | '\\' :: '\n' :: _ => ⟨.continuation, 2, frames⟩
  | '\\' :: '\r' :: '\n' :: _ => ⟨.continuation, 3, frames⟩
  | _ =>
    match quote? cs with
    | some (q, opening) => readString frames q opening cs
    | none =>
      match wordLength cs with
      | n + 1 => readWord frames (String.ofList (cs.take (n + 1))) (n + 1)
      | 0 =>
        match numberLength cs with
        | n + 1 => ⟨.number, n + 1, frames⟩
        | 0 =>
          match frames, cs with
          | .field 0 _ :: _, '!' :: c :: _ =>
            if c.isLower then ⟨.conversion, 2, frames⟩
            else match symbol? cs with
              | some s => readSymbol frames s
              | none => ⟨.malformed, 0, frames⟩
          | .field 0 0 :: _, ':' :: rest =>
            if isWalrus afterWord rest then ⟨.symbol ":=", 2, frames⟩ else readSymbol frames ":"
          | _, _ =>
            match symbol? cs with
            | some s => readSymbol frames s
            | none => ⟨.malformed, 0, frames⟩

def readText (q : Quote) (frames : List Frame) (cs : List Char) : Found :=
  match scanText q true 0 0 cs with
  | (.closed, n) => ⟨.formatClose, n, frames.tail⟩
  | (.field, n) => ⟨.fieldOpen, n + 1, .field 0 0 :: frames⟩
  | (.broken, n) => ⟨.malformed, n, frames⟩

def readSpec (frames : List Frame) (cs : List Char) : Found :=
  match cs with
  | '\x7b' :: _ => ⟨.fieldOpen, 1, .field 0 0 :: frames⟩
  | '\x7d' :: _ => ⟨.fieldClose, 1, frames.tail.tail⟩
  | _ => ⟨.formatText, (cs.takeWhile fun c => c != '\x7b' && c != '\x7d').length, frames⟩

def readToken (frames : List Frame) (afterWord : Bool) (cs : List Char) : Found :=
  match frames with
  | .text q :: _ => readText q frames cs
  | .spec :: _ => readSpec frames cs
  | _ => readCode frames afterWord cs

/-! Every token that is read is spelled as its kind asks. -/

theorem isIdentifier_word {cs : List Char} {n : Nat} (h : wordLength cs = n + 1) :
    isIdentifier (String.ofList (cs.take (n + 1))) = true := by
  cases cs with
  | nil => simp [wordLength] at h
  | cons c rest =>
    by_cases start : isIdentStart c = true
    · have length : (rest.takeWhile isIdentPart).length = n := by simpa [wordLength, start] using h
      have parts : rest.take n = rest.takeWhile isIdentPart := by
        rw [← length]
        exact (List.prefix_iff_eq_take.mp (List.takeWhile_prefix isIdentPart)).symm
      simp [isIdentifier, start, parts]
    · simp [wordLength, start] at h

theorem readSymbol_spelled (frames : List Frame) (s : String) :
    (readSymbol frames s).token.Spelled := by
  unfold readSymbol
  repeat' split
  all_goals trivial

theorem readWord_spelled (frames : List Frame) {text : String} (length : Nat)
    (h : isIdentifier text = true) : (readWord frames text length).token.Spelled := by
  unfold readWord
  split <;> exact h

theorem readString_spelled (frames : List Frame) (q : Quote) (opening : Nat) (cs : List Char) :
    (readString frames q opening cs).token.Spelled := by
  unfold readString
  repeat' split
  all_goals trivial

theorem readCode_spelled (frames : List Frame) (afterWord : Bool) (cs : List Char) :
    (readCode frames afterWord cs).token.Spelled := by
  unfold readCode
  repeat' split
  all_goals first
    | trivial
    | exact readString_spelled ..
    | exact readSymbol_spelled ..
    | exact readWord_spelled _ _ (isIdentifier_word ‹_›)

theorem readToken_spelled (frames : List Frame) (afterWord : Bool) (cs : List Char) :
    (readToken frames afterWord cs).token.Spelled := by
  unfold readToken
  split
  · unfold readText
    split <;> trivial
  · unfold readSpec
    split <;> trivial
  · exact readCode_spelled ..

def skipsSpace : List Frame → Bool
  | .text _ :: _ => false
  | .spec :: _ => false
  | _ => true

def isContinuation (l : Lexeme) : Bool := l.token == .continuation

/-- Puts a lexeme on a list that is kept last first. A line continuation directly before a string
literal is white space, so the literal takes its gap and its place. -/
def push (l : Lexeme) (before : List Lexeme) : List Lexeme :=
  match l.token with
  | .string _ | .formatOpen =>
    match (before.takeWhile isContinuation).getLast? with
    | some first => { l with gap := first.gap, near := first.near } ::
          before.dropWhile isContinuation
    | none => l :: before
  | _ => l :: before

def endsInWord : List Lexeme → Bool
  | { token := .word _, .. } :: _ => true
  | _ => false

/-- Reads lexemes from an offset on; the bound is the number of characters left. -/
def lexFrom : Nat → Nat → List Frame → List Lexeme → List Char → List Lexeme
  | bound, offset, frames, before, cs =>
    let gap := Gap.full cs
    let near := Gap.short cs
    let spaces := if skipsSpace frames then (cs.takeWhile isSpace).length else 0
    let start := offset + spaces
    match bound, cs.drop spaces with
    | _, [] =>
      let last : Lexeme :=
        if frames.isEmpty then ⟨.endOfFile, ⟨start, start⟩, gap, near, trivial⟩
        else ⟨.malformed, ⟨start, start⟩, gap, near, trivial⟩
      (push last before).reverse
    | 0, _ => (push ⟨.malformed, ⟨start, start⟩, gap, near, trivial⟩ before).reverse
    | bound + 1, rest =>
      let found := readToken frames (endsInWord before) rest
      let lexeme : Lexeme :=
        ⟨found.token, ⟨start, start + found.length⟩, gap, near, readToken_spelled ..⟩
      if found.token == .malformed then (push lexeme before).reverse
      else
        lexFrom bound (start + found.length) found.frames (push lexeme before)
          (rest.drop found.length)

def lex (cs : List Char) : List Lexeme := lexFrom (cs.length + 1) 0 [] [] cs

end RepoAtlas.Python
