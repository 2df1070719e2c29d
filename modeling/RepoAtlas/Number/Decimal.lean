/-!
Decimal texts of floating-point numbers: the fewest digits that read back as the number, found on
its exact value as a fraction of natural numbers.
-/
namespace RepoAtlas.Number

structure Ratio where
  num : Nat
  den : Nat
  deriving DecidableEq, Repr

/-- The fraction that the bits of a finite number stand for, its sign left out. -/
def magnitude (x : Float) : Ratio :=
  let bits := x.toBits.toNat % Nat.pow 2 63
  let field := bits / Nat.pow 2 52
  let low := bits % Nat.pow 2 52
  let mantissa := if field == 0 then low else low + Nat.pow 2 52
  let shift := if field == 0 then 1 else field
  -- The value is mantissa · 2 ^ (shift - 1075).
  if 1075 ≤ shift then ⟨mantissa * Nat.pow 2 (shift - 1075), 1⟩
  else ⟨mantissa, Nat.pow 2 (1075 - shift)⟩

/-- How many times a fraction below one can be multiplied by ten and stay below one. -/
def leadingZeros (den : Nat) : Nat → Nat → Nat
  | 0, _ => 0
  | n + 1, num => if num * 10 < den then leadingZeros den n (num * 10) + 1 else 0

/-- The number of digits before the point: the least `p` with the value below `10 ^ p`, and minus
the number of zeros that follow the point for values below a tenth. -/
def pointPosition (r : Ratio) : Int :=
  let whole := r.num / r.den
  if whole > 0 then (Nat.toDigits 10 whole).length else -(leadingZeros r.den 400 r.num : Int)

/-- Digits `d` and a point position `p`: the number `0.d × 10 ^ p`. -/
structure Digits where
  digits : List Char
  point : Int
  deriving DecidableEq, Repr

def dropTrailingZeros (ds : List Char) : List Char :=
  (ds.reverse.dropWhile (fun c => c == '0')).reverse

def ofScaled (n : Nat) (scale : Int) : Float :=
  if scale < 0 then Float.ofScientific n true scale.natAbs
  else Float.ofScientific n false scale.natAbs

/-- The two neighbours of the value on the grid of spacing `10 ^ scale`, the nearer one first. -/
def neighbours (r : Ratio) (scale : Int) : List Nat :=
  let num := if scale < 0 then r.num * Nat.pow 10 scale.natAbs else r.num
  let den := if scale < 0 then r.den else r.den * Nat.pow 10 scale.natAbs
  let below := num / den
  if num % den * 2 ≤ den then [below, below + 1] else [below + 1, below]

/-- Tries `k`, `k + 1`, … digits and takes the nearest decimal that reads back. -/
def shortestFrom (x : Float) (r : Ratio) (point : Int) : Nat → Nat → Digits
  | 0, k => ⟨Nat.toDigits 10 ((neighbours r (point - k)).headD 0), point⟩
  | n + 1, k =>
    let scale := point - k
    match (neighbours r scale).find? fun d => (ofScaled d scale).toBits == x.toBits with
    | some d =>
      let ds := Nat.toDigits 10 d
      ⟨dropTrailingZeros ds, point + (ds.length - k : Int)⟩
    | none => shortestFrom x r point n (k + 1)

def shortest (x : Float) : Digits :=
  let r := magnitude x
  shortestFrom x r (pointPosition r) 17 1

def zeros (n : Int) : List Char := List.replicate n.toNat '0'

/-- Positional notation from `1e-6` up to `1e21`, an exponent outside. -/
def Digits.render (d : Digits) : List Char :=
  let k : Int := d.digits.length
  if k ≤ d.point && d.point ≤ 21 then d.digits ++ zeros (d.point - k)
  else if 0 < d.point && d.point ≤ 21 then
    d.digits.take d.point.toNat ++ '.' :: d.digits.drop d.point.toNat
  else if -6 < d.point && d.point ≤ 0 then '0' :: '.' :: zeros (-d.point) ++ d.digits
  else
    let e := d.point - 1
    let sign := if e < 0 then '-' else '+'
    let mantissa := match d.digits with
      | c :: c' :: cs => c :: '.' :: c' :: cs
      | ds => ds
    mantissa ++ 'e' :: sign :: Nat.toDigits 10 e.natAbs

def text (x : Float) : String :=
  if x.isNaN then "NaN"
  else if x == 0 then "0"
  else if x.isInf then (if x < 0 then "-Infinity" else "Infinity")
  else
    let body := (shortest x.abs).render
    String.ofList (if x < 0 then '-' :: body else body)

def toPositive? (x : Float) : Option Nat :=
  if x.isNaN || x.isInf || x < 1 then none
  else
    let r := magnitude x
    if r.num % r.den == 0 then some (r.num / r.den) else none

end RepoAtlas.Number
