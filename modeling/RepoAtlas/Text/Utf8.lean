/-!
Reading bytes as UTF-8: strictly, where any malformed byte rejects the whole, and leniently, where
each maximal piece that begins a character and does not complete it becomes one replacement
character.
-/
namespace RepoAtlas.Text.Utf8

/-- Strict reading; one byte order mark at the start is dropped. -/
def decode? (bytes : ByteArray) : Option String :=
  (String.fromUTF8? bytes).map fun s =>
    match s.toList with
    | c :: cs => if c.toNat = 0xFEFF then String.ofList cs else s
    | [] => s

/-- A character under way: its bits so far, the bytes it still needs and the range of the next. -/
structure Partial where
  bits : Nat
  needed : Nat
  low : Nat
  high : Nat
  deriving DecidableEq, Repr

def replacement : Char := Char.ofNat 0xFFFD

def start (b : Nat) : Option (Char ⊕ Partial) :=
  if b < 0x80 then some (.inl (Char.ofNat b))
  else if 0xC2 ≤ b && b ≤ 0xDF then some (.inr ⟨b - 0xC0, 1, 0x80, 0xBF⟩)
  else if b == 0xE0 then some (.inr ⟨0, 2, 0xA0, 0xBF⟩)
  else if b == 0xED then some (.inr ⟨0xD, 2, 0x80, 0x9F⟩)
  else if 0xE1 ≤ b && b ≤ 0xEF then some (.inr ⟨b - 0xE0, 2, 0x80, 0xBF⟩)
  else if b == 0xF0 then some (.inr ⟨0, 3, 0x90, 0xBF⟩)
  else if 0xF1 ≤ b && b ≤ 0xF3 then some (.inr ⟨b - 0xF0, 3, 0x80, 0xBF⟩)
  else if b == 0xF4 then some (.inr ⟨4, 3, 0x80, 0x8F⟩)
  else none

structure Reading where
  begun : Option Partial
  out : List Char

def Reading.fresh (out : List Char) (b : Nat) : Reading :=
  match start b with
  | some (.inl c) => ⟨none, c :: out⟩
  | some (.inr p) => ⟨some p, out⟩
  | none => ⟨none, replacement :: out⟩

def Reading.feed (r : Reading) (byte : UInt8) : Reading :=
  let b := byte.toNat
  match r.begun with
  | none => Reading.fresh r.out b
  | some p =>
    if p.low ≤ b && b ≤ p.high then
      let bits := p.bits * 64 + (b - 0x80)
      if p.needed ≤ 1 then ⟨none, Char.ofNat bits :: r.out⟩
      else ⟨some ⟨bits, p.needed - 1, 0x80, 0xBF⟩, r.out⟩
    else Reading.fresh (replacement :: r.out) b

def Reading.finish (r : Reading) : List Char :=
  (if r.begun.isSome then replacement :: r.out else r.out).reverse

def decodeLossy (bytes : ByteArray) : String :=
  String.ofList (bytes.toList.foldl Reading.feed ⟨none, []⟩).finish

end RepoAtlas.Text.Utf8
