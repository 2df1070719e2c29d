import RepoAtlas.Text.Collation
import RepoAtlas.Text.Identifier

/-!
An alphabetical order by three levels: base characters first, then accents, then case. A later level
is looked at only if the earlier ones agree, so `a < A < ab` and `a_b < a.b < a1 < ab`. An accented
letter weighs as the letter with the accent behind it.
-/
namespace RepoAtlas.Text.Alphabet

/-- One weight per level; a character without a base weight counts on the later levels only. -/
structure Element where
  base : Nat
  accent : Nat
  case : Nat
  deriving DecidableEq, Repr

/-- ASCII punctuation and symbols below the digits in ascending order, the dollar sign apart. -/
def punctuation : List Char :=
  "_-,;:!?.'\"()[]\x7b\x7d@*/\\&#%`^+<=>|~".toList

/-- Combining marks in ascending order; the stroke is the eleventh. -/
def marks : List Char :=
  "̸̧̨́̀̆̂̌̊̈̋̃̇̄".toList

/-- The letters that U+00C0 to U+017F are accented forms of; a character that stands for itself is
a letter of its own. -/
def latinBases : List Char :=
  ("AAAAAAÆCEEEEIIIIÐNOOOOO×OUUUUYÞßaaaaaaæceeeeiiiiðnooooo÷ouuuuyþy" ++
    "AaAaAaCcCcCcCcDdDdEeEeEeEeEeGgGgGgGgHhHhIiIiIiIiIıĲĳJjKkĸLlLlLlLlLlNnNnNnŉŊŋ" ++
    "OoOoOoŒœRrRrRrSsSsSsSsTtTtTtUuUuUuUuUuUuWwYyYZzZzZzſ").toList

/-- The accents of U+00C0 to U+017F by their places among the marks, from one on. -/
def latinAccents : List Nat :=
  [2, 1, 4, 9, 7, 6, 0, 12, 2, 1, 4, 7, 2, 1, 4, 7, 0, 9, 2, 1, 4, 9, 7, 0, 11, 2, 1, 4, 7, 1, 0, 0,
   2, 1, 4, 9, 7, 6, 0, 12, 2, 1, 4, 7, 2, 1, 4, 7, 0, 9, 2, 1, 4, 9, 7, 0, 11, 2, 1, 4, 7, 1, 0, 7,
   14, 14, 3, 3, 13, 13, 1, 1, 4, 4, 10, 10, 5, 5, 5, 5, 11, 11, 14, 14, 3, 3, 10, 10, 13, 13, 5, 5,
   4, 4, 3, 3, 10, 10, 12, 12, 4, 4, 11, 11, 9, 9, 14, 14, 3, 3, 13, 13, 10, 0, 0, 0, 4, 4, 12, 12,
   0, 1, 1, 12, 12, 5, 5, 15, 15, 11, 11, 1, 1, 12, 12, 5, 5, 0, 0, 0, 14, 14, 3, 3, 8, 8, 0, 0, 1,
   1, 12, 12, 5, 5, 1, 1, 4, 4, 12, 12, 5, 5, 12, 12, 5, 5, 11, 11, 9, 9, 14, 14, 3, 3, 6, 6, 8, 8,
   13, 13, 4, 4, 4, 4, 7, 1, 1, 10, 10, 5, 5, 0]

def accented : List (Char × Char × Nat) :=
  [('Ά', 'Α', 1), ('Έ', 'Ε', 1), ('Ή', 'Η', 1), ('Ί', 'Ι', 1), ('Ό', 'Ο', 1), ('Ύ', 'Υ', 1),
   ('Ώ', 'Ω', 1), ('Ϊ', 'Ι', 7), ('Ϋ', 'Υ', 7), ('ά', 'α', 1), ('έ', 'ε', 1), ('ή', 'η', 1),
   ('ί', 'ι', 1), ('ό', 'ο', 1), ('ύ', 'υ', 1), ('ώ', 'ω', 1), ('ϊ', 'ι', 7), ('ϋ', 'υ', 7),
   ('Ѐ', 'Е', 2), ('Ё', 'Е', 7), ('Ѝ', 'И', 2), ('ѐ', 'е', 2), ('ё', 'е', 7), ('ѝ', 'и', 2)]

/-- Letters that stand for two, which weigh a little more than these. -/
def ligatures : List (Char × Char × Char) :=
  [('ß', 's', 's'), ('Æ', 'A', 'E'), ('æ', 'a', 'e'), ('Œ', 'O', 'E'), ('œ', 'o', 'e'),
   ('Ĳ', 'I', 'J'), ('ĳ', 'i', 'j')]

/-- Letters of their own that come right after an ASCII letter. -/
def followers : List (Char × Char) :=
  [('Ð', 'D'), ('ð', 'd'), ('ı', 'i'), ('Ŋ', 'N'), ('ŋ', 'n'), ('ĸ', 'q')]

def asciiLetter (c : Char) : Element :=
  if c.isUpper then ⟨4000000 + 100 * (c.toNat - 65), 0, 1⟩
  else ⟨4000000 + 100 * (c.toNat - 97), 0, 0⟩

def mark (accent : Nat) : List Element := if accent = 0 then [] else [⟨0, accent, 0⟩]

/-- Letters of other scripts by code point; Greek and Cyrillic capitals share the weight of their
small letters. -/
def otherLetter (n : Nat) : Element :=
  if (0x391 ≤ n && n ≤ 0x3A9) || (0x410 ≤ n && n ≤ 0x42F) then ⟨5000000 + n + 32, 0, 1⟩
  else if 0x400 ≤ n && n ≤ 0x40F then ⟨5000000 + n + 80, 0, 1⟩
  else ⟨5000000 + n, 0, 0⟩

def elementsBelow128 (c : Char) : List Element :=
  let n := c.toNat
  if c.isAlpha then [asciiLetter c]
  else if c.isDigit then [⟨3000000 + (n - 48), 0, 0⟩]
  else if c == '$' then [⟨2000000, 0, 0⟩]
  else if c == ' ' then [⟨9, 0, 0⟩]
  else if 9 ≤ n && n ≤ 13 then [⟨n - 8, 0, 0⟩]
  else match punctuation.idxOf? c with
    | some i => [⟨10 + i, 0, 0⟩]
    | none => []

def markRank (c : Char) : Nat :=
  match marks.idxOf? c with
  | some i => i + 1
  | none => 20 + c.toNat

def latinBase? (n : Nat) : Option Char :=
  if 0xC0 ≤ n then (latinBases[n - 0xC0]?).filter Char.isAlpha else none

def derived? (c : Char) : Option (List Element) :=
  (ligatures.lookup c).map (fun p => asciiLetter p.1 :: mark 15 ++ [asciiLetter p.2])
    |>.or ((followers.lookup c).map fun a =>
      [{ asciiLetter a with base := (asciiLetter a).base + 50 }])
    |>.or ((accented.lookup c).map fun p => otherLetter p.1.toNat :: mark p.2)
    |>.or ((latinBase? c.toNat).map fun b =>
      asciiLetter b :: mark (latinAccents.getD (c.toNat - 0xC0) 0))

/-- Controls and zero-width characters have no weight at all; symbols stand between the ASCII
punctuation and the dollar sign. -/
def elementsFrom128 (c : Char) : List Element :=
  let n := c.toNat
  if n < 0xA0 || n == 0xAD || (0x200B ≤ n && n ≤ 0x200F) || n == 0x2060 || n == 0xFEFF then []
  else if 0x300 ≤ n && n ≤ 0x36F then mark (markRank c)
  else (derived? c).getD <|
    if isIdentStart c then [otherLetter n]
    else if n == 0xA0 || (0x2000 ≤ n && n ≤ 0x200A) || n == 0x3000 then [⟨9, 0, 1⟩]
    else [⟨1000 + n, 0, 0⟩]

def elements (c : Char) : List Element :=
  if c.toNat < 128 then elementsBelow128 c else elementsFrom128 c

structure Key where
  bases : List Nat
  accents : List Nat
  cases : List Nat
  deriving DecidableEq, Repr

def Key.ofElements (es : List Element) : Key :=
  { bases := (es.map (·.base)).filter (fun w => w != 0)
    accents := es.map (·.accent)
    cases := es.map (·.case) }

def key (s : String) : Key := Key.ofElements (s.toList.flatMap elements)

/-- On each level a proper initial part is smaller. -/
def Key.compare : Key → Key → Ordering :=
  compareLex (compareLex (compareOn Key.bases) (compareOn Key.accents)) (compareOn Key.cases)

def compareTexts (a b : String) : Ordering := (key a).compare (key b)

theorem transCmp_compareTexts : Std.TransCmp compareTexts := by
  have levels : Std.TransCmp Key.compare := by
    unfold Key.compare
    infer_instance
  exact { eq_swap := levels.eq_swap, isLE_trans := levels.isLE_trans }

/-! Texts that tie have the same base characters, so those with other numerals at their end do
not. -/

def baseWeights (cs : List Char) : List Nat := (Key.ofElements (cs.flatMap elements)).bases

theorem baseWeights_eq_of_tie {a b : String} (h : compareTexts a b = .eq) :
    baseWeights a.toList = baseWeights b.toList :=
  Std.LawfulEqOrd.eq_of_compare (Ordering.then_eq_eq.mp (Ordering.then_eq_eq.mp h).1).1

theorem baseWeights_append (cs ds : List Char) :
    baseWeights (cs ++ ds) = baseWeights cs ++ baseWeights ds := by
  simp [baseWeights, Key.ofElements]

theorem elements_digit {c : Char} (h : c.isDigit) :
    elements c = [⟨3000000 + (c.toNat - 48), 0, 0⟩] := by
  obtain ⟨low, high⟩ : 48 ≤ c.toNat ∧ c.toNat ≤ 57 := Char.isDigit_iff_toNat.mp h
  have each : ∀ n < 10, elements (Char.ofNat (48 + n)) = [⟨3000000 + n, 0, 0⟩] := by decide
  have digit := each (c.toNat - 48) (by omega)
  rwa [Nat.add_sub_cancel' low, Char.ofNat_toNat] at digit

/-- Digits can be read off their weights. -/
theorem map_baseWeights_digits {cs : List Char} (h : ∀ c ∈ cs, c.isDigit) :
    (baseWeights cs).map (fun w => Char.ofNat (w - 2999952)) = cs := by
  induction cs with
  | nil => rfl
  | cons c cs ih =>
    have digit := h c (List.mem_cons_self ..)
    have range : 48 ≤ c.toNat := (Char.isDigit_iff_toNat.mp digit).1
    have weight : 3000000 + (c.toNat - 48) - 2999952 = c.toNat := by omega
    have first : baseWeights [c] = [3000000 + (c.toNat - 48)] := by
      simp [baseWeights, Key.ofElements, elements_digit digit]
    have split := baseWeights_append [c] cs
    rw [List.singleton_append, first] at split
    rw [split, List.map_append, ih fun d hd => h d (List.mem_cons_of_mem _ hd), List.map_singleton,
      weight, Char.ofNat_toNat]
    rfl

theorem eq_of_tie_numerals {s : String} {i j : Nat}
    (h : compareTexts (s ++ toString i) (s ++ toString j) = .eq) : i = j := by
  have digits : ∀ n, ∀ c ∈ Nat.toDigits 10 n, c.isDigit :=
    fun n c hc => Nat.isDigit_of_mem_toDigits (by decide) (by decide) hc
  have same := baseWeights_eq_of_tie h
  simp only [String.toList_append, Nat.toString_eq_repr, Nat.toList_repr, baseWeights_append,
    List.append_cancel_left_eq] at same
  have numerals : Nat.toDigits 10 i = Nat.toDigits 10 j := by
    rw [← map_baseWeights_digits (digits i), same, map_baseWeights_digits (digits j)]
  have value (n : Nat) : Nat.ofDigitChars 10 (Nat.toDigits 10 n) 0 = n :=
    Nat.ofDigitChars_toDigits (by decide) (by decide)
  rw [← value i, numerals, value j]

/-- The order that runs, where this namespace is open. -/
scoped instance : NumeralCollator where
  collate := compareTexts
  trans := transCmp_compareTexts
  numerals _ _ _ := eq_of_tie_numerals

end RepoAtlas.Text.Alphabet
