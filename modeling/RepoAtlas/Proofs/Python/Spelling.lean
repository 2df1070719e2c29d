import RepoAtlas.Proofs.Python.Pieces
import RepoAtlas.Python.Expression

/-!
Tokens with their spelling: words, numbers and symbols. Each of them is read as it is spelled where
the text after it does not run on.
-/
namespace RepoAtlas.Python
open RepoAtlas.Text

/-! Numbers. -/

def isNumberChar (c : Char) : Bool := c.isAlphanum || c == '_' || c == '.' || c == '+' || c == '-'

/-- The text does not go on as a number does. A sign can follow a number: it is a part of one only
behind the letter of an exponent. -/
def EndsNumber (next : List Char) : Prop :=
  ∀ c ∈ next.head?, (c.isAlphanum || c == '_' || c == '.') = false

def isSign (c : Char) : Bool := c == '+' || c == '-'

def Unsigned (next : List Char) : Prop := ∀ c ∈ next.head?, isSign c = false

def isExponentMark (c : Char) : Bool := c == 'e' || c == 'E'

theorem not_marks_of_isExponentMark {c : Char} (h : isExponentMark c = true) :
    isImaginaryMark c = false ∧ isLongMark c = false := by
  rcases Bool.or_eq_true_iff.mp h with h | h <;> rw [beq_iff_eq.mp h] <;> exact ⟨rfl, rfl⟩

theorem basedLength_plain {isDigit : Char → Bool} {c : Char} (h : c ≠ '_') (cs : List Char) :
    basedLength isDigit (c :: cs) = if isDigit c then basedLength isDigit cs + 1 else 0 := by
  rw [basedLength]
  exact fun _ _ mark => absurd mark h

def hexCodes : List Nat :=
  [48, 49, 50, 51, 52, 53, 54, 55, 56, 57, 65, 66, 67, 68, 69, 70, 97, 98, 99, 100, 101, 102]

theorem digitsOfBase_number {letter : Char} {isDigit : Char → Bool}
    (h : digitsOfBase letter = some isDigit) :
    letter.isAlphanum = true ∧ (∀ c, isDigit c = true → c.isAlphanum = true) ∧
    isDigit '_' = false := by
  have hex {c : Char} (hc : isHexDigit c = true) : c.isAlphanum = true := by
    have listed : c.toNat ∈ hexCodes := by
      simp [isHexDigit, Char.isDigit, Char.le_def, UInt32.le_iff_toNat_le] at hc
      simp [hexCodes]
      omega
    have letters : ∀ n ∈ hexCodes, (Char.ofNat n).isAlphanum = true := by decide
    rw [← Char.ofNat_toNat c]
    exact letters c.toNat listed
  have octal {c : Char} (hc : ('0' ≤ c && c ≤ '7') = true) : isHexDigit c = true := by
    simp [isHexDigit, Char.isDigit, Char.le_def] at *
    grind
  have binary {c : Char} (hc : (c == '0' || c == '1') = true) : isHexDigit c = true := by
    rcases Bool.or_eq_true_iff.mp hc with hc | hc <;> rw [beq_iff_eq.mp hc] <;> rfl
  have either {a b : Char} (hl : (letter == a || letter == b) = true) (ha : a.isAlphanum = true)
      (hb : b.isAlphanum = true) : letter.isAlphanum = true := by
    rcases Bool.or_eq_true_iff.mp hl with hl | hl <;> rwa [beq_iff_eq.mp hl]
  rw [digitsOfBase] at h
  split at h
  · obtain rfl := Option.some.inj h
    exact ⟨either ‹_› rfl rfl, fun c hc => hex hc, rfl⟩
  · split at h
    · obtain rfl := Option.some.inj h
      exact ⟨either ‹_› rfl rfl, fun c hc => hex (octal hc), rfl⟩
    · split at h
      · obtain rfl := Option.some.inj h
        exact ⟨either ‹_› rfl rfl, fun c hc => hex (binary hc), rfl⟩
      · cases h

section
variable {next : List Char} (h : EndsNumber next)
include h

/-- A text that ends a number has no digits or marks to add to it. -/
theorem EndsNumber.nothing {length : List Char → Nat} (hnil : length [] = 0)
    (hcons : ∀ c cs, (c.isAlphanum || c == '_' || c == '.') = false → length (c :: cs) = 0) :
    length next = 0 := by
  cases next with
  | nil => exact hnil
  | cons c cs => exact hcons c cs (h c rfl)

theorem decimalLength_append (afterDigit : Bool) (cs : List Char) :
    decimalLength afterDigit (cs ++ next) = decimalLength afterDigit cs := by
  induction cs generalizing afterDigit with
  | nil =>
    refine h.nothing rfl fun c cs hc => ?_
    simp only [Char.isAlphanum, Bool.or_eq_false_iff] at hc
    simp [decimalLength, hc]
  | cons c cs ih => simp only [List.cons_append, decimalLength, ih]

theorem oneIf_append {isOk : Char → Bool} (hok : ∀ c, isOk c = true → c.isAlphanum = true)
    (cs : List Char) : oneIf isOk (cs ++ next) = oneIf isOk cs := by
  cases cs with
  | nil =>
    refine h.nothing rfl fun c cs hc => ?_
    have other : isOk c = false := by
      by_contra ok
      simp [hok c (Bool.not_eq_false _ ▸ ok)] at hc
    simp [oneIf, other]
  | cons c cs => rfl

theorem basedLength_append {isDigit : Char → Bool}
    (hdigit : ∀ c, isDigit c = true → c.isAlphanum = true) (hmark : isDigit '_' = false)
    (cs : List Char) :
    basedLength isDigit (cs ++ next) = basedLength isDigit cs := by
  have other {c : Char} (hc : (c.isAlphanum || c == '_' || c == '.') = false) :
      isDigit c = false := by
    by_contra ok
    simp [hdigit c (Bool.not_eq_false _ ▸ ok)] at hc
  fun_induction basedLength isDigit cs with
  | case1 =>
    refine h.nothing rfl fun c cs hc => ?_
    have plain : c ≠ '_' := by
      rintro rfl
      cases hc
    rw [basedLength_plain plain, other hc]
    rfl
  | case2 c cs digit ih => simp [basedLength, digit, ih]
  | case3 c cs digit => simp [basedLength, digit]
  | case4 c cs _ digit ih =>
    have plain : c ≠ '_' := by
      rintro rfl
      rw [hmark] at digit
      cases digit
    rw [List.cons_append, basedLength_plain plain, if_pos digit, ih]
  | case5 c cs pair digit =>
    by_cases plain : c = '_'
    · subst plain
      cases cs with
      | nil =>
        cases hnext : next with
        | nil => simp [basedLength, hmark]
        | cons d ds => simp [basedLength, other (h d (by rw [hnext]; rfl))]
      | cons d ds => exact absurd rfl (pair d ds rfl)
    · rw [List.cons_append, basedLength_plain plain, if_neg digit]

/-- A sign behind an exponent is not read into it, unless it comes directly behind its letter. -/
theorem exponentLength_append (cs : List Char)
    (settled : Unsigned next ∨ (exponentLength cs = 0 → ∀ c ∈ cs.head?, isExponentMark c = false)) :
    exponentLength (cs ++ next) = exponentLength cs := by
  cases cs with
  | nil =>
    refine h.nothing rfl fun c cs hc => ?_
    have letter : ¬(c == 'e' || c == 'E') = true := by
      intro letter
      rcases Bool.or_eq_true_iff.mp letter with letter | letter <;>
      · rw [beq_iff_eq.mp letter] at hc
        cases hc
    rw [exponentLength, if_neg letter]
  | cons c cs =>
    by_cases letter : isExponentMark c = true
    · have signed : oneIf (fun d => d == '+' || d == '-') (cs ++ next) =
          oneIf (fun d => d == '+' || d == '-') cs := by
        cases cs with
        | nil =>
          rcases settled with unsigned | settled
          · cases next with
            | nil => rfl
            | cons d next => exact if_neg (Bool.not_eq_true _ ▸ unsigned d rfl)
          · have none : exponentLength [c] = 0 := by simp [exponentLength, oneIf, decimalLength]
            rw [settled none c rfl] at letter
            cases letter
        | cons d cs => rfl
      simp only [List.cons_append, exponentLength, signed]
      rw [List.drop_append_of_le_length (oneIf_le _ cs), decimalLength_append h]
    · exact (if_neg letter).trans (if_neg letter).symm

omit h in
/-- A letter that starts no exponent is left over, so that the number before it is not the whole
text. -/
theorem settled_of_whole {n : Nat} {rest : List Char} {isOk : Char → Bool}
    (hok : ∀ c, isExponentMark c = true → isOk c = false)
    (settled : Unsigned next ∨
      n + exponentLength rest + oneIf isOk (rest.drop (exponentLength rest)) = n + rest.length) :
    Unsigned next ∨ (exponentLength rest = 0 → ∀ c ∈ rest.head?, isExponentMark c = false) := by
  refine settled.imp_right fun whole none c hc => ?_
  by_contra letter
  cases rest with
  | nil => cases hc
  | cons d rest =>
    obtain rfl : d = c := Option.some.inj hc
    rw [none, List.drop_zero, oneIf, hok d (Bool.not_eq_false _ ▸ letter), List.length_cons]
      at whole
    simp at whole

theorem append_ne_dot {cs : List Char} (hdot : ∀ rest, cs = '.' :: rest → False)
    (rest : List Char) : cs ++ next ≠ '.' :: rest := by
  intro heq
  cases cs with
  | nil => cases h '.' (by rw [← List.nil_append next, heq]; rfl)
  | cons c cs => exact hdot cs (by rw [(List.cons.inj heq).1])

theorem plainNumberLength_append (cs : List Char)
    (settled : Unsigned next ∨ plainNumberLength cs = cs.length) :
    plainNumberLength (cs ++ next) = plainNumberLength cs := by
  have imaginary := @oneIf_append next h isImaginaryMark fun c hc => by
    rcases Bool.or_eq_true_iff.mp hc with hc | hc <;> rw [beq_iff_eq.mp hc] <;> rfl
  have marked := @oneIf_append next h (fun c => isLongMark c || isImaginaryMark c) fun c hc => by
    simp only [isLongMark, isImaginaryMark, Bool.or_eq_true, beq_iff_eq] at hc
    rcases hc with (rfl | rfl) | (rfl | rfl) <;> rfl
  have digits := decimalLength_append h false cs
  have behind : (cs ++ next).drop (decimalLength false cs) =
      cs.drop (decimalLength false cs) ++ next :=
    List.drop_append_of_le_length (decimalLength_le false cs)
  revert settled
  fun_cases plainNumberLength cs with
  | case1 whole rest hrest fraction none =>
    intro _
    have dotted : cs.drop (decimalLength false cs) ++ next = '.' :: (rest ++ next) := by
      rw [hrest, List.cons_append]
    simp only [plainNumberLength, digits, behind, dotted, decimalLength_append h]
    exact if_pos none
  | case2 whole rest hrest fraction some n =>
    intro settled
    have dotted : cs.drop (decimalLength false cs) ++ next = '.' :: (rest ++ next) := by
      rw [hrest, List.cons_append]
    have fraction_le : fraction ≤ rest.length := decimalLength_le false rest
    have exponent_le := exponentLength_le (rest.drop fraction)
    have length : cs.length = whole + 1 + fraction + (rest.drop fraction).length := by
      have all := congrArg List.length hrest
      have whole_le : whole ≤ cs.length := decimalLength_le false cs
      rw [List.length_drop, List.length_cons] at all
      rw [List.length_drop]
      omega
    rw [length, ← Nat.add_assoc, ← List.drop_drop] at settled
    rw [List.length_drop] at exponent_le
    simp only [plainNumberLength, digits, behind, dotted, decimalLength_append h]
    rw [List.drop_append_of_le_length fraction_le,
      exponentLength_append h _ (settled_of_whole
        (fun c hc => (not_marks_of_isExponentMark hc).1) settled),
      List.drop_append_of_le_length (by omega), imaginary]
    exact if_neg some
  | case3 whole none hdot =>
    intro _
    simp only [plainNumberLength, digits, behind]
    split
    · rename_i rest hrest
      exact absurd hrest (append_ne_dot h hdot rest)
    · exact if_pos none
  | case4 whole some hdot none =>
    intro settled
    have length : cs.length = whole + (cs.drop whole).length := by
      have whole_le : whole ≤ cs.length := decimalLength_le false cs
      rw [List.length_drop]
      omega
    have all : Unsigned next ∨ whole + exponentLength (cs.drop whole) +
        oneIf (fun c => isLongMark c || isImaginaryMark c)
          ((cs.drop whole).drop (exponentLength (cs.drop whole))) =
        whole + (cs.drop whole).length := by
      rwa [none, List.drop_zero, ← length]
    have settled := settled_of_whole (fun c hc => by simp [not_marks_of_isExponentMark hc]) all
    simp only [plainNumberLength, digits, behind]
    split
    · rename_i rest hrest
      exact absurd hrest (append_ne_dot h hdot rest)
    · rw [exponentLength_append h _ settled, marked]
      refine (if_neg some).trans ?_
      split
      · rfl
      · contradiction
  | case5 whole some hdot exponent =>
    intro _
    have settled : Unsigned next ∨ (exponentLength (cs.drop whole) = 0 →
        ∀ c ∈ (cs.drop whole).head?, isExponentMark c = false) :=
      .inr fun none => absurd none exponent
    simp only [plainNumberLength, digits, behind]
    split
    · rename_i rest hrest
      exact absurd hrest (append_ne_dot h hdot rest)
    · rw [exponentLength_append h _ settled]
      refine (if_neg some).trans ?_
      split
      · contradiction
      · rw [List.drop_append_of_le_length (exponentLength_le _), imaginary]

/-- A number ends where its characters end. A sign behind it is no part of it if all of the text
is. -/
theorem numberLength_append (cs : List Char)
    (settled : Unsigned next ∨ numberLength cs = cs.length) :
    numberLength (cs ++ next) = numberLength cs := by
  have long := @oneIf_append next h isLongMark fun c hc => by
    rcases Bool.or_eq_true_iff.mp hc with hc | hc <;> rw [beq_iff_eq.mp hc] <;> rfl
  have plain (same : numberLength cs = plainNumberLength cs) :
      plainNumberLength (cs ++ next) = plainNumberLength cs :=
    plainNumberLength_append h cs (same ▸ settled)
  fun_cases numberLength cs with
  | case1 letter rest isDigit base digits =>
    obtain ⟨_, number, mark⟩ := digitsOfBase_number base
    simp only [List.cons_append, numberLength, base, basedLength_append h number mark, digits]
    exact plain (by simp only [numberLength, base, digits])
  | case2 letter rest isDigit base digits =>
    obtain ⟨_, number, mark⟩ := digitsOfBase_number base
    have rest_eq : (rest ++ next).drop (basedLength isDigit rest) =
        rest.drop (basedLength isDigit rest) ++ next :=
      List.drop_append_of_le_length (basedLength_le isDigit rest)
    simp only [List.cons_append, numberLength, base, basedLength_append h number mark, rest_eq,
      long]
  | case3 letter rest base =>
    simp only [List.cons_append, numberLength, base]
    exact plain (by simp only [numberLength, base])
  | case4 cs other =>
    have same : numberLength cs = plainNumberLength cs := by
      unfold numberLength
      split
      · exact absurd rfl (other _ _)
      · rfl
    -- No letter of a base can come out of what follows the number.
    unfold numberLength
    split
    · rename_i letter rest heq
      have outside : letter.isAlphanum = false := by
        have ends (c : Char) (hc : c ∈ next.head?) : c.isAlphanum = false := by
          have ended := h c hc
          simp only [Bool.or_eq_false_iff] at ended
          exact ended.1.1
        rcases cs with _ | ⟨c, _ | ⟨d, cs⟩⟩
        · cases ends '0' (by rw [List.nil_append] at heq; rw [heq]; rfl)
        · have rest_eq : next = letter :: rest := (List.cons.inj heq).2
          exact ends letter (by rw [rest_eq]; rfl)
        · exact absurd (by rw [(List.cons.inj heq).1]) (other d cs)
      cases base : digitsOfBase letter with
      | none => exact plain same
      | some isDigit =>
        rw [(digitsOfBase_number base).1] at outside
        cases outside
    · exact plain same

end

theorem numberLength_other {c : Char} (digit : c.isDigit = false) (dot : c ≠ '.') (cs : List Char) :
    numberLength (c :: cs) = 0 := by
  have none : decimalLength false (c :: cs) = 0 := by simp [decimalLength, digit]
  have plain : plainNumberLength (c :: cs) = 0 := by
    unfold plainNumberLength
    simp only [none, List.drop_zero]
    split
    · rename_i heq
      exact absurd (List.cons.inj heq).1 dot
    · rfl
  unfold numberLength
  split
  · rename_i heq
    rw [(List.cons.inj heq).1] at digit
    cases digit
  · exact plain

/-- A number starts with a digit or a dot, and nothing else starts so but a symbol. -/
theorem numberStart {c : Char} (h : c.isDigit = true ∨ c = '.') :
    isSolid c = true ∧ isIdentStart c = false ∧ isPrefixLetter c = false ∧
    isQuoteMark c = false := by
  rcases h with digit | rfl
  · have digits : ∀ n < 58, 48 ≤ n → isSolid (Char.ofNat n) = true ∧
        isIdentStart (Char.ofNat n) = false ∧
        isPrefixLetter (Char.ofNat n) = false ∧ isQuoteMark (Char.ofNat n) = false := by decide
    simp only [Char.isDigit, Bool.and_eq_true, decide_eq_true_eq, ge_iff_le,
      UInt32.le_iff_toNat_le] at digit
    have facts := digits c.toNat (Nat.lt_succ_of_le digit.2) digit.1
    rwa [Char.ofNat_toNat] at facts
  · decide

structure Numeral where
  chars : List Char
  some : chars ≠ []
  whole : numberLength chars = chars.length

namespace Numeral

theorem starts (n : Numeral) : ∃ c cs, n.chars = c :: cs ∧ (c.isDigit = true ∨ c = '.') := by
  cases hn : n.chars with
  | nil => exact absurd hn n.some
  | cons c cs =>
    refine ⟨c, cs, rfl, ?_⟩
    by_contra neither
    obtain ⟨digit, dot⟩ := not_or.mp neither
    have none := numberLength_other (Bool.not_eq_true _ ▸ digit) dot cs
    have whole := n.whole
    rw [hn, none] at whole
    cases whole

theorem isNumberChar_of_mem (n : Numeral) {c : Char} (h : c ∈ n.chars) : isNumberChar c = true := by
  by_contra outside
  obtain ⟨before, after, split⟩ := List.append_of_mem h
  simp only [isNumberChar, Bool.not_eq_true, Bool.or_eq_false_iff] at outside
  obtain ⟨⟨other, plus⟩, minus⟩ := outside
  have ends : EndsNumber (c :: after) := by
    intro d hd
    obtain rfl : c = d := Option.some.inj hd
    simp [other]
  have unsigned : Unsigned (c :: after) := by
    intro d hd
    obtain rfl : c = d := Option.some.inj hd
    simp only [isSign, plus, minus, Bool.or_self]
  have shorter := numberLength_le before
  have whole := n.whole
  rw [split, numberLength_append ends before (.inl unsigned), List.length_append, List.length_cons]
    at whole
  omega

end Numeral

/-! Spellings. -/

/-- Tokens that stand among white space, and not in the text of a literal. -/
def inCode : Token → Bool
  | .fieldOpen | .formatClose | .formatText => false
  | _ => true

structure Spelling where
  token : Token
  chars : List Char
  some : chars ≠ []
  proper : token ∉ [.comment, .continuation, .lineEnd, .malformed, .endOfFile]
  solid : inCode token = true → ∀ c ∈ chars.head?, isSolid c = true

namespace Spelling

/-- The token is read where the reader stands in some literals, and it then stands in others. -/
def Reads (s : Spelling) (frames frames' : List Frame) (next : List Char) : Prop :=
  ∀ afterWord, readToken frames afterWord (s.chars ++ next) = ⟨s.token, s.chars.length, frames'⟩

theorem isIdentifier_starts {text : String} (h : isIdentifier text = true) :
    ∃ c cs, text.toList = c :: cs ∧ isIdentStart c = true := by
  rw [isIdentifier] at h
  split at h
  · rename_i c cs heq
    exact ⟨c, cs, heq, (Bool.and_eq_true_iff.mp h).1⟩
  · cases h

def word (text : String) (h : isIdentifier text = true) : Spelling where
  token := .word text
  chars := text.toList
  some := by
    obtain ⟨c, cs, heq, _⟩ := isIdentifier_starts h
    rw [heq]
    exact List.cons_ne_nil c cs
  proper := by simp
  solid _ d hd := by
    obtain ⟨c, cs, heq, start⟩ := isIdentifier_starts h
    rw [heq] at hd
    obtain rfl : c = d := Option.some.inj hd
    exact isSolid_of_isIdentStart start

theorem word_reads {text : String} (h : isIdentifier text = true) {next : List Char}
    (hnext : Stops next) : (word text h).Reads [] [] next :=
  readCode_word [] h hnext

def number (n : Numeral) : Spelling where
  token := .number
  chars := n.chars
  some := n.some
  proper := by simp
  solid _ d hd := by
    obtain ⟨c, cs, heq, start⟩ := n.starts
    rw [heq] at hd
    obtain rfl : c = d := Option.some.inj hd
    exact (numberStart start).1

theorem number_reads (n : Numeral) {next : List Char} (hnext : EndsNumber next) :
    (number n).Reads [] [] next := by
  intro afterWord
  change readCode [] afterWord (n.chars ++ next) = ⟨.number, n.chars.length, []⟩
  obtain ⟨c, cs, heq, start⟩ := n.starts
  obtain ⟨solid, letter, mark, quoted⟩ := numberStart start
  have length : numberLength (n.chars ++ next) = cs.length + 1 := by
    rw [numberLength_append hnext n.chars (.inr n.whole), n.whole, heq, List.length_cons]
  have word : wordLength (n.chars ++ next) = 0 := by simp [heq, wordLength, letter]
  have quote : quote? (n.chars ++ next) = none := by
    apply quote_eq_none
    simp [heq, mark, quoted]
  simp only [isSolid, Bool.and_eq_true, bne_iff_ne] at solid
  unfold readCode
  split
  · simp_all
  · simp_all
  · simp_all
  · simp_all
  · simp only [quote, word, length]
    rw [heq, List.length_cons]

def plainSymbols : List String :=
  [",", "(", ")", "[", "]", ":", "=", "->", ".", "~"] ++ binarySymbols

/-- Whether a symbol would take a character that comes directly after it. -/
def runsInto (s : String) (c : Char) : Bool :=
  if [",", "(", ")", "[", "]"].contains s then false
  else if s == "." then c == '.' || c.isDigit
  else "=*/<>".toList.contains c

theorem plainSymbols_spelled : ∀ s ∈ plainSymbols, s ∈ symbols ∧ s.toList ≠ [] ∧
    ∀ c ∈ s.toList.head?, isMark c = true ∧ (c = '.' → s = ".") := by
  have checked : (plainSymbols.all fun s => symbols.contains s && s.toList != [] &&
      s.toList.head?.all fun c => isMark c && (c != '.' || s == ".")) = true := by decide
  intro s hs
  have each := List.all_eq_true.mp checked s hs
  simp only [Bool.and_eq_true, List.contains_iff_mem, bne_iff_ne, Option.all_eq_true] at each
  obtain ⟨⟨known, some⟩, marks⟩ := each
  refine ⟨known, some, fun c hc => ⟨(marks c hc).1, fun dot => ?_⟩⟩
  simpa [dot] using (marks c hc).2

def symbol (s : String) (h : s ∈ plainSymbols) : Spelling where
  token := .symbol s
  chars := s.toList
  some := (plainSymbols_spelled s h).2.1
  proper := by simp
  solid _ c hc := by
    have mark := ((plainSymbols_spelled s h).2.2 c hc).1
    simp only [isMark, Bool.and_eq_true] at mark
    exact mark.1.1.1.1

theorem symbols_longest_first : symbols.Pairwise fun s t => t.toList.length ≤ s.toList.length := by
  decide

/-- A symbol that goes on behind another one goes on with a character that the other one runs
into. -/
theorem symbols_behind : ∀ s ∈ plainSymbols, s ≠ "." → ∀ t ∈ symbols, s.toList <+: t.toList →
    ∀ c ∈ (t.toList.drop s.toList.length).head?, runsInto s c = true := by
  have checked : (plainSymbols.all fun s => s == "." || symbols.all fun t =>
      !s.toList.isPrefixOf t.toList ||
        (t.toList.drop s.toList.length).head?.all (runsInto s)) = true := by decide +kernel
  intro s hs dotless t ht starts c hc
  have each := List.all_eq_true.mp checked s hs
  simp only [beq_eq_false_iff_ne.mpr dotless, Bool.false_or] at each
  have behind := List.all_eq_true.mp each t ht
  rw [List.isPrefixOf_iff_prefix.mpr starts, Bool.not_true, Bool.false_or] at behind
  exact (Option.all_eq_true ..).mp behind c hc

theorem symbol?_append {s : String} (h : s ∈ plainSymbols) (hdot : s ≠ ".") {next : List Char}
    (hnext : ∀ c ∈ next.head?, runsInto s c = false) :
    symbol? (s.toList ++ next) = Option.some s := by
  obtain ⟨before, after, split, first⟩ := List.eq_append_cons_of_mem (plainSymbols_spelled s h).1
  have longest := symbols_longest_first
  have behind := symbols_behind s h hdot
  rw [split, List.pairwise_append] at longest
  refine List.find?_eq_some_iff_append.mpr ⟨by simp, before, after, split, fun t ht => ?_⟩
  rw [Bool.not_eq_true', ← Bool.not_eq_true, List.isPrefixOf_iff_prefix]
  intro starts
  have longer := longest.2.2 t ht s List.mem_cons_self
  obtain ⟨more, heq⟩ := List.prefix_of_prefix_length_le (List.prefix_append ..) starts longer
  have other := behind t (split ▸ List.mem_append_left _ ht) ⟨more, heq⟩
  rw [← heq, List.drop_left] at other
  rw [← heq, List.prefix_append_right_inj] at starts
  cases more with
  | nil =>
    rw [List.append_nil, String.toList_inj] at heq
    exact first (heq ▸ ht)
  | cons c more =>
    obtain ⟨rest, rfl⟩ := starts
    have runs := other c rfl
    rw [hnext c rfl] at runs
    cases runs

theorem symbol_reads {s : String} (h : s ∈ plainSymbols) {next : List Char}
    (hnext : ∀ c ∈ next.head?, runsInto s c = false) : (symbol s h).Reads [] [] next := by
  by_cases hdot : s = "."
  · subst hdot
    have digit : ∀ d ∈ next.head?, d.isDigit = false := fun d hd => by
      have other := hnext d hd
      simp [runsInto] at other
      exact other.2
    have dots (rest : List Char) : next ≠ '.' :: '.' :: rest := by
      rintro rfl
      cases hnext '.' rfl
    exact (fits_dot (List.forall_mem_nil _) digit dots).read
  · obtain ⟨_, some, marks⟩ := plainSymbols_spelled s h
    obtain ⟨c, cs, heq⟩ := List.exists_cons_of_ne_nil some
    obtain ⟨mark, dotted⟩ := marks c (by rw [heq]; rfl)
    exact (fits_symbol c cs heq mark (fun dot => absurd (dotted dot) hdot)
      (symbol?_append h hdot hnext) (List.forall_mem_nil _)).read

end Spelling

end RepoAtlas.Python
