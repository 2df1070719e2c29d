import Mathlib.Data.List.TakeDrop
import Mathlib.Data.List.TakeWhile
import RepoAtlas.Json
import RepoAtlas.Proofs.Text.Units

/-!
The words of JSON. White space, strings and numbers are described by the texts that they may have,
in the terms of the standard, and the readers are shown to take exactly these. A string is a list of
code units and has many texts: a character may stand for its units or be named by a letter, and each
unit, also half of a pair, may be given in hexadecimal digits.
-/
namespace RepoAtlas.Json
open Text

def IsGap (cs : List Char) : Prop := ∀ c ∈ cs, c = ' ' ∨ c = '\t' ∨ c = '\n' ∨ c = '\r'

def HexDigit (v : Nat) (c : Char) : Prop :=
  "0123456789abcdef".toList[v]? = some c ∨ "0123456789ABCDEF".toList[v]? = some c

inductive UnitText : UInt16 → List Char → Prop where
  | mk {a b c d : Nat} {p q r s : Char} :
      HexDigit a p → HexDigit b q → HexDigit c r → HexDigit d s →
      UnitText (UInt16.ofNat (((a * 16 + b) * 16 + c) * 16 + d)) ['\\', 'u', p, q, r, s]

def named : List (Char × Char) :=
  [('"', '"'), ('\\', '\\'), ('/', '/'), ('\x08', 'b'), ('\x0c', 'f'), ('\n', 'n'), ('\r', 'r'),
    ('\t', 't')]

/-- Code units and a text for them between quotes. -/
inductive Spelled : Units → List Char → Prop where
  | done : Spelled [] []
  | plain {c : Char} {us : Units} {t : List Char} : 0x20 ≤ c.toNat → c ≠ '"' → c ≠ '\\' →
      Spelled us t → Spelled (unitsOf c ++ us) (c :: t)
  | letter {c e : Char} {us : Units} {t : List Char} : (c, e) ∈ named → Spelled us t →
      Spelled (unitsOf c ++ us) ('\\' :: e :: t)
  | unit {u : UInt16} {us : Units} {ts t : List Char} : UnitText u ts → Spelled us t →
      Spelled (u :: us) (ts ++ t)

def Digits (ds : List Char) : Prop := ds ≠ [] ∧ ∀ c ∈ ds, c.isDigit = true

/-- A zero, or digits of which the first is not zero. -/
def IsWhole (t : List Char) : Prop := t = ['0'] ∨ Digits t ∧ t.head? ≠ some '0'

def IsFraction (t : List Char) : Prop := t = [] ∨ ∃ ds, Digits ds ∧ t = '.' :: ds

def IsExponent (t : List Char) : Prop :=
  t = [] ∨ ∃ e sign ds, e ∈ ['e', 'E'] ∧ sign ∈ [[], ['+'], ['-']] ∧ Digits ds ∧ t = e :: sign ++ ds

def IsNumeral (t : List Char) : Prop :=
  ∃ sign whole fraction exponent, sign ∈ [[], ['-']] ∧ IsWhole whole ∧ IsFraction fraction ∧
    IsExponent exponent ∧ t = sign ++ whole ++ fraction ++ exponent

def inNumeral (c : Char) : Bool := c.isDigit || c ∈ ['.', 'e', 'E']

/-! White space. -/

theorem isGap_iff {c : Char} : isGap c = true ↔ c = ' ' ∨ c = '\t' ∨ c = '\n' ∨ c = '\r' := by
  simp [isGap, or_assoc]

theorem skipGap_append {gap : List Char} (h : IsGap gap) (cs : List Char) :
    skipGap (gap ++ cs) = skipGap cs := by
  rw [skipGap, skipGap]
  apply List.dropWhile_append_of_pos
  intro c hc
  exact isGap_iff.mpr (h c hc)

/-- What is skipped is white space. -/
theorem exists_gap (cs : List Char) : ∃ gap, IsGap gap ∧ cs = gap ++ skipGap cs := by
  refine ⟨cs.takeWhile isGap, fun c hc => ?_, List.takeWhile_append_dropWhile.symm⟩
  exact isGap_iff.mp (List.mem_takeWhile_imp hc)

theorem skipGap_eq_nil {cs : List Char} : skipGap cs = [] ↔ IsGap cs := by
  rw [skipGap, List.dropWhile_eq_nil_iff]
  exact forall₂_congr fun c _ => isGap_iff

/-- Nothing is skipped where no white space begins. -/
theorem skipGap_of_head {c : Char} (h : isGap c = false) (cs : List Char) :
    skipGap (c :: cs) = c :: cs := by
  rw [skipGap, List.dropWhile_cons, if_neg (by simp [h])]

/-! Escapes of code units. -/

theorem hexValue?_of_hexDigit {v : Nat} {c : Char} (h : HexDigit v c) : hexValue? c = some v := by
  have lower : ∀ v < 16, hexValue? ("0123456789abcdef".toList.getD v ' ') = some v := by decide
  have upper : ∀ v < 16, hexValue? ("0123456789ABCDEF".toList.getD v ' ') = some v := by decide
  rcases h with h | h
  · obtain ⟨room, _⟩ := List.getElem?_eq_some_iff.mp h
    have found := lower v room
    rwa [List.getD_eq_getElem?_getD, h, Option.getD_some] at found
  · obtain ⟨room, _⟩ := List.getElem?_eq_some_iff.mp h
    have found := upper v room
    rwa [List.getD_eq_getElem?_getD, h, Option.getD_some] at found

theorem hexDigit_of_hexValue? {v : Nat} {c : Char} (h : hexValue? c = some v) : HexDigit v c := by
  have digits : ∀ v < 10, HexDigit v (Char.ofNat (v + 48)) := by
    unfold HexDigit
    decide
  have lower : ∀ v < 6, HexDigit (v + 10) (Char.ofNat (v + 97)) := by
    unfold HexDigit
    decide
  have upper : ∀ v < 6, HexDigit (v + 10) (Char.ofNat (v + 65)) := by
    unfold HexDigit
    decide
  -- a character is given by its code, which lies in one of three short ranges
  have code (n : Nat) (hn : c.toNat = n) : c = Char.ofNat n := by rw [← hn, Char.ofNat_toNat]
  rw [hexValue?] at h
  split at h
  case isTrue digit =>
    obtain rfl := Option.some.inj h
    simp only [Char.isDigit, Bool.and_eq_true, decide_eq_true_eq, ge_iff_le, UInt32.le_iff_toNat_le]
      at digit
    have low : 48 ≤ c.toNat := digit.1
    have high : c.toNat ≤ 57 := digit.2
    have same := digits (c.toNat - 48) (by omega)
    rwa [← code _ (by omega)] at same
  case isFalse =>
    split at h
    case isTrue letter =>
      obtain rfl := Option.some.inj h
      simp only [Bool.and_eq_true, decide_eq_true_eq, Char.le_def, UInt32.le_iff_toNat_le] at letter
      have low : 97 ≤ c.toNat := letter.1
      have high : c.toNat ≤ 102 := letter.2
      have same := lower (c.toNat - 97) (by omega)
      rwa [← code _ (by omega), show c.toNat - 97 + 10 = c.toNat - 87 by omega] at same
    case isFalse =>
      split at h
      case isTrue letter =>
        obtain rfl := Option.some.inj h
        simp only [Bool.and_eq_true, decide_eq_true_eq, Char.le_def, UInt32.le_iff_toNat_le]
          at letter
        have low : 65 ≤ c.toNat := letter.1
        have high : c.toNat ≤ 70 := letter.2
        have same := upper (c.toNat - 65) (by omega)
        rwa [← code _ (by omega), show c.toNat - 65 + 10 = c.toNat - 55 by omega] at same
      case isFalse => cases h

theorem UnitText.read {u : UInt16} {t : List Char} (h : UnitText u t) :
    ∃ ds, t = '\\' :: 'u' :: ds ∧ ∀ rest, readHex4? (ds ++ rest) = some (u, rest) := by
  obtain ⟨ha, hb, hc, hd⟩ := h
  refine ⟨_, rfl, fun rest => ?_⟩
  simp [readHex4?, hexValue?_of_hexDigit ha, hexValue?_of_hexDigit hb, hexValue?_of_hexDigit hc,
    hexValue?_of_hexDigit hd]

theorem unitText_of_readHex4? {cs rest : List Char} {u : UInt16}
    (h : readHex4? cs = some (u, rest)) :
    ∃ t, UnitText u t ∧ '\\' :: 'u' :: cs = t ++ rest := by
  rw [readHex4?.eq_def] at h
  split at h
  · rename_i p q r s more
    simp only [Option.bind_eq_bind, Option.bind_eq_some_iff, Option.some.injEq, Prod.mk.injEq] at h
    obtain ⟨a, ha, b, hb, c, hc, d, hd, rfl, rfl⟩ := h
    exact ⟨_, .mk (hexDigit_of_hexValue? ha) (hexDigit_of_hexValue? hb) (hexDigit_of_hexValue? hc)
      (hexDigit_of_hexValue? hd), rfl⟩
  · cases h

/-- Every unit can be escaped. -/
theorem exists_unitText (u : UInt16) : ∃ t, UnitText u t := by
  have digit (v : Nat) : ∃ c, HexDigit (v % 16) c := by
    have room : v % 16 < "0123456789abcdef".toList.length := Nat.mod_lt v (by decide)
    exact ⟨_, Or.inl (List.getElem?_eq_getElem room)⟩
  obtain ⟨p, hp⟩ := digit (u.toNat / 0x1000)
  obtain ⟨q, hq⟩ := digit (u.toNat / 0x100)
  obtain ⟨r, hr⟩ := digit (u.toNat / 0x10)
  obtain ⟨s, hs⟩ := digit u.toNat
  have bound : u.toNat < 0x10000 := u.toNat_lt
  have written := UnitText.mk hp hq hr hs
  rw [show ((u.toNat / 0x1000 % 16 * 16 + u.toNat / 0x100 % 16) * 16 + u.toNat / 0x10 % 16) * 16 +
    u.toNat % 16 = u.toNat by omega, UInt16.ofNat_toNat] at written
  exact ⟨_, written⟩

/-! Strings: one step of the reader, then all of them. -/

section
variable {n : Nat} {out : Units} {cs : List Char} {c : Char}

theorem readString?_plain (control : 0x20 ≤ c.toNat) (quote : c ≠ '"') (backslash : c ≠ '\\') :
    readString? (n + 1) out (c :: cs) = readString? n ((unitsOf c).reverse ++ out) cs := by
  rw [readString?]
  · rw [if_neg (by simp [backslash, control])]
  · exact quote
  · exact fun _ h => absurd h backslash
  · exact fun _ _ h => absurd h backslash

theorem readString?_letter {e : Char} (h : (c, e) ∈ named) :
    readString? (n + 1) out ('\\' :: e :: cs) = readString? n ((unitsOf c).reverse ++ out) cs := by
  simp only [named, List.mem_cons, List.not_mem_nil, or_false, Prod.mk.injEq] at h
  rcases h with ⟨rfl, rfl⟩ | ⟨rfl, rfl⟩ | ⟨rfl, rfl⟩ | ⟨rfl, rfl⟩ | ⟨rfl, rfl⟩ | ⟨rfl, rfl⟩ |
    ⟨rfl, rfl⟩ | ⟨rfl, rfl⟩ <;> rfl

theorem readString?_unit {u : UInt16} {ds : List Char} (h : readHex4? ds = some (u, cs)) :
    readString? (n + 1) out ('\\' :: 'u' :: ds) = readString? n (u :: out) cs := by
  rw [readString?, h]

theorem named_of_escapedChar? {e : Char} (h : escapedChar? e = some c) : (c, e) ∈ named := by
  rw [escapedChar?.eq_def] at h
  split at h
  case h_9 => cases h
  all_goals
    obtain rfl := Option.some.inj h
    decide

end

/-- A text between quotes is read as the units that it spells. -/
theorem Spelled.read {us : Units} {t : List Char} (h : Spelled us t) {n : Nat} (fuel : t.length < n)
    (out : Units) (rest : List Char) :
    readString? n out (t ++ '"' :: rest) = some (out.reverse ++ us, rest) := by
  induction n generalizing us t out with
  | zero => exact absurd fuel (Nat.not_lt_zero _)
  | succ n ih =>
    cases h with
    | done => rw [List.nil_append, readString?, List.append_nil]
    | plain control quote backslash h =>
      rw [List.cons_append, readString?_plain control quote backslash, ih h
        (by simp at fuel; omega)]
      simp
    | letter listed h =>
      rw [List.cons_append, List.cons_append, readString?_letter listed,
        ih h (by simp at fuel; omega)]
      simp
    | unit written h =>
      obtain ⟨ds, rfl, read⟩ := written.read
      rw [List.append_assoc, List.cons_append, List.cons_append, readString?_unit (read _),
        ih h (by simp at fuel; omega)]
      simp

/-- One step reads the closing quote, or some units and goes on. -/
theorem readString?_cases {n : Nat} {out us : Units} {cs rest : List Char}
    (h : readString? (n + 1) out cs = some (us, rest)) :
    (cs = '"' :: rest ∧ us = out.reverse) ∨
      ∃ first cs', readString? n (first.reverse ++ out) cs' = some (us, rest) ∧
        ((∃ c, first = unitsOf c ∧ cs = c :: cs' ∧ 0x20 ≤ c.toNat ∧ c ≠ '"' ∧ c ≠ '\\') ∨
          (∃ c e, first = unitsOf c ∧ cs = '\\' :: e :: cs' ∧ (c, e) ∈ named) ∨
          ∃ u ds, first = [u] ∧ cs = '\\' :: 'u' :: ds ∧ readHex4? ds = some (u, cs')) := by
  rw [readString?.eq_def] at h
  split at h
  case h_1 heq => cases heq
  case h_2 => cases h
  case h_3 heq =>
    obtain ⟨rfl, rfl⟩ := Prod.mk.inj (Option.some.inj h)
    exact Or.inl ⟨rfl, rfl⟩
  case h_4 m _ ds heq =>
    obtain rfl := Nat.succ.inj heq
    split at h
    · rename_i u cs' read
      exact Or.inr ⟨[u], cs', h, Or.inr (Or.inr ⟨u, ds, rfl, rfl, read⟩)⟩
    · cases h
  case h_5 m _ e cs' _ heq =>
    obtain rfl := Nat.succ.inj heq
    split at h
    · rename_i c escaped
      exact Or.inr ⟨_, cs', h, Or.inr (Or.inl ⟨c, e, rfl, rfl, named_of_escapedChar? escaped⟩)⟩
    · cases h
  case h_6 m _ c cs' quote _ _ heq =>
    obtain rfl := Nat.succ.inj heq
    split at h
    · cases h
    · rename_i plain
      simp only [Bool.or_eq_true, decide_eq_true_eq, beq_iff_eq, not_or, Nat.not_lt] at plain
      exact Or.inr ⟨_, cs', h, Or.inl ⟨c, rfl, rfl, plain.1, quote, plain.2⟩⟩

/-- What is read up to a quote spells the units that are read. -/
theorem spelled_of_readString? {n : Nat} {out us : Units} {cs rest : List Char}
    (h : readString? n out cs = some (us, rest)) :
    ∃ more t, Spelled more t ∧ cs = t ++ '"' :: rest ∧ us = out.reverse ++ more := by
  induction n generalizing out cs with
  | zero => cases h
  | succ n ih =>
    rcases readString?_cases h with ⟨rfl, rfl⟩ | ⟨first, cs', goesOn, step⟩
    · exact ⟨[], [], .done, rfl, by rw [List.append_nil]⟩
    obtain ⟨more, t, spelled, rfl, rfl⟩ := ih goesOn
    rw [List.reverse_append, List.reverse_reverse, List.append_assoc]
    rcases step with ⟨c, rfl, rfl, control, quote, backslash⟩ | ⟨c, e, rfl, rfl, listed⟩ |
      ⟨u, ds, rfl, rfl, read⟩
    · exact ⟨_, _, .plain control quote backslash spelled, rfl, rfl⟩
    · exact ⟨_, _, .letter listed spelled, rfl, rfl⟩
    · obtain ⟨ts, written, heq⟩ := unitText_of_readHex4? read
      exact ⟨_, _, .unit written spelled, by rw [heq, List.append_assoc], rfl⟩

/-- Every list of units can stand between quotes. -/
theorem exists_spelled (us : Units) : ∃ t, Spelled us t := by
  induction us with
  | nil => exact ⟨[], .done⟩
  | cons u us ih =>
    obtain ⟨t, spelled⟩ := ih
    obtain ⟨ts, written⟩ := exists_unitText u
    exact ⟨ts ++ t, .unit written spelled⟩

/-! Numbers. -/

theorem inNumeral_eq_false {c : Char} :
    inNumeral c = false ↔ c.isDigit = false ∧ c ≠ '.' ∧ c ≠ 'e' ∧ c ≠ 'E' := by
  simp [inNumeral]

theorem takeDigits_append {ds rest : List Char} (digits : ∀ c ∈ ds, c.isDigit = true)
    (stop : ∀ c ∈ rest.head?, c.isDigit = false) : takeDigits (ds ++ rest) = (ds, rest) := by
  rw [takeDigits, List.span_eq_takeWhile_dropWhile, List.takeWhile_append_of_pos digits,
    List.dropWhile_append_of_pos digits]
  cases rest with
  | nil => simp
  | cons c rest => simp [stop c rfl]

theorem takeDigits_eq {cs ds rest : List Char} (h : takeDigits cs = (ds, rest)) :
    cs = ds ++ rest ∧ ∀ c ∈ ds, c.isDigit = true := by
  rw [takeDigits, List.span_eq_takeWhile_dropWhile] at h
  obtain ⟨rfl, rfl⟩ := Prod.mk.inj h
  exact ⟨List.takeWhile_append_dropWhile.symm, fun c hc => List.mem_takeWhile_imp hc⟩

theorem IsWhole.read {t rest : List Char} (h : IsWhole t)
    (stop : ∀ c ∈ rest.head?, c.isDigit = false) :
    readWhole? (t ++ rest) = some (t, rest) := by
  rcases h with rfl | ⟨⟨some, digits⟩, zero⟩
  · rfl
  · obtain ⟨d, ds, rfl⟩ := List.exists_cons_of_ne_nil some
    rw [readWhole?, takeDigits_append digits stop]
    intro _ heq
    exact zero (congrArg List.head? heq)

theorem isWhole_of_readWhole? {cs t rest : List Char} (h : readWhole? cs = some (t, rest)) :
    IsWhole t ∧ cs = t ++ rest := by
  rw [readWhole?.eq_def] at h
  split at h
  · obtain ⟨rfl, rfl⟩ := Prod.mk.inj (Option.some.inj h)
    exact ⟨Or.inl rfl, rfl⟩
  · rename_i zero
    split at h
    · cases h
    · rename_i some
      obtain found := Option.some.inj h
      obtain ⟨rfl, digits⟩ := takeDigits_eq found
      refine ⟨Or.inr ⟨⟨?_, digits⟩, ?_⟩, rfl⟩
      · rintro rfl
        exact some _ found
      · intro head
        obtain ⟨ds, rfl⟩ := List.head?_eq_some_iff.mp head
        exact zero _ rfl

theorem IsFraction.read {t rest : List Char} (h : IsFraction t)
    (stop : ∀ c ∈ rest.head?, c.isDigit = false ∧ c ≠ '.') :
    readFraction? (t ++ rest) = some (t, rest) := by
  rcases h with rfl | ⟨ds, ⟨some, digits⟩, rfl⟩
  · rw [List.nil_append, readFraction?.eq_def]
    split
    · exact absurd rfl (stop '.' rfl).2
    · rfl
  · obtain ⟨d, ds, rfl⟩ := List.exists_cons_of_ne_nil some
    rw [List.cons_append, readFraction?, takeDigits_append digits fun c hc => (stop c hc).1]

theorem isFraction_of_readFraction? {cs t rest : List Char}
    (h : readFraction? cs = some (t, rest)) :
    IsFraction t ∧ cs = t ++ rest := by
  rw [readFraction?.eq_def] at h
  split at h
  · split at h
    · cases h
    · rename_i ds rest' some found
      obtain ⟨rfl, rfl⟩ := Prod.mk.inj (Option.some.inj h)
      obtain ⟨rfl, digits⟩ := takeDigits_eq found
      exact ⟨Or.inr ⟨ds, ⟨fun none => some none, digits⟩, rfl⟩, rfl⟩
  · obtain ⟨rfl, rfl⟩ := Prod.mk.inj (Option.some.inj h)
    exact ⟨Or.inl rfl, rfl⟩

theorem IsExponent.read {t rest : List Char} (h : IsExponent t)
    (stop : ∀ c ∈ rest.head?, inNumeral c = false) :
    readExponent? (t ++ rest) = some (t, rest) := by
  rcases h with rfl | ⟨e, sign, ds, letter, listed, ⟨some, digits⟩, rfl⟩
  · cases rest with
    | nil => rfl
    | cons c rest =>
      obtain ⟨_, _, lower, upper⟩ := inNumeral_eq_false.mp (stop c rfl)
      simp [readExponent?, lower, upper]
  · have letter' : (e == 'e' || e == 'E') = true := by simpa using letter
    have found := takeDigits_append digits fun c hc => (inNumeral_eq_false.mp (stop c hc)).1
    obtain ⟨d, ds, rfl⟩ := List.exists_cons_of_ne_nil some
    rw [List.cons_append] at found
    simp only [List.mem_cons, List.not_mem_nil, or_false] at listed
    rcases listed with rfl | rfl | rfl
    · have digit := digits d List.mem_cons_self
      have plus : d ≠ '+' := by
        rintro rfl
        exact absurd digit (by decide)
      have minus : d ≠ '-' := by
        rintro rfl
        exact absurd digit (by decide)
      simp [readExponent?, letter', plus, minus, found]
    · simp [readExponent?, letter', found]
    · simp [readExponent?, letter', found]

theorem isExponent_of_readExponent? {cs t rest : List Char}
    (h : readExponent? cs = some (t, rest)) :
    IsExponent t ∧ cs = t ++ rest := by
  rw [readExponent?.eq_def] at h
  split at h
  · rename_i e cs
    split at h
    · rename_i letter
      dsimp only at h
      split at h
      · cases h
      · rename_i ds rest' some found
        obtain ⟨rfl, rfl⟩ := Prod.mk.inj (Option.some.inj h)
        obtain ⟨heq, digits⟩ := takeDigits_eq found
        have signed (sign : List Char) (listed : sign ∈ [[], ['+'], ['-']]) :
            IsExponent (e :: sign ++ ds) :=
          Or.inr ⟨e, sign, ds, by simpa using letter, listed, ⟨fun none => some none, digits⟩, rfl⟩
        clear h found
        revert heq
        split
        · rintro rfl
          exact ⟨signed ['+'] (by simp), by simp⟩
        · rintro rfl
          exact ⟨signed ['-'] (by simp), by simp⟩
        · rintro rfl
          exact ⟨signed [] (by simp), by simp⟩
    · obtain ⟨rfl, rfl⟩ := Prod.mk.inj (Option.some.inj h)
      exact ⟨Or.inl rfl, rfl⟩
  · obtain ⟨rfl, rfl⟩ := Prod.mk.inj (Option.some.inj h)
    exact ⟨Or.inl rfl, rfl⟩

theorem IsWhole.exists_digit {t : List Char} (h : IsWhole t) :
    ∃ d ds, t = d :: ds ∧ d.isDigit = true := by
  rcases h with rfl | ⟨⟨some, digits⟩, _⟩
  · exact ⟨'0', [], rfl, by decide⟩
  · obtain ⟨d, ds, rfl⟩ := List.exists_cons_of_ne_nil some
    exact ⟨d, ds, rfl, digits d List.mem_cons_self⟩

theorem IsFraction.head {t rest : List Char} (h : IsFraction t)
    (stop : ∀ c ∈ rest.head?, c.isDigit = false) :
    ∀ c ∈ (t ++ rest).head?, c.isDigit = false := by
  rcases h with rfl | ⟨ds, _, rfl⟩
  · exact stop
  · rintro c ⟨⟩
    decide

theorem IsExponent.head {t rest : List Char} (h : IsExponent t)
    (stop : ∀ c ∈ rest.head?, inNumeral c = false) :
    ∀ c ∈ (t ++ rest).head?, c.isDigit = false ∧ c ≠ '.' := by
  rcases h with rfl | ⟨e, sign, ds, letter, _, _, rfl⟩
  · intro c hc
    obtain ⟨digit, dot, _⟩ := inNumeral_eq_false.mp (stop c hc)
    exact ⟨digit, dot⟩
  · rintro c ⟨⟩
    simp only [List.mem_cons, List.not_mem_nil, or_false] at letter
    rcases letter with rfl | rfl
    · decide
    · decide

/-- A numeral is read as a whole, if what follows it cannot belong to it. -/
theorem IsNumeral.read {t rest : List Char} (h : IsNumeral t)
    (stop : ∀ c ∈ rest.head?, inNumeral c = false) :
    readNumber? (t ++ rest) = some (.number (String.ofList t), rest) := by
  obtain ⟨sign, whole, fraction, exponent, listed, hw, hf, he, rfl⟩ := h
  have afterFraction := he.head stop
  have afterWhole := hf.head fun c hc => (afterFraction c hc).1
  have readWhole := hw.read afterWhole
  have readFraction := hf.read afterFraction
  have readExponent := he.read stop
  simp only [List.mem_cons, List.not_mem_nil, or_false] at listed
  rcases listed with rfl | rfl
  · obtain ⟨d, ds, rfl, digit⟩ := hw.exists_digit
    have minus : d ≠ '-' := by
      rintro rfl
      exact absurd digit (by decide)
    rw [List.cons_append] at readWhole
    simp [readNumber?, minus, readWhole, readFraction, readExponent, String.append_assoc]
  · simp [readNumber?, readWhole, readFraction, readExponent]

theorem isNumeral_of_readNumber? {cs rest : List Char} {value : Json}
    (h : readNumber? cs = some (value, rest)) :
    ∃ t, IsNumeral t ∧ value = .number (String.ofList t) ∧ cs = t ++ rest := by
  simp only [readNumber?, Option.bind_eq_bind, Option.bind_eq_some_iff] at h
  obtain ⟨⟨whole, cs'⟩, readWhole, ⟨fraction, cs''⟩, readFraction, ⟨exponent, _⟩, readExponent,
      heq⟩ := h
  obtain ⟨rfl, rfl⟩ := Prod.mk.inj (Option.some.inj heq)
  obtain ⟨hw, heqW⟩ := isWhole_of_readWhole? readWhole
  obtain ⟨hf, rfl⟩ := isFraction_of_readFraction? readFraction
  obtain ⟨he, rfl⟩ := isExponent_of_readExponent? readExponent
  have signed (sign : List Char) (listed : sign ∈ [[], ['-']]) :
      IsNumeral (sign ++ whole ++ fraction ++ exponent) :=
    ⟨sign, whole, fraction, exponent, listed, hw, hf, he, rfl⟩
  clear heq readWhole
  revert heqW
  split
  · rintro rfl
    exact ⟨_, signed ['-'] (by simp), rfl, by simp⟩
  · rintro rfl
    exact ⟨_, signed [] (by simp), rfl, by simp⟩

end RepoAtlas.Json
