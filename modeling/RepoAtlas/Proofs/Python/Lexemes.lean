import Mathlib.Tactic.Common
import RepoAtlas.Python.Lexer

/-!
Where lexemes lie. No token is longer than the text it is read from, so the lexemes of a text lie
inside it, one behind the other.
-/
namespace RepoAtlas.Python
open RepoAtlas.Text

/-- Lexemes that lie between two offsets, each ending before the next one starts. -/
structure Ordered (lo hi : Nat) (ls : List Lexeme) : Prop where
  le : lo ≤ hi
  spans : ∀ l ∈ ls, lo ≤ l.span.start ∧ l.span.start ≤ l.span.stop ∧ l.span.stop ≤ hi
  ascending : ls.Pairwise fun a b => a.span.stop ≤ b.span.start

namespace Ordered
variable {lo mid hi : Nat} {ls : List Lexeme}

theorem nil (h : lo ≤ hi) : Ordered lo hi [] := ⟨h, by simp, .nil⟩

/-- A sublist lies between the same offsets. -/
theorem sublist {ls' : List Lexeme} (h : Ordered lo hi ls) (hsub : ls'.Sublist ls) :
    Ordered lo hi ls' :=
  ⟨h.le, fun l hl => h.spans l (hsub.subset hl), h.ascending.sublist hsub⟩

theorem append {ls' : List Lexeme} (h : Ordered lo mid ls) (h' : Ordered mid hi ls') :
    Ordered lo hi (ls ++ ls') where
  le := Nat.le_trans h.le h'.le
  spans l hl := by
    rcases List.mem_append.mp hl with hl | hl
    · have := h.spans l hl
      have := h'.le
      omega
    · have := h'.spans l hl
      have := h.le
      omega
  ascending := by
    refine List.pairwise_append.mpr ⟨h.ascending, h'.ascending, fun a ha b hb => ?_⟩
    have := h.spans a ha
    have := h'.spans b hb
    omega

theorem singleton {l : Lexeme} (h : lo ≤ l.span.start) (h' : l.span.start ≤ l.span.stop)
    (h'' : l.span.stop ≤ hi) : Ordered lo hi [l] where
  le := by omega
  spans := List.forall_mem_singleton.mpr ⟨h, h', h''⟩
  ascending := List.pairwise_singleton _ _

end Ordered

/-! Lengths of tokens. -/

theorem decimalLength_le (afterDigit : Bool) (cs : List Char) :
    decimalLength afterDigit cs ≤ cs.length := by
  fun_induction decimalLength afterDigit cs <;> simp <;> omega

theorem basedLength_le (isDigit : Char → Bool) (cs : List Char) :
    basedLength isDigit cs ≤ cs.length := by
  fun_induction basedLength isDigit cs <;> simp <;> omega

theorem oneIf_le (isOk : Char → Bool) (cs : List Char) : oneIf isOk cs ≤ cs.length := by
  fun_cases oneIf isOk cs <;> simp

theorem exponentLength_le (cs : List Char) : exponentLength cs ≤ cs.length := by
  fun_cases exponentLength cs with
  | case1 | case3 | case4 => simp
  | case2 c cs _ sign n =>
    have sign_le : sign ≤ cs.length := oneIf_le _ _
    have digits_le := decimalLength_le false (cs.drop sign)
    rw [List.length_drop] at digits_le
    rw [List.length_cons]
    omega

theorem plainNumberLength_le (cs : List Char) : plainNumberLength cs ≤ cs.length := by
  have whole_le := decimalLength_le false cs
  fun_cases plainNumberLength cs with
  | case1 | case3 => exact Nat.zero_le _
  | case2 whole rest hrest fraction _ n =>
    have length := congrArg List.length hrest
    have fraction_le : fraction ≤ rest.length := decimalLength_le false rest
    have exponent_le := exponentLength_le (rest.drop fraction)
    have mark_le := oneIf_le isImaginaryMark (rest.drop n)
    simp only [List.length_drop, List.length_cons] at length exponent_le mark_le
    omega
  | case4 whole _ _ _ =>
    have mark_le := oneIf_le (fun c => isLongMark c || isImaginaryMark c) (cs.drop whole)
    rw [List.length_drop] at mark_le
    omega
  | case5 whole =>
    have exponent_le := exponentLength_le (cs.drop whole)
    have mark_le := oneIf_le isImaginaryMark ((cs.drop whole).drop (exponentLength (cs.drop whole)))
    simp only [List.length_drop] at exponent_le mark_le
    omega

theorem numberLength_le (cs : List Char) : numberLength cs ≤ cs.length := by
  fun_cases numberLength cs with
  | case1 | case3 | case4 => exact plainNumberLength_le _
  | case2 letter rest isDigit =>
    have digits_le := basedLength_le isDigit rest
    have mark_le := oneIf_le isLongMark (rest.drop (basedLength isDigit rest))
    simp only [List.length_drop] at mark_le
    simp only [List.length_cons]
    omega

theorem wordLength_le (cs : List Char) : wordLength cs ≤ cs.length := by
  fun_cases wordLength cs with
  | case1 c rest =>
    have := (List.takeWhile_prefix (l := rest) isIdentPart).length_le
    simpa using this
  | case2 | case3 => simp

theorem symbol_length_le {cs : List Char} {s : String} (h : symbol? cs = some s) :
    s.length ≤ cs.length := by
  have found := List.find?_some h
  have := (List.isPrefixOf_iff_prefix.mp found).length_le
  rwa [String.length_toList] at this

theorem quote_length_le {cs : List Char} {q : Quote} {n : Nat} (h : quote? cs = some (q, n)) :
    n ≤ cs.length := by
  have behind {k : Nat} {c : Char} {rest : List Char} (hrest : cs.drop k = c :: rest) :
      k + rest.length + 1 = cs.length := by
    have length := congrArg List.length hrest
    rw [List.length_drop, List.length_cons] at length
    omega
  revert h
  fun_cases quote? cs with
  | case1 | case5 | case6 =>
    intro h
    cases h
  | case2 letters _ _ _ a b c rest hrest | case3 letters _ _ _ a b c rest hrest =>
    intro h
    cases h
    have := behind hrest
    simp only [List.length_cons] at this
    omega
  | case4 letters _ _ _ a rest _ hrest =>
    intro h
    cases h
    have := behind hrest
    omega

/-- What is read of a literal lies in it, and the brace of a field comes after it. -/
theorem scanText_le (q : Quote) (fresh : Bool) (skip n : Nat) (cs : List Char) :
    (scanText q fresh skip n cs).2 ≤ n + cs.length ∧
      ((scanText q fresh skip n cs).1 = .field → (scanText q fresh skip n cs).2 <
        n + cs.length) := by
  fun_induction scanText q fresh skip n cs
  all_goals simp_all
  all_goals grind

theorem readSymbol_length_le (frames : List Frame) {s : String} {n : Nat} (h : s.length ≤ n) :
    (readSymbol frames s).length ≤ n := by
  have one {t : String} (heq : (s == t) = true) (ht : t.length = 1) : 1 ≤ n := by
    rw [beq_iff_eq.mp heq, ht] at h
    exact h
  fun_cases readSymbol frames s with
  | case2 _ _ _ _ _ brace => exact one brace rfl
  | case3 _ _ _ _ _ _ colon => exact one colon rfl
  | _ => exact h

theorem readWord_length (frames : List Frame) (text : String) (n : Nat) :
    (readWord frames text n).length = n := by
  fun_cases readWord frames text n <;> rfl

theorem readString_length_le (frames : List Frame) {q : Quote} {opening : Nat} {cs : List Char}
    (h : opening ≤ cs.length) : (readString frames q opening cs).length ≤ cs.length := by
  have text := (scanText_le q true 0 opening (cs.drop opening)).1
  rw [List.length_drop] at text
  have fits : opening + (cs.length - opening) = cs.length := by omega
  rw [fits] at text
  unfold readString
  split
  · exact h
  · split <;> simp_all

theorem readCode_length_le (frames : List Frame) (afterWord : Bool) (cs : List Char) :
    (readCode frames afterWord cs).length ≤ cs.length := by
  have symbol {s : String} (hs : symbol? cs = some s) : (readSymbol frames s).length ≤ cs.length :=
    readSymbol_length_le frames (symbol_length_le hs)
  unfold readCode
  split
  · exact (List.takeWhile_prefix _).length_le
  · exact Nat.le_refl 1
  · simp
  · simp
  · split
    · rename_i hq
      exact readString_length_le frames (quote_length_le hq)
    · split
      · rename_i n hn
        rw [readWord_length]
        exact Nat.le_trans (Nat.le_of_eq hn.symm) (wordLength_le cs)
      · split
        · rename_i n hn
          exact Nat.le_trans (Nat.le_of_eq hn.symm) (numberLength_le cs)
        · split
          · split
            · simp
            · split
              · exact symbol ‹_›
              · exact Nat.zero_le _
          · split
            · rename_i walrus
              rw [isWalrus, Bool.and_eq_true, beq_iff_eq, List.head?_eq_some_iff] at walrus
              obtain ⟨_, tail, rfl⟩ := walrus
              simp
            · exact readSymbol_length_le _ (Nat.le_add_left 1 _)
          · split
            · exact symbol ‹_›
            · exact Nat.zero_le _

theorem readToken_length_le (frames : List Frame) (afterWord : Bool) (cs : List Char) :
    (readToken frames afterWord cs).length ≤ cs.length := by
  unfold readToken
  split
  · rename_i q below
    have text := scanText_le q true 0 0 cs
    rw [Nat.zero_add] at text
    unfold readText
    split <;> (rename_i heq; rw [heq] at text)
    · exact text.1
    · exact text.2 rfl
    · exact text.1
  · unfold readSpec
    split
    · simp
    · simp
    · exact (List.takeWhile_prefix _).length_le
  · exact readCode_length_le frames afterWord cs

/-! Lexemes of a text. -/

/-- A lexeme takes the place of line continuations or stands behind all others. -/
theorem push_reverse (l : Lexeme) (before : List Lexeme) :
    ∃ kept : List Lexeme, kept.Sublist before ∧ ∃ gap near,
      (push l before).reverse = kept.reverse ++ [{ l with gap := gap, near := near }] := by
  have last : ∃ kept : List Lexeme, kept.Sublist before ∧ ∃ gap near,
      (l :: before).reverse = kept.reverse ++ [{ l with gap := gap, near := near }] :=
    ⟨before, List.Sublist.refl _, l.gap, l.near, List.reverse_cons⟩
  rw [push]
  split
  · split
    · rename_i first _
      exact ⟨_, List.dropWhile_sublist _, first.gap, first.near, List.reverse_cons⟩
    · exact last
  · split
    · rename_i first _
      exact ⟨_, List.dropWhile_sublist _, first.gap, first.near, List.reverse_cons⟩
    · exact last
  · exact last

theorem Ordered.push {lo mid hi : Nat} {before : List Lexeme} {l : Lexeme}
    (h : Ordered lo mid before.reverse) (start : mid ≤ l.span.start)
    (le : l.span.start ≤ l.span.stop) (stop : l.span.stop ≤ hi) :
    Ordered lo hi (push l before).reverse := by
  obtain ⟨kept, hsub, gap, near, heq⟩ := push_reverse l before
  rw [heq]
  exact (h.sublist hsub.reverse).append (.singleton start le stop)

/-- The invariant of the walk: what was read lies before the offset, and what is left ends the
text. -/
theorem lexFrom_ordered (bound offset total : Nat) (frames : List Frame) (before : List Lexeme)
    (cs : List Char) (h : Ordered 0 offset before.reverse) (hlen : offset + cs.length = total) :
    Ordered 0 total (lexFrom bound offset frames before cs) := by
  have skipped (frames : List Frame) (cs : List Char) :
      (if skipsSpace frames then (cs.takeWhile isSpace).length else 0) ≤ cs.length := by
    split
    · exact (List.takeWhile_prefix _).length_le
    · exact Nat.zero_le _
  fun_induction lexFrom bound offset frames before cs with
  | case1 bound offset frames before cs gap near spaces start _ last =>
    have spaces_le : spaces ≤ cs.length := skipped frames cs
    have place : last.span = ⟨start, start⟩ := by
      dsimp only [last]
      split <;> rfl
    apply h.push
    · rw [place]
      exact Nat.le_add_right offset spaces
    · exact Nat.le_of_eq (by rw [place])
    · rw [place]
      change offset + spaces ≤ total
      omega
  | case2 offset frames before cs gap near spaces start =>
    have spaces_le : spaces ≤ cs.length := skipped frames cs
    have start_le : offset + spaces ≤ total := by omega
    exact h.push (Nat.le_add_right offset spaces) (Nat.le_refl _) start_le
  | case3 offset frames before cs gap near spaces start bound _ found lexeme =>
    have spaces_le : spaces ≤ cs.length := skipped frames cs
    have found_le : found.length ≤ (cs.drop spaces).length := readToken_length_le _ _ _
    rw [List.length_drop] at found_le
    have stop_le : offset + spaces + found.length ≤ total := by omega
    exact h.push (Nat.le_add_right offset spaces) (Nat.le_add_right _ _) stop_le
  | case4 offset frames before cs gap near spaces start bound _ found lexeme _ ih =>
    have spaces_le : spaces ≤ cs.length := skipped frames cs
    have found_le : found.length ≤ (cs.drop spaces).length := readToken_length_le _ _ _
    apply ih
    · exact h.push (Nat.le_add_right offset spaces) (Nat.le_add_right _ _) (Nat.le_refl _)
    · rw [List.length_drop] at found_le ⊢
      rw [List.length_drop]
      change offset + spaces + found.length + (cs.length - spaces - found.length) = total
      omega

theorem lex_ordered (cs : List Char) : Ordered 0 cs.length (lex cs) :=
  lexFrom_ordered _ 0 _ [] [] cs (.nil (Nat.le_refl 0)) (Nat.zero_add _)

end RepoAtlas.Python
