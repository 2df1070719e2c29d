import RepoAtlas.Proofs.Python.Definitions
import RepoAtlas.Proofs.Python.Phrases

/-!
Values are read as they are written: the operands with their signs, the operators between them, and
what brackets hold.
-/
namespace RepoAtlas.Python
open RepoAtlas.Text Written

/-- Tokens that are read as an operand, up to where attributes, subscripts and calls may follow.
What comes behind them is no literal, which would go on with one. -/
def Runs (ps : List Printed) : Prop :=
  ∀ {text : List Char} {c : Cursor} {width offset : Nat} {q : Printed} {rest : List Printed}
    (n : Nat) (clauses : Parser Unit) (first next : Mode),
    Facing text c width offset (ps ++ q :: rest) → (∀ p ∈ ps, Inside width p) →
    first ≠ .line → next ≠ .line → q.Shows width next → ¬IsLiteral q.token → ps.length ≤ n + 1 →
    ∃ e c' b, primary (expression n) clauses first next c =
        suffixes (expression n) clauses next (offset + headGap ps) b e c' ∧
      (q :: rest).length < b ∧ e.span = partOf offset ps ∧
      Facing text c' width (offset + (textOf ps).length) (q :: rest)

section
variable {text : List Char} {c : Cursor} {width offset : Nat} {q : Printed} {ps rest : List Printed}
  {k : Nat}

/-! Operands with their signs. -/

theorem operand_plain {nested : Nested} {place : Place} {full : Bool} {first : Mode} {t t' : Token}
    {start n : Nat} {r : Option (Expr × Cursor)} (started : startOffset first c = some (start, c))
    (seen : look first c = some (t, c)) (opener : IsOpener t)
    (second : lookSecond first place.rest c = some (t', c)) (other : t' ≠ .symbol ":=")
    (read : primary nested (clauses nested c.bound) first place.rest c = r) :
    operand nested place full first (n + 1) c = r := by
  have plain : (bound >>= fun n => primary nested (clauses nested n) first place.rest) c = r :=
    (bind_of_some (bound_eq c)).trans read
  rw [operand, bind_of_some started, bind_of_some seen]
  rcases opener with ⟨w, rfl, free⟩ | ⟨bare, rfl⟩ | symbol
  · have ordinary : w ≠ "await" ∧ w ≠ "not" ∧ w ≠ "lambda" := by
      rcases free with free | constant
      · simp only [keywords, List.mem_cons, not_or] at free
        simp [free]
      · simp only [constants, List.mem_cons, List.not_mem_nil, or_false] at constant
        rcases constant with rfl | rfl | rfl <;> decide
    obtain ⟨await, not', lambda'⟩ := ordinary
    cases full with
    | false => simpa using plain
    | true =>
      simp only [Bool.not_true, Bool.false_eq_true, if_false, beq_iff_eq, not', lambda']
      rw [bind_of_some second, if_neg (by simp [other])]
      exact plain
  · exact plain
  · simp only [List.mem_cons, List.not_mem_nil, or_false] at symbol
    rcases symbol with rfl | rfl | rfl <;> exact plain

/-- An operand without signs. -/
theorem Facing.operand_bare {place : Place} (runs : Runs ps) (opens : OpensAs IsOpener ps)
    (full : Bool) (first : Mode) (hfirst : first ≠ .line) (hrest : place.rest ≠ .line)
    (h : Facing text c width offset (ps ++ q :: rest)) (inside : ∀ p ∈ ps, Inside width p)
    (shows : q.Shows width place.rest) (ends : q.token ∈ operandEnds) (hk : ps.length ≤ k + 1)
    (n : Nat) :
    ∃ e c', operand (expression k) place full first (n + 1) c = some (e, c') ∧
      e.span = partOf offset ps ∧
      Facing text c' width (offset + (textOf ps).length) (q :: rest) := by
  obtain ⟨p, ps, rfl, opener, _, single⟩ := opens
  obtain ⟨e, c₁, b, read, room, span, h₁⟩ :=
    runs k (clauses (expression k) c.bound) first place.rest
    h inside hfirst hrest shows (not_isLiteral_of_ends ends) hk
  obtain ⟨b, rfl⟩ : ∃ m, b = m + 1 := ⟨b - 1, by omega⟩
  obtain ⟨_, _, _, steps⟩ := h₁.next
  rw [suffixes_end (steps place.rest shows).look (not_applying_of_ends ends)] at read
  obtain ⟨q', rest', split, shows', other⟩ : ∃ q' rest', ps ++ q :: rest = q' :: rest' ∧
      q'.Shows width place.rest ∧ q'.token ≠ .symbol ":=" := by
    cases ps with
    | nil =>
      refine ⟨q, rest, rfl, shows, fun walrus => ?_⟩
      rw [walrus] at ends
      exact absurd ends (by decide)
    | cons r ps =>
      exact ⟨r, _, rfl, (inside r (by simp)).shows hrest,
        fun walrus => single r rfl (by simp [walrus])⟩
  rw [List.cons_append, split] at h
  obtain ⟨c₂, h₂, _, steps₁⟩ := h.next
  obtain ⟨_, _, _, steps₂⟩ := h₂.next
  have begun := steps₁ first ((inside p List.mem_cons_self).shows hfirst)
  have second := begun.lookSecond (steps₂ place.rest shows').look
  exact ⟨e, c₁, operand_plain begun.start begun.look opener second other read, span, h₁⟩

/-- An operand with its signs. Behind a sign it is read as one that cannot start with `not`. -/
theorem Facing.operand_eq {place : Place} (runs : Runs ps) (opens : OpensAs IsOpener ps)
    (signs : List Sign) (full : Bool) (first : Mode) {n : Nat} (hfirst : first ≠ .line)
    (hrest : place.rest ≠ .line)
    (h : Facing text c width offset (signs.map Sign.piece ++ ps ++ q :: rest))
    (inside : ∀ p ∈ signs.map Sign.piece ++ ps, Inside width p)
    (shows : q.Shows width place.rest) (ends : q.token ∈ operandEnds) (hk : ps.length ≤ k + 1)
    (hn : signs.length < n) :
    ∃ e c', operand (expression k) place full first n c = some (e, c') ∧
      e.span = partOf offset (signs.map Sign.piece ++ ps) ∧
      Facing text c' width (offset + (textOf (signs.map Sign.piece ++ ps)).length) (q :: rest) := by
  obtain ⟨n, rfl⟩ : ∃ m, n = m + 1 := ⟨n - 1, by omega⟩
  induction signs generalizing full first n c offset with
  | nil => exact Facing.operand_bare runs opens full first hfirst hrest h inside shows ends hk n
  | cons s signs ih =>
    obtain ⟨insideSign, insideRest⟩ := List.forall_mem_cons.mp inside
    rw [List.length_cons] at hn
    obtain ⟨n, rfl⟩ : ∃ m, n = m + 1 := ⟨n - 1, by omega⟩
    obtain ⟨c₁, h₁, _, steps⟩ := h.next
    have shown := steps first (insideSign.shows hfirst)
    obtain ⟨l, advanced, _⟩ := shown.advance
    obtain ⟨e, c₂, read, _, h₂⟩ := ih false .unfinished (by simp) h₁ insideRest n (by omega)
    have stop : offset + s.piece.chars.length + (textOf (signs.map Sign.piece ++ ps)).length =
        offset + (textOf ((s :: signs).map Sign.piece ++ ps)).length := by
      rw [List.map_cons, List.cons_append, textOf_cons, List.length_append, Nat.add_assoc]
    rw [stop] at h₂
    refine ⟨.other (partOf offset ((s :: signs).map Sign.piece ++ ps)), c₂, ?_, rfl, h₂⟩
    rw [operand, bind_of_some shown.start, bind_of_some shown.look]
    have known := s.known
    simp only [signSymbols, List.mem_cons, List.not_mem_nil, or_false] at known
    have token : s.piece.token = .symbol s.symbol := rfl
    rw [token]
    rcases known with heq | heq | heq <;>
    · rw [heq]
      exact (bind_of_some advanced).trans ((bind_of_some read).trans
        ((bind_of_some h₂.lastStop_eq).trans rfl))

/-! Operators. -/

namespace Written.Phrase

def signs : Phrase → List Sign
  | .last signs _ => signs
  | .more signs _ _ _ => signs

def operand : Phrase → Operand
  | .last _ operand => operand
  | .more _ operand _ _ => operand

def tail : Phrase → List Printed
  | .last _ _ => []
  | .more _ _ operator others => operator.piece :: others.pieces

theorem pieces_eq (p : Phrase) :
    p.pieces = p.signs.map Sign.piece ++ p.operand.pieces ++ p.tail := by
  cases p with
  | last signs operand => rw [pieces, Phrase.signs, Phrase.operand, tail, List.append_nil]
  | more signs operand operator others =>
    rw [pieces, Phrase.signs, Phrase.operand, tail, List.append_assoc]

def Each : Phrase → Prop
  | .last _ operand => Runs operand.pieces
  | .more _ operand _ others => Runs operand.pieces ∧ others.Each

theorem Each.first {p : Phrase} (each : p.Each) : Runs p.operand.pieces := by
  cases p with
  | last signs operand => exact each
  | more signs operand operator others => exact each.1

/-- Behind the first operand comes an operator, or what comes behind the value. -/
theorem tail_head (p : Phrase) (rest : List Printed) {m : Mode} (hm : m ≠ .line)
    (inside : ∀ r ∈ p.tail, Inside width r) (shows : q.Shows width m) (ends : q.token ∈ valueEnds) :
    ∃ q' rest', p.tail ++ q :: rest = q' :: rest' ∧ q'.Shows width m ∧ q'.token ∈ operandEnds := by
  cases p with
  | last signs operand => exact ⟨q, rest, rfl, shows, operandEnds_of_ends ends⟩
  | more signs operand operator others =>
    refine ⟨_, _, rfl, (inside _ List.mem_cons_self).shows hm, ?_⟩
    exact List.mem_append_right _ (List.mem_map.mpr ⟨_, operator.known, rfl⟩)

end Written.Phrase

/-- The first operand of a value. -/
theorem Facing.firstOperand_eq (place : Place) (p : Phrase) (each : p.Each) (full : Bool)
    (first : Mode) (hfirst : first ≠ .line) (hrest : place.rest ≠ .line)
    (h : Facing text c width offset (p.pieces ++ q :: rest))
    (inside : ∀ r ∈ p.pieces, Inside width r) (shows : q.Shows width place.rest)
    (ends : q.token ∈ valueEnds) (hk : p.pieces.length ≤ k + 1) :
    ∃ e c', operand (expression k) place full first c.bound c = some (e, c') ∧
      e.span = partOf offset (p.signs.map Sign.piece ++ p.operand.pieces) ∧
      Facing text c' width
        (offset + (textOf (p.signs.map Sign.piece ++ p.operand.pieces)).length)
        (p.tail ++ q :: rest) := by
  rw [p.pieces_eq] at h inside hk
  obtain ⟨insideFirst, insideTail⟩ := List.forall_mem_append.mp inside
  rw [List.append_assoc] at h
  have room := h.room
  obtain ⟨q', rest', split, shows', ends'⟩ := p.tail_head rest hrest insideTail shows ends
  rw [split] at h ⊢
  simp only [List.length_append, List.length_map] at hk room
  exact h.operand_eq each.first p.operand.opens p.signs full first hfirst hrest insideFirst shows'
    ends' (by omega) (by omega)

/-- The operators of a value, and the operands behind them. -/
theorem Facing.operators_eq {place : Place} (k : Nat) (hrest : place.rest ≠ .line)
    (shows : q.Shows width place.rest) (ends : q.token ∈ valueEnds) :
    ∀ (p : Phrase) {c : Cursor} {offset : Nat} (n : Nat), p.Each →
      Facing text c width offset (p.tail ++ q :: rest) → (∀ r ∈ p.tail, Inside width r) →
      p.tail.length ≤ k + 1 → p.tail.length < n →
      ∃ c', operators (expression k) place n c = some (!p.tail.isEmpty, c') ∧
        Facing text c' width (offset + (textOf p.tail).length) (q :: rest)
  | .last signs operand, c, offset, n, _, h, _, _, hn => by
    obtain ⟨n, rfl⟩ : ∃ m, n = m + 1 := ⟨n - 1, by omega⟩
    obtain ⟨_, _, _, steps⟩ := h.next
    exact ⟨c, operators_end (steps place.rest shows).look ends n, h⟩
  | .more signs operand operator others, c, offset, n, each, h, inside, hk, hn => by
    rw [Phrase.tail] at h inside hk hn ⊢
    rw [List.length_cons] at hk hn
    obtain ⟨n, rfl⟩ : ∃ m, n = m + 1 := ⟨n - 1, by omega⟩
    obtain ⟨insideOperator, insideOthers⟩ := List.forall_mem_cons.mp inside
    obtain ⟨c₁, h₁, _, steps⟩ := h.next
    have shown := steps place.rest (insideOperator.shows hrest)
    have seen : look place.rest c = some (.symbol operator.symbol, c) := shown.look
    obtain ⟨l, advanced, _⟩ := shown.advance
    obtain ⟨e, c₂, read, _, h₂⟩ := h₁.firstOperand_eq place others each.2 false .unfinished
      (by simp) hrest insideOthers shows ends (Nat.le_of_succ_le hk)
    have whole := others.pieces_eq
    have lengths := congrArg List.length whole
    rw [List.length_append] at lengths
    obtain ⟨c₃, ran, h₃⟩ := Facing.operators_eq k hrest shows ends others n each.2 h₂
      (fun r hr => insideOthers r (whole ▸ List.mem_append_right _ hr)) (by omega) (by omega)
    refine ⟨c₃, ?_, h₃.at ?_⟩
    · have joined : binarySymbols.contains operator.symbol = true :=
        List.contains_iff_mem.mpr operator.known
      rw [operators, bind_of_some seen]
      simp only [joined, if_true]
      exact (bind_of_some advanced).trans ((bind_of_some (bound_eq c₁)).trans
        ((bind_of_some read).trans ((bind_of_some ran).trans rfl)))
    · rw [textOf_cons, whole, textOf_append (_ ++ _), List.length_append, List.length_append]
      omega

/-- A value is an expression if its operands are read. -/
theorem Written.Phrase.readable_of (p : Phrase) (each : p.Each) : Readable p.pieces := by
  intro text c width offset q rest place n h inside hfirst hrest shows ends hn
  have slice := h.slice_eq p.opens.ne_nil
  have positive := List.length_pos_iff.mpr p.opens.ne_nil
  obtain ⟨n, rfl⟩ : ∃ m, n = m + 1 := ⟨n - 1, by omega⟩
  obtain ⟨e, c₁, read, span, h₁⟩ :=
    h.firstOperand_eq place p each true place.first hfirst hrest inside shows ends hn
  have whole := p.pieces_eq
  have lengths := congrArg List.length whole
  rw [List.length_append] at lengths
  have room := h₁.room
  rw [List.length_append] at room
  obtain ⟨c₂, ran, h₂⟩ := Facing.operators_eq n hrest shows ends p c₁.bound each h₁
    (fun r hr => inside r (whole ▸ List.mem_append_right _ hr)) (by omega) (by omega)
  have stop : offset + (textOf (p.signs.map Sign.piece ++ p.operand.pieces)).length +
      (textOf p.tail).length = offset + (textOf p.pieces).length := by
    rw [whole, textOf_append (_ ++ _), List.length_append, Nat.add_assoc]
  rw [stop] at h₂
  have started : startOffset place.first c = some (offset + headGap p.pieces, c) := by
    obtain ⟨r, rs, heq, _⟩ := p.opens
    rw [heq] at h inside ⊢
    obtain ⟨_, _, _, steps⟩ := h.next
    exact (steps place.first ((inside r List.mem_cons_self).shows hfirst)).start
  have begun : expression (n + 1) place c = _ :=
    (bind_of_some started).trans ((bind_of_some (bound_eq c)).trans ((bind_of_some read).trans
      ((bind_of_some (bound_eq c₁)).trans (bind_of_some ran))))
  cases tail : p.tail with
  | nil =>
    rw [tail] at begun
    rw [tail, List.append_nil] at whole
    exact ⟨e, c₂, begun, by rw [span, ← whole, slice], h₂⟩
  | cons r rs =>
    rw [tail] at begun
    exact ⟨.other (partOf offset p.pieces), c₂,
      begun.trans ((bind_of_some h₂.lastStop_eq).trans rfl), slice, h₂⟩

/-! What brackets hold. -/

theorem Written.IsStart.ne_yield {t : Token} (h : IsStart t) : t ≠ .word "yield" := by
  rintro rfl
  rcases h with (⟨w, word, free⟩ | ⟨bare, string⟩ | symbol) | ⟨s, _, symbol⟩
  · cases word
    exact absurd free (by decide)
  · cases string
  · simp at symbol
  · cases symbol

/-- An element of a list or of parentheses. -/
theorem Facing.element_eq (opens : Opens ps) (readable : Readable ps)
    (h : Facing text c width offset (ps ++ q :: rest)) (inside : ∀ p ∈ ps, Inside width p)
    (ends : q.token ∈ valueEnds) (hk : ps.length ≤ k) :
    ∃ e c', element (expression k) c = some (e, c') ∧
      Facing text c' width (offset + (textOf ps).length) (q :: rest) := by
  obtain ⟨e, c₁, read, _, h₁⟩ := readable .bracketed k h inside (by simp [Place.bracketed])
    (by simp [Place.bracketed]) trivial ends hk
  obtain ⟨p, ps, rfl, start, _⟩ := opens
  obtain ⟨_, _, _, steps⟩ := h.next
  have noStar : acceptSymbol .bracket "*" c = some (false, c) :=
    (steps .bracket trivial).accept_other (start.ne_symbol (by decide))
  have noYield : acceptWord .bracket "yield" c = some (false, c) :=
    (steps .bracket trivial).accept_other start.ne_yield
  exact ⟨e, c₁, (bind_of_some (steps .bracket trivial).start).trans
    ((bind_of_some noStar).trans ((bind_of_some noYield).trans read)), h₁⟩

/-- A subscript that is one value. -/
theorem Facing.subscriptItem_eq (first : Mode) (hfirst : first ≠ .line) (opens : Opens ps)
    (readable : Readable ps) (h : Facing text c width offset (ps ++ q :: rest))
    (inside : ∀ p ∈ ps, Inside width p) (token : q.token ∈ [.symbol ",", .symbol "]"])
    (hk : ps.length ≤ k) :
    ∃ u c', subscriptItem (expression k) first c = some (u, c') ∧
      Facing text c' width (offset + (textOf ps).length) (q :: rest) := by
  have ends : q.token ∈ valueEnds := mem_of_among token
  obtain ⟨e, c₁, read, _, h₁⟩ :=
    readable ⟨first, .bracket, true⟩ k h inside hfirst (by simp) trivial ends hk
  obtain ⟨_, _, _, steps₁⟩ := h₁.next
  obtain ⟨p, ps, rfl, start, _⟩ := opens
  obtain ⟨_, _, _, steps⟩ := h.next
  have seen := (steps first ((inside p List.mem_cons_self).shows hfirst)).look
  have noColon : acceptSymbol .bracket ":" c₁ = some (false, c₁) := by
    refine (steps₁ .bracket trivial).accept_other fun colon => ?_
    rw [colon] at token
    exact absurd token (by decide)
  have value : (p.token != .symbol ":") = true := bne_iff_ne.mpr (start.ne_symbol (by decide))
  refine ⟨(), c₁, ?_, h₁⟩
  rw [subscriptItem, bind_of_some seen, if_pos value]
  exact (bind_of_some read).trans ((bind_of_some noColon).trans rfl)

theorem Written.Following.head_eq {α : Type} (f : α → List Printed) (b : Bracket)
    (l : Following α) :
    ∃ q qs, l.pieces f b = q :: qs ∧ q.token ∈ [.symbol ",", .symbol b.closing] := by
  cases l with
  | close gap => exact ⟨_, _, rfl, by simp⟩
  | comma gap closing => exact ⟨_, _, rfl, by simp⟩
  | more gap next others => exact ⟨_, _, rfl, by simp⟩

/-- The items after the first one, up to the closing bracket. -/
theorem Facing.moreItems_eq {α β : Type} {f : α → List Printed} (item : Parser β) (b : Bracket)
    (l : Following α) (starts : ∀ a ∈ l.items, ∃ p ps, f a = p :: ps ∧ p.token ≠ .symbol b.closing)
    (hitem : ∀ a ∈ l.items, ∀ {c : Cursor} {offset : Nat} {q : Printed} {rest : List Printed},
      Facing text c width offset (f a ++ q :: rest) → (∀ p ∈ f a, Inside width p) →
      q.token ∈ [.symbol ",", .symbol b.closing] → (f a).length ≤ k →
      ∃ r c', item c = some (r, c') ∧
        Facing text c' width (offset + (textOf (f a)).length) (q :: rest))
    {n : Nat} (h : Facing text c width offset (l.pieces f b ++ rest))
    (inside : ∀ p ∈ l.pieces f b, Inside width p) (hk : (l.pieces f b).length ≤ k)
    (hn : (l.pieces f b).length ≤ n) :
    ∃ rs c', moreItems item b.closing n c = some (rs, c') ∧
      Facing text c' width (offset + (textOf (l.pieces f b)).length) rest := by
  induction l generalizing c offset n with
  | close gap =>
    obtain ⟨n, rfl⟩ : ∃ m, n = m + 1 := ⟨n - 1, (Nat.succ_pred_eq_of_pos hn).symm⟩
    obtain ⟨c₁, h₁, _, steps⟩ := h.next
    have closed : acceptSymbol .bracket b.closing c = some (true, c₁) :=
      (steps .bracket trivial).accept
    exact ⟨[], c₁, (bind_of_some closed).trans rfl, h₁.at (by simp [Following.pieces])⟩
  | comma gap closing =>
    obtain ⟨n, rfl⟩ : ∃ m, n = m + 1 :=
      ⟨n - 1, (Nat.succ_pred_eq_of_pos (Nat.lt_of_succ_lt hn)).symm⟩
    obtain ⟨c₁, h₁, _, steps⟩ := h.next
    obtain ⟨c₂, h₂, _, steps'⟩ := h₁.next
    have open' : acceptSymbol .bracket b.closing c = some (false, c) :=
      (steps .bracket trivial).accept_other (by cases b <;> simp [Bracket.closing])
    have separated : expectSymbol .bracket "," c = some ((), c₁) := (steps .bracket trivial).expect
    have closed : acceptSymbol .bracket b.closing c₁ = some (true, c₂) :=
      (steps' .bracket trivial).accept
    refine ⟨[], c₂, (bind_of_some open').trans ((bind_of_some separated).trans
      ((bind_of_some closed).trans rfl)), h₂.at ?_⟩
    simp [Following.pieces, Nat.add_assoc]
  | more gap next others ih =>
    simp only [Following.pieces, List.length_cons, List.length_append, List.cons_append,
      List.append_assoc] at h hn hk inside ⊢
    obtain ⟨_, inside⟩ := List.forall_mem_cons.mp inside
    obtain ⟨insideNext, insideOthers⟩ := List.forall_mem_append.mp inside
    obtain ⟨startsNext, startsOthers⟩ := List.forall_mem_cons.mp starts
    obtain ⟨n, rfl⟩ : ∃ m, n = m + 1 := ⟨n - 1, by omega⟩
    obtain ⟨c₁, h₁, _, steps⟩ := h.next
    have open' : acceptSymbol .bracket b.closing c = some (false, c) :=
      (steps .bracket trivial).accept_other (by cases b <;> simp [Bracket.closing])
    have separated : expectSymbol .bracket "," c = some ((), c₁) := (steps .bracket trivial).expect
    have unclosed : acceptSymbol .bracket b.closing c₁ = some (false, c₁) := by
      obtain ⟨p, ps, heq, other⟩ := startsNext
      rw [heq] at h₁
      obtain ⟨_, _, _, steps⟩ := h₁.next
      exact (steps .bracket trivial).accept_other other
    obtain ⟨q, qs, heq, token⟩ := others.head_eq f b
    rw [heq, List.cons_append] at h₁
    obtain ⟨r, c₂, read, h₂⟩ := hitem next List.mem_cons_self h₁ insideNext token (by omega)
    rw [← List.cons_append, ← heq] at h₂
    obtain ⟨rs, c₃, ran, h₃⟩ := ih startsOthers (fun a ha => hitem a (List.mem_cons_of_mem _ ha)) h₂
      insideOthers (by omega) (n := n) (by omega)
    refine ⟨r :: rs, c₃, (bind_of_some open').trans ((bind_of_some separated).trans
      ((bind_of_some unclosed).trans ((bind_of_some read).trans
        ((bind_of_some ran).trans rfl)))), h₃.at ?_⟩
    simp only [textOf_cons, textOf_append, List.length_append]
    omega

theorem offset_enclosed {α : Type} (f : α → List Printed) (b : Bracket) (gap : Filler) (first : α)
    (others : Following α) :
    offset + (sign gap b.opening b.opening_mem).chars.length + (textOf (f first)).length +
      (textOf (others.pieces f b)).length =
    offset + (textOf (enclosed f b gap first others)).length := by
  simp only [enclosed, textOf_cons, textOf_append, List.length_append]
  omega

/-- No comprehension follows before a comma or a closing bracket. -/
theorem atClause_none {b : Bracket} {t : Token} (seen : look .bracket c = some (t, c))
    (ht : t ∈ [.symbol ",", .symbol b.closing]) : atClause c = some (false, c) := by
  simp only [List.mem_cons, List.not_mem_nil, or_false] at ht
  rcases ht with rfl | rfl <;> exact (bind_of_some seen).trans rfl

theorem Facing.room_le (h : Facing text c width offset (ps ++ rest)) : ps.length ≤ c.bound := by
  have room := h.room
  rw [List.length_append] at room
  omega

section
variable {first : Phrase} {others : Following Phrase}

theorem Written.Phrase.unclosed (b : Bracket) (p : Phrase) :
    ∃ r rs, p.pieces = r :: rs ∧ r.token ≠ .symbol b.closing := by
  obtain ⟨r, rs, heq, start, _⟩ := p.opens
  exact ⟨r, rs, heq, start.ne_symbol (by cases b <;> decide)⟩

/-- The elements after the first one. -/
theorem Facing.collect_eq (b : Bracket) (clauses : Parser Unit)
    (each : ∀ p ∈ others.items, Readable p.pieces)
    (h : Facing text c width offset (others.pieces Phrase.pieces b ++ rest))
    (inside : ∀ p ∈ others.pieces Phrase.pieces b, Inside width p)
    (hk : (others.pieces Phrase.pieces b).length ≤ k) :
    ∃ more comma c', collect (expression k) clauses b.closing c = some (.items more comma, c') ∧
      Facing text c' width (offset + (textOf (others.pieces Phrase.pieces b)).length) rest := by
  obtain ⟨more, c₁, ran, h₁⟩ := Facing.moreItems_eq (element (expression k)) b others
    (fun p _ => p.unclosed b) (fun p hp _ _ _ _ h inside token hk =>
      h.element_eq p.opens (each p hp) inside (by cases b <;> exact mem_of_among token) hk)
    h inside hk h.room_le
  obtain ⟨q, qs, heq, token⟩ := others.head_eq Phrase.pieces b
  rw [heq] at h
  obtain ⟨_, _, _, steps⟩ := h.next
  have seen := (steps .bracket trivial).look
  exact ⟨more, _, c₁, (bind_of_some (atClause_none seen token)).trans ((bind_of_some seen).trans
    ((bind_of_some (bound_eq c)).trans ((bind_of_some ran).trans rfl))), h₁⟩

/-- Values in brackets are an atom. -/
theorem Facing.display_eq (b : Bracket) {gap : Filler} (clauses : Parser Unit) {m next : Mode}
    (hm : m ≠ .line) (readable : Readable first.pieces)
    (each : ∀ p ∈ others.items, Readable p.pieces)
    (h : Facing text c width offset (enclosed Phrase.pieces b gap first others ++ rest))
    (inside : ∀ p ∈ enclosed Phrase.pieces b gap first others, Inside width p)
    (hk : (enclosed Phrase.pieces b gap first others).length ≤ k + 1) :
    ∃ e c', atom (expression k) clauses m next c = some (e, c') ∧
      e.span = partOf offset (enclosed Phrase.pieces b gap first others) ∧
      Facing text c' width (offset + (textOf (enclosed Phrase.pieces b gap first others)).length)
        rest := by
  simp only [enclosed, List.cons_append, List.append_assoc, List.length_cons, List.length_append]
    at h inside hk
  obtain ⟨insideOpening, insideRest⟩ := List.forall_mem_cons.mp inside
  obtain ⟨insideFirst, insideOthers⟩ := List.forall_mem_append.mp insideRest
  obtain ⟨c₁, h₁, _, steps⟩ := h.next
  have shown := steps m (insideOpening.shows hm)
  obtain ⟨l, advanced, _, span⟩ := shown.advance
  have unclosed : acceptSymbol .bracket b.closing c₁ = some (false, c₁) := by
    obtain ⟨p, ps, heq, other⟩ := first.unclosed b
    rw [heq] at h₁
    obtain ⟨_, _, _, steps⟩ := h₁.next
    exact (steps .bracket trivial).accept_other other
  obtain ⟨q, qs, heq, token⟩ := others.head_eq Phrase.pieces b
  have ends : q.token ∈ valueEnds := by
    cases b <;> exact mem_of_among token
  have before := h₁
  rw [heq, List.cons_append] at before
  have roomFirst : first.pieces.length ≤ k := by omega
  have roomOthers : (others.pieces Phrase.pieces b).length ≤ k := by omega
  obtain ⟨e, c₂, read, h₂⟩ := before.element_eq first.opens readable insideFirst ends roomFirst
  rw [← List.cons_append, ← heq] at h₂
  obtain ⟨more, comma, c₃, collected, h₃⟩ := h₂.collect_eq b clauses each insideOthers roomOthers
  rw [offset_enclosed] at h₃
  have start : l.span.start = offset + gap.chars.length := congrArg Span.start span
  cases b with
  | round =>
    have started : atom (expression k) clauses m next c = _ :=
      (bind_of_some shown.look).trans ((bind_of_some advanced).trans
        ((bind_of_some h₁.continuations_eq).trans ((bind_of_some unclosed).trans
          ((bind_of_some read).trans (bind_of_some collected)))))
    cases comma with
    | false =>
      exact ⟨_, c₃, started.trans ((bind_of_some h₃.lastStop_eq).trans rfl), by rw [start]; rfl, h₃⟩
    | true =>
      exact ⟨_, c₃, started.trans ((bind_of_some h₃.lastStop_eq).trans rfl), by rw [start]; rfl, h₃⟩
  | square =>
    have started : atom (expression k) clauses m next c = _ :=
      (bind_of_some shown.look).trans ((bind_of_some advanced).trans
        ((bind_of_some unclosed).trans ((bind_of_some read).trans (bind_of_some collected))))
    exact ⟨_, c₃, started.trans ((bind_of_some h₃.lastStop_eq).trans rfl), by rw [start]; rfl, h₃⟩

/-- The arguments of a call, from behind the opening parenthesis on. -/
theorem Facing.callRest_eq (clauses : Parser Unit) (readable : Readable first.pieces)
    (each : ∀ p ∈ others.items, Readable p.pieces)
    (h : Facing text c width offset
      (first.pieces ++ (others.pieces Phrase.pieces .round ++ rest)))
    (insideFirst : ∀ p ∈ first.pieces, Inside width p)
    (insideOthers : ∀ p ∈ others.pieces Phrase.pieces .round, Inside width p)
    (roomFirst : first.pieces.length ≤ k)
    (roomOthers : (others.pieces Phrase.pieces .round).length ≤ k) :
    ∃ c', suffixes.callRest (expression k) clauses c = some ((), c') ∧
      Facing text c' width (offset + (textOf first.pieces).length +
        (textOf (others.pieces Phrase.pieces .round)).length) rest := by
  obtain ⟨p, ps, starting, starts, _⟩ := first.opens
  have before := h
  rw [starting] at before
  obtain ⟨_, _, _, steps⟩ := before.next
  have unclosed : acceptSymbol .bracket ")" c = some (false, c) :=
    (steps .bracket trivial).accept_other (starts.ne_symbol (by decide))
  have noComma : acceptSymbol .bracket "," c = some (false, c) :=
    (steps .bracket trivial).accept_other (starts.ne_symbol (by decide))
  obtain ⟨q, qs, heq, token⟩ := others.head_eq Phrase.pieces .round
  rw [heq, List.cons_append] at h
  obtain ⟨_, c₁, read, _, h₁⟩ :=
    Facing.argument_base first.opens readable h insideFirst token roomFirst
  obtain ⟨_, _, _, steps₁⟩ := h₁.next
  have alone := atClause_none (b := .round) (steps₁ .bracket trivial).look token
  rw [← List.cons_append, ← heq] at h₁
  obtain ⟨_, c₂, ran, h₂⟩ := Facing.moreItems_eq _ .round others (fun p _ => p.unclosed .round)
    (fun p hp _ _ _ _ h inside token hk => by
      obtain ⟨a, c', read, _, h'⟩ := Facing.argument_base p.opens (each p hp) h inside token hk
      exact ⟨_, c', read, h'⟩)
    h₁ insideOthers roomOthers h₁.room_le
  exact ⟨c₂, (bind_of_some unclosed).trans ((bind_of_some noComma).trans ((bind_of_some read).trans
    ((bind_of_some alone).trans ((bind_of_some (bound_eq c₁)).trans
      ((bind_of_some ran).trans rfl))))), h₂⟩

/-- A call or a subscript behind a value. -/
theorem Facing.applied_eq (b : Bracket) {gap : Filler} (clauses : Parser Unit) {next : Mode}
    (hnext : next ≠ .line) (readable : Readable first.pieces)
    (each : ∀ p ∈ others.items, Readable p.pieces)
    (h : Facing text c width offset (enclosed Phrase.pieces b gap first others ++ rest))
    (inside : ∀ p ∈ enclosed Phrase.pieces b gap first others, Inside width p)
    (hk : (enclosed Phrase.pieces b gap first others).length ≤ k + 1) (start n : Nat) (e : Expr) :
    ∃ e' c', suffixes (expression k) clauses next start (n + 1) e c =
        suffixes (expression k) clauses next start n e' c' ∧
      e'.span = ⟨start, offset + (textOf (enclosed Phrase.pieces b gap first others)).length⟩ ∧
      Facing text c' width (offset + (textOf (enclosed Phrase.pieces b gap first others)).length)
        rest := by
  simp only [enclosed, List.cons_append, List.append_assoc, List.length_cons, List.length_append]
    at h inside hk
  obtain ⟨insideOpening, insideRest⟩ := List.forall_mem_cons.mp inside
  obtain ⟨insideFirst, insideOthers⟩ := List.forall_mem_append.mp insideRest
  have roomFirst : first.pieces.length ≤ k := by omega
  have roomOthers : (others.pieces Phrase.pieces b).length ≤ k := by omega
  obtain ⟨c₁, h₁, _, steps⟩ := h.next
  have shown := steps next (insideOpening.shows hnext)
  obtain ⟨l, advanced, _⟩ := shown.advance
  obtain ⟨q, qs, heq, token⟩ := others.head_eq Phrase.pieces b
  cases b with
  | square =>
    rw [heq, List.cons_append] at h₁
    obtain ⟨_, c₂, read, h₂⟩ := h₁.subscriptItem_eq .unfinished (by simp) first.opens readable
      insideFirst token roomFirst
    rw [← List.cons_append, ← heq] at h₂
    obtain ⟨_, c₃, ran, h₃⟩ := Facing.moreItems_eq _ .square others (fun p _ => p.unclosed .square)
      (fun p hp _ _ _ _ h inside token hk =>
        h.subscriptItem_eq .bracket (by simp) p.opens (each p hp) inside token hk)
      h₂ insideOthers roomOthers h₂.room_le
    rw [offset_enclosed] at h₃
    have started : suffixes (expression k) clauses next start (n + 1) e c = _ :=
      (bind_of_some shown.look).trans ((bind_of_some advanced).trans ((bind_of_some read).trans
        ((bind_of_some (bound_eq c₂)).trans ((bind_of_some ran).trans
          (bind_of_some h₃.lastStop_eq)))))
    exact ⟨_, c₃, started, rfl, h₃⟩
  | round =>
    obtain ⟨c₃, called, h₃⟩ :=
      h₁.callRest_eq clauses readable each insideFirst insideOthers roomFirst roomOthers
    rw [offset_enclosed] at h₃
    have started : suffixes (expression k) clauses next start (n + 1) e c = _ :=
      (bind_of_some shown.look).trans ((bind_of_some advanced).trans ((bind_of_some called).trans
        (bind_of_some h₃.lastStop_eq)))
    exact ⟨_, c₃, started, rfl, h₃⟩

end

/-! Every value is read. -/

/-- The attributes of a name. -/
theorem Facing.members_eq (members : List Member) (clauses : Parser Unit) {next : Mode}
    (hnext : next ≠ .line) (h : Facing text c width offset (members.flatMap Member.pieces ++ rest))
    (inside : ∀ p ∈ members.flatMap Member.pieces, Inside width p) (start n : Nat)
    (hn : (members.flatMap Member.pieces ++ rest).length < n) (e : Expr)
    (span : e.span = ⟨start, offset⟩) :
    ∃ e' c' b, suffixes (expression k) clauses next start n e c =
        suffixes (expression k) clauses next start b e' c' ∧ rest.length < b ∧
      e'.span = ⟨start, offset + (textOf (members.flatMap Member.pieces)).length⟩ ∧
      Facing text c' width (offset + (textOf (members.flatMap Member.pieces)).length) rest := by
  induction members generalizing c offset n e with
  | nil => exact ⟨e, c, n, rfl, hn, span, h⟩
  | cons m members ih =>
    rw [List.flatMap_cons, Member.pieces] at h inside hn
    simp only [List.cons_append, List.nil_append, List.length_cons, List.forall_mem_cons]
      at h inside hn
    obtain ⟨insideDot, insideName, insideOthers⟩ := inside
    obtain ⟨n, rfl⟩ : ∃ b, n = b + 1 := ⟨n - 1, by omega⟩
    obtain ⟨c₁, h₁, _, steps⟩ := h.next
    obtain ⟨c₂, h₂, _, steps'⟩ := h₁.next
    have shown := steps next (insideDot.shows hnext)
    obtain ⟨l, advanced, _⟩ := shown.advance
    have named := (steps' .unfinished insideName).identifier
    have step : suffixes (expression k) clauses next start (n + 1) e c = _ :=
      (bind_of_some shown.look).trans ((bind_of_some advanced).trans (bind_of_some named))
    obtain ⟨e', c', b, ran, room, span', h'⟩ := ih h₂ insideOthers n (by omega)
      (.attribute ⟨start, offset + (sign m.dot ".").chars.length +
        (word m.gap m.name.text m.name.spelled).chars.length⟩ e m.name.text) rfl
    have stop : offset + (sign m.dot ".").chars.length +
        (word m.gap m.name.text m.name.spelled).chars.length +
        (textOf (members.flatMap Member.pieces)).length =
        offset + (textOf ((m :: members).flatMap Member.pieces)).length := by
      rw [List.flatMap_cons, Member.pieces]
      simp only [textOf_append, textOf_cons, textOf_nil, List.append_nil, List.length_append]
      omega
    rw [stop] at span' h'
    exact ⟨e', c', b, step.trans ran, room, span', h'⟩

theorem runs_term (gap : Filler) (t : Term) : Runs [t.piece gap] := by
  intro text c width offset q rest n clauses first next h inside hfirst hnext _ _ _
  have shows := (inside _ List.mem_cons_self).shows hfirst
  have term : (∃ w, (t.piece gap).token = .word w) ∨ (t.piece gap).token = .number := by
    cases t with
    | word text spelled free => exact .inl ⟨text, rfl⟩
    | number n => exact .inr rfl
  obtain ⟨c₁, taken, h₁⟩ := h.atom_eq (expression n) clauses first next term shows
  have stop : offset + (t.piece gap).chars.length = offset + (textOf [t.piece gap]).length := by
    simp
  rw [stop] at h₁ taken
  exact ⟨_, c₁, c₁.bound, h.primary_atom shows taken, h₁.room, span_termOf _ _, h₁⟩

theorem runs_text (gap : Filler) (l : Literal) : Runs [⟨gap, l.spelling⟩] := by
  intro text c width offset q rest n clauses first next h inside hfirst hnext behind other _
  have shows := (inside _ List.mem_cons_self).shows hfirst
  obtain ⟨c₁, h₁, _, steps⟩ := h.next
  have seen : look first c = some (.string l.letters.isEmpty, c) := (steps first shows).look
  obtain ⟨lexeme, advanced, token, span⟩ := (steps first shows).advance
  obtain ⟨_, _, _, steps₁⟩ := h₁.next
  obtain ⟨b, bound⟩ := h₁.bound_succ
  have one : literal (expression n) first c = some (lexeme.span, c₁) := by
    rw [literal, bind_of_some advanced, token]
    rfl
  have alone : moreLiterals (expression n) next c₁.bound c₁ = some ([], c₁) := by
    rw [bound]
    exact moreLiterals_end (steps₁ next behind).look other b
  have taken : atom (expression n) clauses first next c = some (.literal lexeme.span, c₁) :=
    (bind_of_some seen).trans ((bind_of_some one).trans ((bind_of_some (bound_eq c₁)).trans
      ((bind_of_some alone).trans rfl)))
  have stop : offset + (⟨gap, l.spelling⟩ : Printed).chars.length =
      offset + (textOf [⟨gap, l.spelling⟩]).length := by simp
  rw [stop] at h₁ span
  exact ⟨_, c₁, c₁.bound, h.primary_atom shows taken, h₁.room, span, h₁⟩

theorem runs_dotted (gap : Filler) (name : Name) (members : List Member) :
    Runs (word gap name.text name.spelled :: members.flatMap Member.pieces) := by
  intro text c width offset q rest n clauses first next h inside hfirst hnext _ _ _
  obtain ⟨insideName, insideMembers⟩ := List.forall_mem_cons.mp inside
  have shows := insideName.shows hfirst
  obtain ⟨c₁, taken, h₁⟩ := h.atom_eq (expression n) clauses first next (.inl ⟨_, rfl⟩) shows
  obtain ⟨e, c₂, b, ran, room, span, h₂⟩ := h₁.members_eq members clauses hnext insideMembers _
    c₁.bound h₁.room _ (span_termOf _ _)
  rw [Nat.add_assoc, ← List.length_append, ← textOf_cons] at span h₂
  exact ⟨e, c₂, b, (h.primary_atom shows taken).trans ran, room, span, h₂⟩

theorem runs_display (b : Bracket) (gap : Filler) {first : Phrase} {others : Following Phrase}
    (readable : Readable first.pieces) (each : ∀ p ∈ others.items, Readable p.pieces) :
    Runs (enclosed Phrase.pieces b gap first others) := by
  intro text c width offset q rest n clauses m next h inside hm hnext _ _ hn
  obtain ⟨e, c₁, taken, span, h₁⟩ := h.display_eq b clauses hm readable each inside hn
  have shows := (inside _ List.mem_cons_self).shows hm
  exact ⟨e, c₁, c₁.bound, h.primary_atom shows taken, h₁.room, span, h₁⟩

theorem headGap_append (some : ps ≠ []) : headGap (ps ++ rest) = headGap ps := by
  cases ps with
  | nil => exact absurd rfl some
  | cons p ps => rfl

theorem runs_applied (b : Bracket) {object : Operand} (gap : Filler) {first : Phrase}
    {others : Following Phrase} (runs : Runs object.pieces) (readable : Readable first.pieces)
    (each : ∀ p ∈ others.items, Readable p.pieces) :
    Runs (object.pieces ++ enclosed Phrase.pieces b gap first others) := by
  intro text c width offset q rest n clauses m next h inside hm hnext _ _ hn
  have some : object.pieces ≠ [] := object.opens.opens.ne_nil
  obtain ⟨insideObject, insideRest⟩ := List.forall_mem_append.mp inside
  rw [List.append_assoc] at h
  rw [List.length_append] at hn
  have positive := List.length_pos_iff.mpr some
  have noLiteral : ¬IsLiteral (.symbol b.opening) := by
    rintro (⟨bare, heq⟩ | heq) <;> cases heq
  obtain ⟨e, c₁, room, ran, hroom, span, h₁⟩ := runs n clauses m next h insideObject hm hnext
    ((insideRest _ List.mem_cons_self).shows hnext) noLiteral (by omega)
  obtain ⟨room, rfl⟩ : ∃ d, room = d + 1 := ⟨room - 1, by omega⟩
  have roomInner : (enclosed Phrase.pieces b gap first others).length ≤ n + 1 := by omega
  obtain ⟨e', c₂, step, span', h₂⟩ := Facing.applied_eq b clauses hnext readable each h₁ insideRest
    roomInner (offset + headGap object.pieces) room e
  rw [Nat.add_assoc, ← List.length_append, ← textOf_append] at span' h₂
  refine ⟨e', c₂, room, ?_, ?_, ?_, h₂⟩
  · rw [headGap_append some]
    exact ran.trans step
  · change (enclosed Phrase.pieces b gap first others ++ q :: rest).length < room + 1 at hroom
    rw [List.length_append] at hroom
    have opening : 0 < (enclosed Phrase.pieces b gap first others).length := Nat.succ_pos _
    omega
  · rw [partOf, headGap_append some]
    exact span'

mutual

theorem Written.Operand.runs : ∀ o : Operand, Runs o.pieces
  | .term gap t => by
    rw [Operand.pieces]
    exact runs_term gap t
  | .text gap l => by
    rw [Operand.pieces]
    exact runs_text gap l
  | .dotted gap name members => by
    rw [Operand.pieces]
    exact runs_dotted gap name members
  | .display b gap first others => by
    rw [Operand.pieces_display]
    exact runs_display b gap (first.readable_of first.each) others.readable
  | .applied b object opening first others => by
    rw [Operand.pieces_applied]
    exact runs_applied b opening object.runs (first.readable_of first.each) others.readable

theorem Written.Phrase.each : ∀ p : Phrase, p.Each
  | .last _ operand => operand.runs
  | .more _ operand _ others => ⟨operand.runs, others.each⟩

theorem Written.Phrases.readable : ∀ ps : Phrases, ∀ p ∈ ps.following.items, Readable p.pieces
  | .close _ => List.forall_mem_nil _
  | .comma _ _ => List.forall_mem_nil _
  | .more _ next others => List.forall_mem_cons.mpr ⟨next.readable_of next.each, others.readable⟩

end

theorem Written.Phrase.readable (p : Phrase) : Readable p.pieces := p.readable_of p.each

end

end RepoAtlas.Python
