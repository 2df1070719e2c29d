import RepoAtlas.Proofs.Python.Files
import RepoAtlas.Proofs.Python.Operands
import RepoAtlas.Proofs.Python.Literals

/-!
Literals are read as they are written. The value of literals that follow one another is the
concatenation of the values of the parts, and a text that is escaped comes back from its literal.
-/
namespace RepoAtlas.Python
open RepoAtlas.Text Written

/-! Literals are read. -/

section
variable {text : List Char} {c : Cursor} {width offset : Nat} {rest : List Printed} {k : Nat}

theorem readable_name (gap : Filler) (name : Name) :
    Readable [word gap name.text name.spelled] := by
  have whole : (Phrase.last [] (.dotted gap name [])).pieces =
      [word gap name.text name.spelled] := by
    rw [Phrase.pieces, Operand.pieces]
    rfl
  rw [← whole]
  exact @Phrase.readable (.last [] (.dotted gap name []))

/-- A name in braces. -/
theorem Facing.field_eq (name : Name) (n : Nat)
    (h : Facing text c width offset (word [] name.text name.spelled :: ⟨[], .fieldClose⟩ :: rest)) :
    ∃ c', field (expression (k + 1)) (n + 1) c = some ((), c') ∧
      Facing text c' width
        (offset + (word [] name.text name.spelled).chars.length + Spelling.fieldClose.chars.length)
          rest := by
  have inside : ∀ p ∈ [word [] name.text name.spelled], Inside width p := by
    refine List.forall_mem_singleton.mpr ⟨rfl, fun run hrun breaks => ?_⟩
    obtain rfl : run = [] := List.mem_singleton.mp hrun
    cases breaks
  have ends : Token.fieldClose ∈ valueEnds := by decide
  obtain ⟨e, c₁, read, _, h₁⟩ := readable_name [] name .bracketed (k + 1) h inside
    (by simp [Place.bracketed]) (by simp [Place.bracketed]) trivial ends (Nat.le_add_left 1 k)
  obtain ⟨_, _, _, first⟩ := h.next
  obtain ⟨c₂, h₂, _, steps⟩ := h₁.next
  have closing : Steps .bracket c₁ .fieldClose _ c₂ := steps .bracket trivial
  have noYield : acceptWord .bracket "yield" c = some (false, c) :=
    (first .bracket trivial).accept_other (IsStart.ne_yield (.inl name.isOpener))
  have noEquals : acceptSymbol .bracket "=" c₁ = some (false, c₁) := closing.accept_other (by simp)
  have noConversion : accept .bracket .conversion c₁ = some (false, c₁) :=
    closing.accept_other (by simp)
  have noColon : accept .bracket .formatColon c₁ = some (false, c₁) :=
    closing.accept_other (by simp)
  obtain ⟨b, bound⟩ := h₁.bound_succ
  have alone : openItems (expression (k + 1)) .bracket c₁.bound c₁ = some (⟨[], false, 0⟩, c₁) := by
    rw [bound]
    exact (bind_of_some closing.look).trans rfl
  have held : items (expression (k + 1)) .bracketed c = some (⟨[e], false, 0⟩, c₁) :=
    (bind_of_some read).trans ((bind_of_some (bound_eq c₁)).trans ((bind_of_some alone).trans rfl))
  refine ⟨c₂, ?_, h₂.at ?_⟩
  · exact (bind_of_some noYield).trans ((bind_of_some held).trans ((bind_of_some noEquals).trans
      ((bind_of_some noConversion).trans ((bind_of_some noColon).trans closing.expect))))
  · simp [Printed.chars, Filler.chars]

/-- The text and the fields of a literal, up to its closing quote. -/
theorem Facing.formatRest_eq {s : Style} (fields : Fields) {n : Nat}
    (hn : (fields.pieces s).length ≤ n) (h : Facing text c width offset (fields.pieces s ++ rest)) :
    ∃ c', formatRest (expression (k + 1)) n c = some ((), c') ∧
      Facing text c' width (offset + (textOf (fields.pieces s)).length) rest := by
  induction fields generalizing c offset n with
  | close verbatim =>
    obtain ⟨n, rfl⟩ : ∃ m, n = m + 1 :=
      ⟨n - 1, by rw [Fields.pieces, List.length_singleton] at hn; omega⟩
    obtain ⟨c₁, h₁, _, steps⟩ := h.next
    have closing : Steps .bracket c .formatClose _ c₁ := steps .bracket trivial
    have noField : accept .bracket .fieldOpen c = some (false, c) := closing.accept_other (by simp)
    exact ⟨c₁, (bind_of_some noField).trans closing.expect, h₁.at (by simp [Fields.pieces])⟩
  | field verbatim name others ih =>
    rw [Fields.pieces, List.length_cons] at hn
    obtain ⟨n, rfl⟩ : ∃ m, n = m + 1 := ⟨n - 1, by omega⟩
    obtain ⟨c₁, h₁, _, steps⟩ := h.next
    have opening : Steps .bracket c .fieldOpen _ c₁ := steps .bracket trivial
    obtain ⟨b, bound⟩ := h₁.bound_succ
    obtain ⟨c₂, held, h₂⟩ := h₁.field_eq (k := k) name b
    rw [← bound] at held
    obtain ⟨c₃, ran, h₃⟩ := ih (n := n) (by simp at hn; omega) h₂
    refine ⟨c₃, (bind_of_some opening.accept).trans ((bind_of_some (bound_eq c₁)).trans
      ((bind_of_some held).trans ran)), h₃.at ?_⟩
    simp [Fields.pieces, Printed.chars, Filler.chars]
    omega

def Shown (width : Nat) (m : Mode) (f : Filler) : Prop :=
  ∀ p : Printed, p.filler = f → inCode p.token = true → p.Shows width m

def Halts (text : List Char) (width : Nat) (m : Mode) (rest : List Printed) : Prop :=
  ∀ {c : Cursor} {offset : Nat}, Facing text c width offset rest →
    ∃ t ∈ valueEnds, look m c = some (t, c)

/-- One literal. -/
theorem Facing.literal_eq (part : Part) (lead : Filler) {m : Mode} (shows : Shown width m lead)
    (h : Facing text c width offset (part.pieces lead ++ rest)) :
    ∃ c', literal (expression (k + 1)) m c = some (partOf offset (part.pieces lead), c') ∧
      Facing text c' width (offset + (textOf (part.pieces lead)).length) rest := by
  cases part with
  | literal l =>
    obtain ⟨c₁, h₁, _, steps⟩ := h.next
    have first : Steps m c (.string l.letters.isEmpty) _ c₁ := steps m (shows _ rfl rfl)
    obtain ⟨lexeme, advanced, token, span⟩ := first.advance
    refine ⟨c₁, ?_, h₁.at (by simp [Part.pieces])⟩
    rw [literal, bind_of_some advanced]
    simp only [token, span, partOf, Part.pieces, textOf_cons, textOf_nil, List.append_nil]
    rfl
  | format f =>
    obtain ⟨c₁, h₁, bound₁, steps⟩ := h.next
    have first : Steps m c .formatOpen _ c₁ := steps m (shows _ rfl rfl)
    obtain ⟨lexeme, advanced, token, span⟩ := first.advance
    obtain ⟨c₂, ran, h₂⟩ := Facing.formatRest_eq (k := k) f.fields h₁.room_le h₁
    have stop : offset + (⟨lead, .formatOpen f⟩ : Printed).chars.length +
        (textOf (f.fields.pieces f.style)).length =
        offset + (textOf ((Part.format f).pieces lead)).length := by
      simp [Part.pieces, Nat.add_assoc]
    rw [stop] at h₂
    refine ⟨c₂, ?_, h₂⟩
    rw [literal, bind_of_some advanced]
    simp only [token]
    refine (bind_of_some (bound_eq c₁)).trans ((bind_of_some ran).trans
      ((bind_of_some h₂.lastStop_eq).trans ?_))
    rw [span]
    rfl

/-- The value of a literal from the text that it is. -/
theorem Facing.value_part {part : Part} {lead : Filler}
    (h : Facing text c width offset (part.pieces lead ++ rest)) :
    literalValue ((SourceText.ofChars text).slice (partOf offset (part.pieces lead))) =
      part.value := by
  have some : part.pieces lead ≠ [] := by cases part <;> exact List.cons_ne_nil _ _
  rw [h.slice_eq some, part.literalValue_bodyOf]

/-- One more literal. -/
theorem Facing.moreLiterals_step {part : Part} {lead : Filler} {m : Mode} {c₁ c₂ : Cursor} {n : Nat}
    (shown : Shown width m lead) (h : Facing text c width offset (part.pieces lead ++ rest))
    (read : literal (expression (k + 1)) m c = some (partOf offset (part.pieces lead), c₁))
    (spans : List Span)
    (ran : moreLiterals (expression (k + 1)) m n c₁ = some (spans.map some, c₂)) :
    moreLiterals (expression (k + 1)) m (n + 1) c =
      some ((partOf offset (part.pieces lead) :: spans).map some, c₂) := by
  cases part with
  | literal l =>
    obtain ⟨_, _, _, steps⟩ := h.next
    have seen : look m c = some (.string l.letters.isEmpty, c) := (steps m (shown _ rfl rfl)).look
    exact (bind_of_some seen).trans ((bind_of_some h.continuations_eq).trans
      ((bind_of_some read).trans ((bind_of_some ran).trans rfl)))
  | format f =>
    obtain ⟨_, _, _, steps⟩ := h.next
    have seen : look m c = some (.formatOpen, c) := (steps m (shown _ rfl rfl)).look
    exact (bind_of_some seen).trans ((bind_of_some h.continuations_eq).trans
      ((bind_of_some read).trans ((bind_of_some ran).trans rfl)))

/-- Literals after the first one. -/
theorem Facing.moreLiterals_eq (ps : Parts) {lead : Filler} {m : Mode} {n : Nat}
    (shown : ∀ gap ∈ lead :: ps.gaps, Shown width m gap) (halts : Halts text width m rest)
    (hn : ps.list.length < n) (h : Facing text c width offset (ps.pieces lead ++ rest)) :
    ∃ (spans : List Span) (c' : Cursor),
      moreLiterals (expression (k + 1)) m n c = some (spans.map some, c') ∧
      spans.map (fun s => literalValue ((SourceText.ofChars text).slice s)) =
        ps.list.map Part.value ∧
      Facing text c' width (offset + (textOf (ps.pieces lead)).length) rest := by
  -- What is said of the spans is only their values; they stand at other offsets in each step.
  induction ps generalizing c offset lead n with
  | last part =>
    rw [Parts.list, List.length_singleton] at hn
    obtain ⟨n, rfl⟩ : ∃ b, n = b + 2 := ⟨n - 2, by omega⟩
    obtain ⟨c₁, read, h₁⟩ := h.literal_eq (k := k) part lead (shown lead List.mem_cons_self)
    obtain ⟨t, ends, seen⟩ := halts h₁
    refine ⟨[partOf offset (part.pieces lead)], c₁, ?_, congrArg (fun v => [v]) h.value_part, h₁⟩
    exact h.moreLiterals_step (shown lead List.mem_cons_self) read []
      (moreLiterals_end seen (not_isLiteral_of_ends (operandEnds_of_ends ends)) n)
  | more part gap apart others ih =>
    rw [Parts.list, List.length_cons] at hn
    rw [Parts.pieces, List.append_assoc] at h
    obtain ⟨n, rfl⟩ : ∃ b, n = b + 1 := ⟨n - 1, by omega⟩
    obtain ⟨c₁, read, h₁⟩ := h.literal_eq (k := k) part lead (shown lead List.mem_cons_self)
    obtain ⟨spans, c₂, ran, values, h₂⟩ := ih
      (fun gap hgap => shown gap (List.mem_cons_of_mem _ hgap)) (n := n) (by omega) h₁
    refine ⟨partOf offset (part.pieces lead) :: spans, c₂,
      h.moreLiterals_step (shown lead List.mem_cons_self) read spans ran, ?_, h₂.at ?_⟩
    · rw [List.map_cons, h.value_part, values]
      rfl
    · rw [Parts.pieces, textOf_append, List.length_append, Nat.add_assoc]

theorem literalValue_literals {t : SourceText} (span : Span) {spans : List Span} (ps : Parts)
    (values : spans.map (fun s => literalValue (t.slice s)) = ps.list.map Part.value) :
    t.literalValue? (.literals span (spans.map some)) = ps.value := by
  have each : (spans.map some).mapM
      (fun part : Option Span => part.bind fun s => literalValue (t.slice s)) =
      ps.list.mapM Part.value := by
    calc (spans.map some).mapM
          (fun part : Option Span => part.bind fun s => literalValue (t.slice s))
        = (spans.map fun s => literalValue (t.slice s)).mapM id := by simp [Function.comp_def]
      _ = (ps.list.map Part.value).mapM id := by rw [values]
      _ = ps.list.mapM Part.value := by simp
  rw [SourceText.literalValue?, each, Parts.value]

/-- The parts of a literal are read one by one, and its value is the concatenation of theirs. -/
theorem Facing.literals_eq (ps : Parts) {lead : Filler} {first m : Mode}
    (opening : Shown width first lead) (shown : ∀ gap ∈ ps.gaps, Shown width m gap)
    (halts : Halts text width m rest) (h : Facing text c width offset (ps.pieces lead ++ rest)) :
    ∃ e c', literals (expression (k + 1)) first m c = some (e, c') ∧
      (SourceText.ofChars text).literalValue? e = ps.value ∧
      Facing text c' width (offset + (textOf (ps.pieces lead)).length) rest := by
  cases ps with
  | last part =>
    obtain ⟨c₁, read, h₁⟩ := h.literal_eq (k := k) part lead opening
    obtain ⟨t, ends, seen⟩ := halts h₁
    obtain ⟨b, bound⟩ := h₁.bound_succ
    have alone : moreLiterals (expression (k + 1)) m c₁.bound c₁ = some ([], c₁) := by
      rw [bound]
      exact moreLiterals_end seen (not_isLiteral_of_ends (operandEnds_of_ends ends)) b
    refine ⟨_, c₁, (bind_of_some read).trans ((bind_of_some (bound_eq c₁)).trans
      ((bind_of_some alone).trans rfl)), ?_, h₁⟩
    rw [SourceText.literalValue?, h.value_part, Parts.value_last]
  | more part gap apart others =>
    rw [Parts.pieces, List.append_assoc] at h
    obtain ⟨c₁, read, h₁⟩ := h.literal_eq (k := k) part lead opening
    have room : others.list.length < c₁.bound := by
      have room := h₁.room
      have fewer := others.length_le gap
      rw [List.length_append] at room
      omega
    obtain ⟨spans, c₂, ran, values, h₂⟩ := h₁.moreLiterals_eq (k := k) others shown halts room
    have stop : offset + (textOf (part.pieces lead)).length + (textOf (others.pieces gap)).length =
        offset + (textOf ((Parts.more part gap apart others).pieces lead)).length := by
      rw [Parts.pieces, textOf_append, List.length_append, Nat.add_assoc]
    rw [stop] at h₂
    -- One span alone would be read as a single literal, so there has to be another.
    obtain ⟨s, more, rfl⟩ : ∃ s more, spans = s :: more := by
      cases spans with
      | nil => cases others <;> cases values
      | cons s more => exact ⟨s, more, rfl⟩
    refine ⟨.literals _ ((partOf offset (part.pieces lead) :: s :: more).map some), c₂,
      (bind_of_some read).trans ((bind_of_some (bound_eq c₁)).trans ((bind_of_some ran).trans
        ((bind_of_some h₂.lastStop_eq).trans rfl))), ?_, h₂⟩
    refine literalValue_literals _ (.more part gap apart others) ?_
    rw [List.map_cons, h.value_part, values]
    rfl

/-- An atom of one literal or in parentheses is an expression, if a value ends behind it. -/
theorem Facing.expression_atom {p : Printed} {place : Place} {e : Expr} {c₁ : Cursor} {t : Token}
    (h : Facing text c width offset (p :: rest)) (shows : p.Shows width place.first)
    (token : IsLiteral p.token ∨ p.token = .symbol "(")
    (read : atom (expression k) (clauses (expression k) c.bound) place.first place.rest c =
      some (e, c₁))
    {offset' : Nat} {rest' : List Printed} (h₁ : Facing text c₁ width offset' rest')
    (ends : t ∈ valueEnds) (seen : look place.rest c₁ = some (t, c₁)) :
    expression (k + 1) place c = some (e, c₁) := by
  obtain ⟨_, _, _, steps⟩ := h.next
  have first := steps place.first shows
  obtain ⟨d, bound⟩ := h.bound_succ
  obtain ⟨d₁, bound₁⟩ := h₁.bound_succ
  have plain : (Python.bound >>= fun n => primary (expression k)
      (clauses (expression k) n) place.first place.rest) c = some (e, c₁) := by
    rw [bind_of_some (bound_eq c), h.primary_atom shows read, bound₁]
    exact suffixes_end seen (not_applying_of_ends (operandEnds_of_ends ends)) _ d₁ e
  have operated : operand (expression k) place true place.first c.bound c = some (e, c₁) := by
    rw [bound, operand, bind_of_some first.start, bind_of_some first.look]
    rcases token with (⟨bare, heq⟩ | heq) | heq <;> rw [heq] <;> exact plain
  have ended : operators (expression k) place c₁.bound c₁ = some (false, c₁) := by
    rw [bound₁]
    exact operators_end seen ends d₁
  rw [expression, bind_of_some first.start, bind_of_some (bound_eq c), bind_of_some operated,
    bind_of_some (bound_eq c₁), bind_of_some ended]
  rfl

/-- Literals that follow one another are an expression. -/
theorem Facing.expression_parts (ps : Parts) {lead : Filler} (place : Place)
    (opening : Shown width place.first lead) (shown : ∀ gap ∈ ps.gaps, Shown width place.rest gap)
    (halts : Halts text width place.rest rest)
    (h : Facing text c width offset (ps.pieces lead ++ rest)) :
    ∃ e c', expression (k + 2) place c = some (e, c') ∧
      (SourceText.ofChars text).literalValue? e = ps.value ∧
      Facing text c' width (offset + (textOf (ps.pieces lead)).length) rest := by
  obtain ⟨e, c₁, read, value, h₁⟩ := h.literals_eq (k := k) ps opening shown halts
  obtain ⟨t, ends, seen⟩ := halts h₁
  obtain ⟨spelling, others, heq, token⟩ := ps.starts lead
  rw [heq] at h
  obtain ⟨_, _, _, steps⟩ := h.next
  have shows : Printed.Shows ⟨lead, spelling⟩ width place.first := by
    refine opening _ rfl ?_
    rcases token with ⟨bare, heq⟩ | heq <;> rw [Printed.token, heq] <;> rfl
  have taken : atom (expression (k + 1)) (clauses (expression (k + 1)) c.bound) place.first
      place.rest c = some (e, c₁) := by
    have seen : look place.first c = some (spelling.token, c) := (steps place.first shows).look
    rw [atom, bind_of_some seen]
    rcases token with ⟨bare, heq⟩ | heq <;> rw [heq] <;> exact read
  exact ⟨e, c₁, h.expression_atom shows (.inl token) taken h₁ ends seen, value, h₁⟩

/-- Literals in parentheses are an expression, with the literals in it. -/
theorem Facing.expression_grouped (ps : Parts) {gap opening closing : Filler} (place : Place)
    (shows : Shown width place.first gap) (halts : Halts text width place.rest rest)
    (h : Facing text c width offset
      (sign gap "(" :: (ps.pieces opening ++ sign closing ")" :: rest))) :
    ∃ span e c', expression (k + 3) place c = some (.group span e true, c') ∧
      (SourceText.ofChars text).literalValue? e = ps.value ∧
      Facing text c' width
        (offset + (textOf (sign gap "(" :: (ps.pieces opening ++ [sign closing ")"]))).length)
          rest := by
  obtain ⟨c₁, h₁, _, steps⟩ := h.next
  have first : Steps place.first c (.symbol "(") _ c₁ := steps place.first (shows _ rfl rfl)
  obtain ⟨l, advanced, _⟩ := first.advance
  have bracketed (f : Filler) : Shown width .bracket f := fun _ _ _ => trivial
  have closes : Halts text width .bracket (sign closing ")" :: rest) := by
    intro c offset h
    obtain ⟨_, _, _, steps⟩ := h.next
    exact ⟨.symbol ")", by decide, (steps .bracket trivial).look⟩
  obtain ⟨e, c₂, read, value, h₂⟩ := h₁.expression_parts (k := k) ps .bracketed (bracketed opening)
    (fun gap _ => bracketed gap) closes
  obtain ⟨c₃, h₃, _, steps'⟩ := h₂.next
  have last : Steps .bracket c₂ (.symbol ")") _ c₃ := steps' .bracket trivial
  obtain ⟨spelling, others, heq, token⟩ := ps.starts opening
  have ne {t : Token} (ht : ¬IsLiteral t) : spelling.token ≠ t := fun same => ht (same ▸ token)
  have before := h₁
  rw [heq] at before
  obtain ⟨_, _, _, inner⟩ := before.next
  have inner : Steps .bracket c₁ spelling.token _ _ := inner .bracket trivial
  have unclosed : acceptSymbol .bracket ")" c₁ = some (false, c₁) :=
    inner.accept_other (ne (by simp [IsLiteral]))
  have noStar : acceptSymbol .bracket "*" c₁ = some (false, c₁) :=
    inner.accept_other (ne (by simp [IsLiteral]))
  have noYield : acceptWord .bracket "yield" c₁ = some (false, c₁) :=
    inner.accept_other (ne (by simp [IsLiteral]))
  have element : element (expression (k + 2)) c₁ = some (e, c₂) :=
    (bind_of_some inner.start).trans ((bind_of_some noStar).trans
      ((bind_of_some noYield).trans read))
  have closed : acceptSymbol .bracket ")" c₂ = some (true, c₃) := last.accept
  obtain ⟨b, bound⟩ := h₂.bound_succ
  have alone : moreItems (Python.element (expression (k + 2))) ")" c₂.bound c₂ = some ([], c₃) := by
    rw [bound]
    exact (bind_of_some closed).trans rfl
  have collected (clauses : Parser Unit) :
      collect (expression (k + 2)) clauses ")" c₂ = some (.items [] false, c₃) :=
    (bind_of_some (atClause_none (b := .round) last.look (by decide))).trans
      ((bind_of_some last.look).trans ((bind_of_some (bound_eq c₂)).trans
        ((bind_of_some alone).trans rfl)))
  have taken (clauses : Parser Unit) (m : Mode) :
      atom (expression (k + 2)) clauses place.first m c =
        some (.group ⟨l.span.start, _⟩ e true, c₃) :=
    (bind_of_some first.look).trans ((bind_of_some advanced).trans
      ((bind_of_some h₁.continuations_eq).trans ((bind_of_some unclosed).trans
        ((bind_of_some element).trans ((bind_of_some (collected clauses)).trans
          ((bind_of_some h₃.lastStop_eq).trans rfl))))))
  obtain ⟨t, ends, seen⟩ := halts h₃
  refine ⟨_, e, c₃, h.expression_atom (shows _ rfl rfl) (.inr rfl) (taken _ _) h₃ ends seen, value,
    h₃.at ?_⟩
  simp only [textOf_cons, textOf_append, textOf_nil, List.append_nil, List.length_append]
  omega

/-- The lexeme of the first token of a file. -/
theorem Facing.firstLexeme_eq {p : Printed} {ps : List Printed}
    (h : Facing text c width offset (p :: ps)) (bare : p.filler = [])
    (token : IsLiteral p.token ∨ p.token = .symbol "(") :
    ∃ l rest, c.rest = l :: rest ∧ l.token = p.token ∧ l.gap = gapOf [] := by
  have code : inCode p.token = true := by
    rcases token with (⟨_, heq⟩ | heq) | heq <;> rw [heq] <;> rfl
  have runs : p.filler.runs [] = [[]] := by
    rw [bare]
    rfl
  obtain ⟨l, rest, hrest, token, _, gap, _⟩ := h.head_eq code runs
  exact ⟨l, rest, hrest, token, gap⟩

/-- An expression on a line of its own is a statement. -/
theorem Facing.statement_expression {p : Printed} {ps : List Printed} {e : Expr} {c₁ : Cursor}
    {offset' : Nat} (h : Facing text c width offset (p :: ps)) (bare : p.filler = [])
    (token : IsLiteral p.token ∨ p.token = .symbol "(")
    (read : expression k ⟨.bracket, .line, true⟩ c = some (e, c₁))
    (h₁ : Facing text c₁ width offset' []) (n : Nat) :
    statement (expression k) (n + 1) c = .ok ([.expression e 1], c₁) := by
  obtain ⟨l, rest, hrest, hl, _⟩ := h.firstLexeme_eq bare token
  obtain ⟨_, _, _, steps⟩ := h.next
  have first := steps .bracket trivial
  obtain ⟨start, started⟩ := here_eq c
  obtain ⟨b, bound⟩ := h.bound_succ
  obtain ⟨b₁, bound₁⟩ := h₁.bound_succ
  have noYield : acceptWord .bracket "yield" c = some (false, c) := by
    refine first.accept_other fun same => ?_
    rcases token with (⟨_, heq⟩ | heq) | heq <;> rw [heq] at same <;> cases same
  have last : StartsLine 0 [] := rfl
  have ended := h₁.look_lineEnd last
  have alone : openItems (expression k) .line c₁.bound c₁ = some (⟨[], false, 0⟩, c₁) := by
    rw [bound₁]
    exact (bind_of_some ended).trans rfl
  have held : items (expression k) ⟨.bracket, .line, true⟩ c = some (⟨[e], false, 0⟩, c₁) :=
    (bind_of_some read).trans ((bind_of_some (bound_eq c₁)).trans ((bind_of_some alone).trans rfl))
  have chained : chain (expression k) c.bound .bracket c = some (.bare ⟨[e], false, 0⟩, c₁) := by
    rw [bound]
    exact (bind_of_some noYield).trans ((bind_of_some held).trans ((bind_of_some ended).trans rfl))
  have single : chainStatement (expression k) c = some (.expression e 1, c₁) :=
    (bind_of_some first.start).trans ((bind_of_some (bound_eq c)).trans
      ((bind_of_some chained).trans rfl))
  have simple : simpleStatement (expression k) c = some (.expression e 1, c₁) := by
    rw [simpleStatement, bind_of_some first.look]
    rcases token with (⟨_, heq⟩ | heq) | heq <;> rw [heq] <;> exact single
  obtain ⟨l', rest', heq', plain', _⟩ := h₁.startsLine_eq last
  have line : simpleLine (expression k) c.bound [] c = .ok ([.expression e 1], c₁) := by
    rw [bound]
    exact (bind_of_ok started).trans ((bind_of_ok (from_eq start simple)).trans
      ((bind_of_ok (from_eq start ((bind_of_some ended).trans rfl))).trans
        ((bind_of_ok (stepBound_eq c₁)).trans
          ((bind_of_ok (trailing_eq heq' plain' _)).trans rfl))))
  rw [statement, statementOf, bind_of_ok (get_eq c), bind_of_ok started]
  rcases token with (⟨_, heq⟩ | heq) | heq <;> simp only [hrest, hl, heq] <;> exact line

/-! Files. -/

/-- The statement is one expression. -/
theorem Facing.concatenation_eq (x : Concatenation) (h : Facing text c width offset x.pieces) :
    ∃ e c', expression (k + 3) ⟨.bracket, .line, true⟩ c = some (e, c') ∧
      x.Means (SourceText.ofChars text) e ∧
      Facing text c' width (offset + (textOf x.pieces).length) [] := by
  have bracketed (f : Filler) : Shown width .bracket f := fun _ _ _ => trivial
  have ends : StartsLine 0 [] := rfl
  have halts : Halts text width .line [] := fun h => ⟨.lineEnd, by decide, h.look_lineEnd ends⟩
  cases x with
  | line parts tight =>
    rw [Concatenation.pieces, ← List.append_nil (parts.pieces [])] at h
    obtain ⟨e, c₁, read, value, h₁⟩ := h.expression_parts (k := k + 1) parts ⟨.bracket, .line, true⟩
      (bracketed []) (fun gap hgap p heq code => ⟨code, heq ▸ tight gap hgap⟩) halts
    exact ⟨e, c₁, read, value, h₁⟩
  | grouped opening parts closing =>
    obtain ⟨span, e, c₁, read, value, h₁⟩ :=
      h.expression_grouped (k := k) parts ⟨.bracket, .line, true⟩ (bracketed []) halts
    exact ⟨_, c₁, read, ⟨span, e, rfl, value⟩, h₁⟩

/-- A block of one statement of literals. -/
theorem Facing.blockItems_concatenation (x : Concatenation) (d n : Nat)
    (h : Facing text c 0 offset x.pieces) :
    ∃ e c', blockItems (statement (expression (k + 3)) (d + 1)) (n + 2) [] c =
      .ok ([.expression e 1], c') ∧
      x.Means (SourceText.ofChars text) e := by
  obtain ⟨e, c₁, read, value, h₁⟩ := h.concatenation_eq (k := k) x
  obtain ⟨p, ps, heq, bare, first⟩ := x.starts
  rw [heq] at h
  have taken := h.statement_expression bare first read h₁ d
  have ended : blockItems (statement (expression (k + 3)) (d + 1)) (n + 1) [.expression e 1] c₁ =
      .ok ([.expression e 1], c₁) := h₁.blockItems_end n [.expression e 1]
  obtain ⟨l, rest, hrest, token, gap⟩ := h.firstLexeme_eq bare first
  have inside : l.gap.closes c.width = false := by
    rw [gap]
    rfl
  refine ⟨e, c₁, ?_, value⟩
  rw [blockItems, bind_of_ok (get_eq c)]
  simp only [hrest, inside, token]
  rcases first with (⟨_, heq⟩ | heq) | heq <;> simp only [heq] <;>
    exact (bind_of_ok taken).trans ended

/-- A file of literals is one expression, and its value is the concatenation of the values of the
literals. -/
theorem parse_concatenation (path : String) (x : Concatenation) :
    ∃ source e, SourceFile.parse path x.file = .ok source ∧ source.body = [.expression e 1] ∧
      x.Means source.text e := by
  have chars : x.file.toList = textOf x.pieces ++ ['\n'] := String.toList_ofList
  obtain ⟨ls, last, lexemes, laid, token, gap⟩ := lex_laid x.fitting
  have fewer : 1 ≤ ls.length := by
    obtain ⟨p, ps, heq, _⟩ := x.starts
    have fewer := laid.length_le
    rw [heq, List.length_cons] at fewer
    omega
  obtain ⟨k, bound⟩ : ∃ k, ls.length + 2 = k + 3 := ⟨ls.length - 1, by omega⟩
  have room : x.pieces.length < k + 3 := by
    have room := laid.length_le
    omega
  have facing : Facing (textOf x.pieces ++ ['\n']) ⟨ls ++ [last], 0, 0, k + 3⟩ 0 0 x.pieces :=
    ⟨rfl, rfl, room, ⟨ls, last, rfl, laid, token, gap⟩, ['\n'], rfl⟩
  obtain ⟨e, c₁, ran, value⟩ := facing.blockItems_concatenation (k := k) x (k + 2) (k + 1)
  have parsed : statements (lex x.file.toList) = .ok [.expression e 1] := by
    have length : (ls ++ [last]).length + 1 = k + 3 := by simpa using bound
    rw [chars, lexemes, statements]
    simp only [length, ran]
    rfl
  refine ⟨⟨path, SourceText.ofChars x.file.toList, [.expression e 1]⟩, e,
    by simp only [SourceFile.parse, parsed], rfl, ?_⟩
  rw [chars]
  exact value

end

/-- The file of one escaped text has the text as its docstring. -/
theorem docstring_escaped (path : String) {letters : List Char} (hl : letters ∈ [[], ['u'], ['U']])
    (s : Style) {text : List Char} (printed : '\x00' ∉ text) :
    ∃ source, SourceFile.parse path
        (String.ofList (letters ++ (s.chars ++ (escape text ++ (s.chars ++ ['\n']))))) =
          .ok source ∧
      source.text.docstring? source.body = some (String.ofList text) := by
  obtain ⟨source, e, parsed, body, value⟩ :=
    parse_concatenation path (.line (.last (.literal (.escaped letters hl s text printed))) nofun)
  refine ⟨source, ?_, ?_⟩
  · rw [← parsed]
    simp [Concatenation.file, Concatenation.pieces, Parts.pieces, Part.pieces, Printed.chars,
      Filler.chars, Literal.spelling, Literal.chars, Literal.escaped]
  · rw [body, SourceText.docstring?, value, Parts.value_last, Part.value, Literal.value_escaped]
    rfl

/-- String literals are decoded. An escaped text comes back from a literal with any quote, and so do
the characters of a raw literal; bytes and literals with replacement fields have no value. The value
of literals that follow one another, whatever stands between them, is the concatenation of their
values. -/
theorem literals_decoded (path : String) :
    (∀ letters ∈ [[], ['u'], ['U']], ∀ (s : Style) (text : List Char),
      literalValue (letters ++ (s.chars ++ (escape text ++ s.chars))) = some text) ∧
    (∀ letters ∈ [[], ['u'], ['U']], ∀ (s : Style) (text : List Char), '\x00' ∉ text →
      ∃ source, SourceFile.parse path
          (String.ofList (letters ++ (s.chars ++ (escape text ++ (s.chars ++ ['\n']))))) =
            .ok source ∧
        source.text.docstring? source.body = some (String.ofList text)) ∧
    (∀ letters : List Char, (∀ c ∈ letters, c ∈ ['r', 'R', 'u', 'U']) →
      (∃ c ∈ letters, c ∈ ['r', 'R']) →
      ∀ (s : Style) (body : List Char), (s.triple = false → body.head? ≠ some s.mark) →
        literalValue (letters ++ (s.chars ++ (body ++ s.chars))) = some body) ∧
    (∀ letters : List Char, (∀ c ∈ letters, isPrefixLetter c = true) →
      (∃ c ∈ letters, c ∈ ['b', 'B', 'f', 'F']) → ∀ (s : Style) (rest : List Char),
        literalValue (letters ++ (s.chars ++ rest)) = none) ∧
    ∀ x : Concatenation, ∃ source e, SourceFile.parse path x.file = .ok source ∧
      source.body = [.expression e 1] ∧ x.Means source.text e := by
  refine ⟨fun letters hl s text => Style.literalValue_escape hl s text,
    fun letters hl s text printed => docstring_escaped path hl s printed,
    fun letters among raw s body apart => Style.literalValue_raw among raw apart, ?_,
    parse_concatenation path⟩
  intro letters known ⟨c, hc, other⟩ s rest
  refine Style.literalValue_none known ?_ rest
  simp only [List.mem_cons, List.not_mem_nil, or_false] at other
  rcases other with rfl | rfl | rfl | rfl
  · exact .inr (List.any_eq_true.mpr ⟨_, hc, rfl⟩)
  · exact .inr (List.any_eq_true.mpr ⟨_, hc, rfl⟩)
  · exact .inl (List.any_eq_true.mpr ⟨_, hc, rfl⟩)
  · exact .inl (List.any_eq_true.mpr ⟨_, hc, rfl⟩)

example : literalValue "u'it\\'s\\n'".toList = some "it's\n".toList := by decide

end RepoAtlas.Python
