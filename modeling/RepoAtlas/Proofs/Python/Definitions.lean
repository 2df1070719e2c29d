import RepoAtlas.Proofs.Python.Headers
import RepoAtlas.Proofs.Text.Collapse
import RepoAtlas.Python.Signature

/-!
Definitions are read as they are written. Whatever stands between their tokens, a file of
definitions has statements, and the signatures of the headers are those that were written, with each
type, default and argument on one line.
-/
namespace RepoAtlas.Python
open RepoAtlas.Text Written

theorem orElse_of_some {α : Type} {p q : Parser α} {c c' : Cursor} {a : α}
    (h : p c = some (a, c')) :
    (p <|> q) c = some (a, c') := by
  change (p c <|> q c) = _
  rw [h]
  rfl

theorem Written.Inside.shows {width : Nat} {p : Printed} (h : Inside width p) {m : Mode}
    (hm : m ≠ .line) :
    p.Shows width m := by
  cases m with
  | line => exact absurd rfl hm
  | bracket => trivial
  | unfinished => exact h

/-- The part of the text that some tokens make, without what stands before the first of them. -/
theorem Facing.part {text : List Char} {c : Cursor} {width offset : Nat} (p : Printed)
    (ps : List Printed) {rest : List Printed} (h : Facing text c width offset (p :: ps ++ rest)) :
    (SourceText.ofChars text).slice
        ⟨offset + p.filler.chars.length, offset + (textOf (p :: ps)).length⟩ =
          bodyOf (p :: ps) := by
  obtain ⟨tail, chars⟩ := h.chars
  have whole : textOf (p :: ps) = p.filler.chars ++ bodyOf (p :: ps) := by
    rw [textOf_cons, Printed.chars, bodyOf, List.append_assoc]
  have length : offset + (p.filler.chars ++ bodyOf (p :: ps)).length -
      (offset + p.filler.chars.length) = (bodyOf (p :: ps)).length := by
    rw [List.length_append]
    omega
  rw [SourceText.slice_ofChars]
  dsimp only
  rw [← List.drop_drop, chars, textOf_append, whole, List.append_assoc, List.append_assoc,
    List.drop_left, length, List.take_left]

def headGap : List Printed → Nat
  | [] => 0
  | p :: _ => p.filler.chars.length

/-- The part of a text that some tokens at an offset make, without what stands before them. -/
def partOf (offset : Nat) (ps : List Printed) : Span :=
  ⟨offset + headGap ps, offset + (textOf ps).length⟩

theorem Facing.slice_eq {text : List Char} {c : Cursor} {width offset : Nat}
    {ps rest : List Printed} (h : Facing text c width offset (ps ++ rest)) (some : ps ≠ []) :
    (SourceText.ofChars text).slice (partOf offset ps) = bodyOf ps := by
  cases ps with
  | nil => exact absurd rfl some
  | cons p ps => exact h.part p ps

/-! Values of one token. -/

/-- The tokens that apply an attribute, a subscript or a call to a value. -/
def applying : List Token := [.symbol ".", .symbol "[", .symbol "("]

def operandEnds : List Token := valueEnds ++ binarySymbols.map .symbol

theorem not_applying_of_ends {t : Token} (h : t ∈ operandEnds) : t ∉ applying := by
  have each : ∀ t ∈ operandEnds, t ∉ applying := by decide
  exact each t h

theorem not_isLiteral_of_ends {t : Token} (h : t ∈ operandEnds) : ¬IsLiteral t := by
  rintro (⟨bare, rfl⟩ | rfl)
  · exact absurd h (by cases bare <;> decide)
  · exact absurd h (by decide)

theorem operandEnds_of_ends {t : Token} (h : t ∈ valueEnds) : t ∈ operandEnds :=
  List.mem_append_left _ h

section
variable {nested : Nested} {c : Cursor} {t : Token}

/-- Nothing is applied to an atom before any other token. -/
theorem suffixes_end {clauses : Parser Unit} {m : Mode} (seen : look m c = some (t, c))
    (other : t ∉ applying) (start n : Nat) (e : Expr) :
    suffixes nested clauses m start (n + 1) e c = some (e, c) := by
  rw [suffixes, bind_of_some seen]
  split
  · exact absurd (by decide) other
  · exact absurd (by decide) other
  · exact absurd (by decide) other
  · rfl

theorem moreLiterals_end {m : Mode} (seen : look m c = some (t, c)) (other : ¬IsLiteral t)
    (n : Nat) :
    moreLiterals nested m (n + 1) c = some ([], c) := by
  rw [moreLiterals, bind_of_some seen]
  split
  · exact absurd (.inl ⟨_, rfl⟩) other
  · exact absurd (.inr rfl) other
  · rfl

/-- No operator follows an operand at the end of a value. -/
theorem operators_end {place : Place} (seen : look place.rest c = some (t, c))
    (ends : t ∈ valueEnds) (n : Nat) : operators nested place (n + 1) c = some (false, c) := by
  rw [operators, bind_of_some seen]
  simp only [valueEnds, List.mem_cons, List.not_mem_nil, or_false] at ends
  rcases ends with rfl | rfl | rfl | rfl | rfl | rfl | rfl <;> rfl

end

def termOf (t : Token) (s : Span) : Expr :=
  match t with
  | .word w => if constants.contains w then .other s else .name s w
  | _ => .other s

theorem span_termOf (t : Token) (s : Span) : (termOf t s).span = s := by
  unfold termOf
  repeat' split
  all_goals rfl

/-- A word or a number. -/
theorem Facing.atom_eq {text : List Char} {c : Cursor} {width offset : Nat} {p : Printed}
    {rest : List Printed} (nested : Nested) (clauses : Parser Unit) (first next : Mode)
    (h : Facing text c width offset (p :: rest))
    (term : (∃ w, p.token = .word w) ∨ p.token = .number) (shows : p.Shows width first) :
    ∃ c', atom nested clauses first next c =
        some (termOf p.token ⟨offset + p.filler.chars.length, offset + p.chars.length⟩, c') ∧
      Facing text c' width (offset + p.chars.length) rest := by
  obtain ⟨c₁, h₁, _, steps⟩ := h.next
  obtain ⟨l, advanced, _, span⟩ := (steps first shows).advance
  refine ⟨c₁, ?_, h₁⟩
  rw [atom, bind_of_some (steps first shows).look]
  rcases term with ⟨w, word⟩ | number
  · simp only [word]
    rw [bind_of_some advanced, span]
    rfl
  · simp only [number]
    rw [bind_of_some advanced, span]
    rfl

/-- What starts with an atom goes on with what follows it. -/
theorem Facing.primary_atom {text : List Char} {c c₁ : Cursor} {width offset : Nat} {p : Printed}
    {rest : List Printed} {nested : Nested} {clauses : Parser Unit} {first next : Mode} {e : Expr}
    (h : Facing text c width offset (p :: rest)) (shows : p.Shows width first)
    (read : atom nested clauses first next c = some (e, c₁)) :
    primary nested clauses first next c =
      suffixes nested clauses next (offset + p.filler.chars.length) c₁.bound e c₁ := by
  obtain ⟨_, _, _, steps⟩ := h.next
  rw [primary, bind_of_some (steps first shows).start, bind_of_some read,
    bind_of_some (bound_eq c₁)]

/-- A word or a number before the end of a value. -/
theorem Facing.primary_eq {text : List Char} {c : Cursor} {width offset : Nat} {p q : Printed}
    {rest : List Printed} (nested : Nested) (clauses : Parser Unit) (first next : Mode)
    (h : Facing text c width offset (p :: q :: rest))
    (term : (∃ w, p.token = .word w) ∨ p.token = .number) (shows : p.Shows width first)
    (behind : q.Shows width next) (ends : q.token ∈ valueEnds) :
    ∃ c', primary nested clauses first next c =
        some (termOf p.token ⟨offset + p.filler.chars.length, offset + p.chars.length⟩, c') ∧
      Facing text c' width (offset + p.chars.length) (q :: rest) := by
  obtain ⟨c₁, taken, h₁⟩ := h.atom_eq nested clauses first next term shows
  obtain ⟨_, _, _, steps⟩ := h₁.next
  obtain ⟨b, bound⟩ := h₁.bound_succ
  refine ⟨c₁, ?_, h₁⟩
  rw [h.primary_atom shows taken, bound]
  exact suffixes_end (steps next behind).look
    (not_applying_of_ends (operandEnds_of_ends ends)) _ _ _

/-! Types and defaults. -/

theorem Written.Opens.no_stars {ps : List Printed} (h : Opens ps) :
    ∃ p ps', ps = p :: ps' ∧ p.token ≠ .symbol "**" := by
  obtain ⟨p, ps, rfl, start, _⟩ := h
  exact ⟨p, ps, rfl, start.ne_symbol (by decide)⟩

def typeEnds : List Token := [.symbol ",", .symbol ")", .symbol "]", .symbol "=", .symbol ":"]

section
variable {V : Type} [Writable V] {text : List Char} {c : Cursor} {width offset : Nat} {q : Printed}
  {ps rest : List Printed} {k : Nat}

/-- Nothing goes on with a type at its end. A colon does where a bound may follow. -/
theorem typeRest_end {type : Parser Span} {bounded : Bool} {m : Mode} {t : Token}
    (seen : look m c = some (t, c)) (ends : t ∈ typeEnds) (colon : bounded = true → t ≠ .symbol ":")
    (n : Nat) :
    typeRest type bounded m (n + 1) c = some ((), c) := by
  rw [typeRest, bind_of_some seen]
  simp only [typeEnds, List.mem_cons, List.not_mem_nil, or_false] at ends
  rcases ends with rfl | rfl | rfl | rfl | rfl
  · rfl
  · rfl
  · rfl
  · rfl
  · cases bounded with
    | true => exact absurd rfl (colon rfl)
    | false => rfl

omit [Writable V] in
/-- A type starts as a value, and goes on as the reader of what comes behind it says. -/
theorem Facing.typeText_value (starts : ∃ p ps', ps = p :: ps' ∧ p.token ≠ .symbol "**")
    (readable : Readable ps) (bounded : Bool) (first m : Mode) (n : Nat) (hfirst : first ≠ .line)
    (hm : m ≠ .line) (h : Facing text c width offset (ps ++ q :: rest))
    (inside : ∀ p ∈ ps, Inside width p) (shows : q.Shows width m) (ends : q.token ∈ valueEnds)
    (hk : ps.length ≤ k) :
    ∃ c', Facing text c' width (offset + (textOf ps).length) (q :: rest) ∧
      typeText (expression k) (n + 1) bounded first m c = (do
        typeRest (typeText (expression k) n bounded .unfinished m) bounded m c'.bound
        return ⟨offset + headGap ps, ← lastStop⟩ : Parser Span) c' := by
  obtain ⟨e, c₁, read, _, h₁⟩ := readable ⟨first, m, true⟩ k h inside hfirst hm shows ends hk
  obtain ⟨p, ps, rfl, other⟩ := starts
  obtain ⟨_, _, _, steps⟩ := h.next
  have start := steps first ((inside p List.mem_cons_self).shows hfirst)
  have noStars : acceptSymbol first "**" c = some (false, c) := start.accept_other other
  have one : (do let _ ← expression k ⟨first, m, true⟩ : Parser Unit) c = some ((), c₁) := by
    rw [bind_of_some read]
    rfl
  refine ⟨c₁, h₁, ?_⟩
  rw [typeText, bind_of_some start.start, bind_of_some noStars, if_neg (by simp),
    bind_of_some (orElse_of_some one)]
  dsimp only
  rw [bind_of_some (bound_eq c₁)]
  rfl

omit [Writable V] in
theorem Facing.typeText_eq (starts : ∃ p ps', ps = p :: ps' ∧ p.token ≠ .symbol "**")
    (readable : Readable ps) (bounded : Bool) (first m : Mode) (n : Nat) (hfirst : first ≠ .line)
    (hm : m ≠ .line) (h : Facing text c width offset (ps ++ q :: rest))
    (inside : ∀ p ∈ ps, Inside width p) (shows : q.Shows width m) (token : q.token ∈ typeEnds)
    (colon : bounded = true → q.token ≠ .symbol ":") (hk : ps.length ≤ k) :
    ∃ span c', typeText (expression k) (n + 1) bounded first m c = some (span, c') ∧
      (SourceText.ofChars text).slice span = bodyOf ps ∧
      Facing text c' width (offset + (textOf ps).length) (q :: rest) := by
  obtain ⟨c₁, h₁, started⟩ :=
    h.typeText_value starts readable bounded first m n hfirst hm inside shows
    (mem_of_among token) hk
  obtain ⟨_, _, _, steps⟩ := h₁.next
  obtain ⟨b, bound⟩ := h₁.bound_succ
  rw [bound] at started
  have ended (type : Parser Span) : typeRest type bounded m (b + 1) c₁ = some ((), c₁) :=
    typeRest_end (steps m shows).look token colon b
  have some : ps ≠ [] := by
    obtain ⟨p, ps', rfl, _⟩ := starts
    exact List.cons_ne_nil p ps'
  exact ⟨partOf offset ps, c₁, started.trans ((bind_of_some (ended _)).trans
    ((bind_of_some h₁.lastStop_eq).trans rfl)), h.slice_eq some, h₁⟩

theorem paramType_definition (nested : Nested) :
    paramType nested .definition = (do
      if (← look .bracket) == .symbol ":" then
        let _ ← advance .bracket
        return some (← typeText nested (← bound) true .unfinished .bracket)
      else return none) := rfl

theorem paramDefault_definition (nested : Nested) :
    paramDefault nested .definition = (do
      if ← acceptSymbol .bracket "=" then
        let e ← nested .inner
        return some e.span
      else return none) := rfl

theorem Facing.paramType_eq (type : Option (Filler × V))
    (h : Facing text c width offset (signed ":" (by decide) type ++ q :: rest))
    (inside : ∀ p ∈ signed ":" (by decide) type, Inside width p)
    (token : q.token ∈ [.symbol ",", .symbol ")", .symbol "="])
    (hk : (signed ":" (by decide) type).length ≤ k) :
    ∃ read c', paramType (expression k) .definition c = some (read, c') ∧
      read.map (SourceText.ofChars text).oneLine = type.map (fun t => lineOf t.2) ∧
      Facing text c' width (offset + (textOf (signed ":" (by decide) type)).length)
      (q :: rest) := by
  cases type with
  | none =>
    obtain ⟨_, _, _, steps⟩ := h.next
    refine ⟨none, c, ?_, rfl, h⟩
    have other : ¬(q.token == .symbol ":") = true := by
      simp only [List.mem_cons, List.not_mem_nil, or_false] at token
      rcases token with heq | heq | heq <;> simp [heq]
    rw [paramType_definition, bind_of_some (steps .bracket trivial).look, if_neg other]
    rfl
  | some type =>
    obtain ⟨c₁, h₁, _, steps⟩ := h.next
    have seen : look .bracket c = some (.symbol ":", c) := (steps .bracket trivial).look
    obtain ⟨l, advanced, _⟩ := (steps .bracket trivial).advance
    obtain ⟨b, bound⟩ := h₁.bound_succ
    have ends : q.token ∈ typeEnds := mem_of_among token
    have noColon : q.token ≠ .symbol ":" := by
      intro colon
      rw [colon] at token
      exact absurd token (by decide)
    obtain ⟨span, c₂, read, spelled, h₂⟩ :=
      h₁.typeText_eq (Writable.opens type.2).no_stars (Writable.reads type.2) true .unfinished
      .bracket b (by simp) (by simp) (fun p hp => inside p (List.mem_cons_of_mem _ hp)) trivial ends
      (fun _ => noColon) (Nat.le_of_succ_le hk)
    refine ⟨some span, c₂, ?_, ?_, h₂.at ?_⟩
    · rw [paramType_definition, bind_of_some seen, if_pos (beq_self_eq_true _),
        bind_of_some advanced, bind_of_some (bound_eq c₁), bound, bind_of_some read]
      rfl
    · rw [Option.map_some, Option.map_some, SourceText.oneLine, spelled]
      rfl
    · rw [signed, textOf_cons, List.length_append, Nat.add_assoc]

theorem Facing.paramDefault_eq (value : Option (Filler × V))
    (h : Facing text c width offset (signed "=" (by decide) value ++ q :: rest))
    (inside : ∀ p ∈ signed "=" (by decide) value, Inside width p)
    (token : q.token ∈ [.symbol ",", .symbol ")"])
    (hk : (signed "=" (by decide) value).length ≤ k) :
    ∃ read c', paramDefault (expression k) .definition c = some (read, c') ∧
      read.map (SourceText.ofChars text).oneLine = value.map (fun v => lineOf v.2) ∧
      Facing text c' width (offset + (textOf (signed "=" (by decide) value)).length)
      (q :: rest) := by
  cases value with
  | none =>
    obtain ⟨_, _, _, steps⟩ := h.next
    have other : q.token ≠ .symbol "=" := by
      intro equals
      rw [equals] at token
      exact absurd token (by decide)
    have none : acceptSymbol .bracket "=" c = some (false, c) :=
      (steps .bracket trivial).accept_other other
    refine ⟨Option.none, c, ?_, rfl, h⟩
    rw [paramDefault_definition, bind_of_some none]
    rfl
  | some value =>
    obtain ⟨c₁, h₁, _, steps⟩ := h.next
    have taken : acceptSymbol .bracket "=" c = some (true, c₁) := (steps .bracket trivial).accept
    have ends : q.token ∈ valueEnds := mem_of_among token
    obtain ⟨e, c₂, read, spelled, h₂⟩ := Writable.reads value.2 .inner k h₁
      (fun p hp => inside p (List.mem_cons_of_mem _ hp)) (by simp [Place.inner])
        (by simp [Place.inner])
      trivial ends
      (Nat.le_of_succ_le hk)
    refine ⟨some e.span, c₂, ?_, ?_, h₂.at ?_⟩
    · rw [paramDefault_definition, bind_of_some taken, if_pos rfl, bind_of_some read]
      rfl
    · rw [Option.map_some, Option.map_some, SourceText.oneLine, spelled]
      rfl
    · rw [signed, textOf_cons, List.length_append, Nat.add_assoc]

/-! Parameters. -/

theorem cons_signed (s : String) (hs : s ∈ Spelling.plainSymbols) (v : Option (Filler × V))
    (q : Printed) (rest : List Printed) :
    ∃ q' rest', signed s hs v ++ q :: rest = q' :: rest' ∧
      (q'.token = q.token ∨ q'.token = .symbol s) := by
  cases v with
  | none => exact ⟨q, rest, rfl, .inl rfl⟩
  | some v => exact ⟨_, _, rfl, .inr rfl⟩

/-- The name of a parameter as a part of the text. -/
theorem Facing.name_part {gap : Filler} {name : Name} {ps : List Printed}
    (h : Facing text c width offset (word gap name.text name.spelled :: ps)) :
    (SourceText.ofChars text).slice ⟨offset + (word gap name.text name.spelled).filler.chars.length,
        offset + (word gap name.text name.spelled).chars.length⟩ = name.text.toList := by
  have part := Facing.part (word gap name.text name.spelled) [] h
  rw [textOf_cons, textOf_nil, List.append_nil, bodyOf, textOf_nil, List.append_nil] at part
  exact part

theorem Facing.param_named {gap : Filler} {name : Name} {type value : Option (Filler × V)}
    (clauses : Parser Unit)
    (h : Facing text c width offset ((Parameter.named gap name type value).pieces ++ q :: rest))
    (inside : ∀ p ∈ (Parameter.named gap name type value).pieces, Inside width p)
    (token : q.token ∈ [.symbol ",", .symbol ")"])
    (hk : (Parameter.named gap name type value).pieces.length ≤ k) :
    ∃ read c', param (expression k) clauses .definition c = some (read, c') ∧
      (SourceText.ofChars text).param read =
        ((Parameter.named gap name type value).entry lineOf).text ∧
      Facing text c' width (offset + (textOf (Parameter.named gap name type value).pieces).length)
        (q :: rest) := by
  simp only [Parameter.pieces, List.cons_append, List.append_assoc] at h inside hk ⊢
  obtain ⟨c₁, h₁, _, steps⟩ := h.next
  have seen : look .bracket c = some (.word name.text, c) := (steps .bracket trivial).look
  have named := Steps.identifier (steps .bracket trivial)
  obtain ⟨inside₁, inside₂⟩ := List.forall_mem_append.mp (List.forall_mem_cons.mp inside).2
  rw [List.length_cons, List.length_append] at hk
  have roomType : (signed ":" (by decide) type).length ≤ k := by omega
  have roomValue : (signed "=" (by decide) value).length ≤ k := by omega
  obtain ⟨q', rest', split, token'⟩ := cons_signed "=" (by decide) value q rest
  have follows : q'.token ∈ [.symbol ",", .symbol ")", .symbol "="] := by
    rcases token' with heq | heq <;> rw [heq]
    · exact mem_of_among token
    · decide
  rw [split] at h₁
  obtain ⟨readType, c₂, typed, hType, h₂⟩ := h₁.paramType_eq type inside₁ follows roomType
  rw [← split] at h₂
  obtain ⟨readValue, c₃, defaulted, hValue, h₃⟩ := h₂.paramDefault_eq value inside₂ token roomValue
  have offset_eq : offset + (word gap name.text name.spelled).chars.length +
      (textOf (signed ":" (by decide) type)).length +
        (textOf (signed "=" (by decide) value)).length =
      offset + (textOf (word gap name.text name.spelled ::
        (signed ":" (by decide) type ++ signed "=" (by decide) value))).length := by
    rw [textOf_cons, textOf_append, List.length_append, List.length_append]
    omega
  have line : (SourceText.ofChars text).oneLine
      ⟨offset + (word gap name.text name.spelled).filler.chars.length,
      offset + (word gap name.text name.spelled).chars.length⟩ = name.text := by
    rw [SourceText.oneLine, h.name_part, collapseChars_free
      (not_isBlank_of_isIdentifier name.spelled), String.ofList_toList]
  have started : param (expression k) clauses .definition c = _ :=
    (bind_of_some seen).trans ((bind_of_some named).trans
      ((bind_of_some typed).trans (bind_of_some defaulted)))
  cases type <;> cases value <;> cases readType <;> cases readValue <;>
    simp only [Option.map_none, Option.map_some, Option.some.injEq, reduceCtorEq] at hType hValue
  all_goals
    refine ⟨_, c₃, started.trans rfl, ?_, h₃.at offset_eq⟩
    simp only [SourceText.param, Parameter.entry, Entry.text, Option.map_none, Option.map_some,
      hType, hValue, line]

theorem Written.Name.not_constant (name : Name) : constants.contains name.text = false := by
  have ordinary := name.ordinary
  simp only [keywords, List.mem_cons, not_or] at ordinary
  simp [constants, ordinary]

theorem Written.Name.term_eq (name : Name) (gap : Filler) (s : Span) :
    termOf (word gap name.text name.spelled).token s = .name s name.text := by
  change (if constants.contains name.text then Expr.other s else .name s name.text) = _
  rw [name.not_constant]
  rfl

theorem Facing.splatParam_eq {gap : Filler} {name : Name} {type : Option (Filler × V)}
    (clauses : Parser Unit) (stars : Nat)
    (h : Facing text c width offset
      (word gap name.text name.spelled :: (signed ":" (by decide) type ++ q :: rest)))
    (inside : Inside width (word gap name.text name.spelled))
    (insideType : ∀ p ∈ signed ":" (by decide) type, Inside width p)
    (token : q.token ∈ [.symbol ",", .symbol ")"]) (hk : (signed ":" (by decide) type).length ≤ k) :
    ∃ read c', splatParam (expression k) clauses .definition stars c = some (read, c') ∧
      (SourceText.ofChars text).param read = String.ofList (List.replicate stars '*') ++
        name.text ++ type.elim "" (fun t => ": " ++ lineOf t.2) ∧
      Facing text c' width (offset + (word gap name.text name.spelled).chars.length +
        (textOf (signed ":" (by decide) type)).length) (q :: rest) := by
  have part := h.name_part
  have none := h.continuations_eq
  obtain ⟨q', rest', split, token'⟩ := cons_signed ":" (by decide) type q rest
  have ends : q'.token ∈ valueEnds := by
    rcases token' with heq | heq <;> rw [heq]
    · exact mem_of_among token
    · decide
  have follows : q.token ∈ [.symbol ",", .symbol ")", .symbol "="] := mem_of_among token
  rw [split] at h
  obtain ⟨c₁, place, h₁⟩ := h.primary_eq (expression k) clauses .unfinished .bracket (.inl ⟨_, rfl⟩)
    (inside.shows (by simp)) trivial ends
  rw [name.term_eq] at place
  rw [← split] at h₁
  obtain ⟨readType, c₂, typed, hType, h₂⟩ := h₁.paramType_eq type insideType follows hk
  have started : splatParam (expression k) clauses .definition stars c = _ :=
    (bind_of_some none).trans ((bind_of_some place).trans (bind_of_some typed))
  have spelled : (SourceText.ofChars text).text
      ⟨offset + (word gap name.text name.spelled).filler.chars.length,
      offset + (word gap name.text name.spelled).chars.length⟩ = name.text := by
    rw [SourceText.text, part, String.ofList_toList]
  cases type <;> cases readType <;>
    simp only [Option.map_none, Option.map_some, Option.some.injEq, reduceCtorEq] at hType
  all_goals
    refine ⟨_, c₂, started.trans rfl, ?_, h₂⟩
    simp [SourceText.param, Expr.span, hType, spelled, String.append_assoc]

theorem Facing.param_splat {gap inner : Filler} {double : Bool} {name : Name}
    {type : Option (Filler × V)} (clauses : Parser Unit)
    (h : Facing text c width offset ((Parameter.splat gap double inner name type).pieces ++ q ::
      rest))
    (inside : ∀ p ∈ (Parameter.splat gap double inner name type).pieces, Inside width p)
    (token : q.token ∈ [.symbol ",", .symbol ")"])
    (hk : (Parameter.splat gap double inner name type).pieces.length ≤ k) :
    ∃ read c', param (expression k) clauses .definition c = some (read, c') ∧
      (SourceText.ofChars text).param read =
        ((Parameter.splat gap double inner name type).entry lineOf).text ∧
      Facing text c' width
        (offset + (textOf (Parameter.splat gap double inner name type).pieces).length)
        (q :: rest) := by
  simp only [Parameter.pieces, List.cons_append] at h inside hk ⊢
  obtain ⟨first, others⟩ := List.forall_mem_cons.mp inside
  obtain ⟨insideName, insideType⟩ := List.forall_mem_cons.mp others
  rw [List.length_cons, List.length_cons] at hk
  obtain ⟨c₁, h₁, _, steps⟩ := h.next
  have room : (signed ":" (by decide) type).length ≤ k := by omega
  obtain ⟨read, c₂, splat, spelled, h₂⟩ :=
    h₁.splatParam_eq clauses (if double then 2 else 1) insideName insideType token room
  obtain ⟨l, advanced, _⟩ := (steps .bracket trivial).advance
  refine ⟨read, c₂, ?_, ?_, h₂.at ?_⟩
  · rw [param]
    cases double with
    | true =>
      have seen : look .bracket c = some (.symbol "**", c) := (steps .bracket trivial).look
      exact (bind_of_some seen).trans ((bind_of_some advanced).trans splat)
    | false =>
      have seen : look .bracket c = some (.symbol "*", c) := (steps .bracket trivial).look
      obtain ⟨_, _, _, steps'⟩ := h₁.next
      have second : look .bracket c₁ = some (.word name.text, c₁) := (steps' .bracket trivial).look
      exact (bind_of_some seen).trans ((bind_of_some advanced).trans
        ((bind_of_some second).trans splat))
  · rw [spelled]
    cases double <;> cases type <;> rfl
  · simp only [textOf_cons, List.length_append]
    omega

theorem Facing.param_eq (p : Parameter V) (clauses : Parser Unit)
    (h : Facing text c width offset (p.pieces ++ q :: rest))
    (inside : ∀ r ∈ p.pieces, Inside width r) (token : q.token ∈ [.symbol ",", .symbol ")"])
    (hk : p.pieces.length ≤ k) :
    ∃ read c', param (expression k) clauses .definition c = some (read, c') ∧
      (SourceText.ofChars text).param read = (p.entry lineOf).text ∧
      Facing text c' width (offset + (textOf p.pieces).length) (q :: rest) := by
  cases p with
  | named gap name type value => exact h.param_named clauses inside token hk
  | splat gap double inner name type => exact h.param_splat clauses inside token hk
  | keywordOnly gap =>
    obtain ⟨c₁, h₁, _, steps⟩ := h.next
    obtain ⟨_, _, _, steps'⟩ := h₁.next
    have seen : look .bracket c = some (.symbol "*", c) := (steps .bracket trivial).look
    obtain ⟨l, advanced, _⟩ := (steps .bracket trivial).advance
    have started : param (expression k) clauses .definition c = _ :=
      (bind_of_some seen).trans ((bind_of_some advanced).trans
        (bind_of_some (steps' .bracket trivial).look))
    refine ⟨.keywordOnly, c₁, started.trans ?_, rfl, h₁.at (by simp [Parameter.pieces])⟩
    simp only [List.mem_cons, List.not_mem_nil, or_false] at token
    rcases token with heq | heq <;>
    · rw [heq]
      rfl
  | positionalOnly gap =>
    obtain ⟨c₁, h₁, _, steps⟩ := h.next
    have seen : look .bracket c = some (.symbol "/", c) := (steps .bracket trivial).look
    obtain ⟨l, advanced, _⟩ := (steps .bracket trivial).advance
    refine ⟨.positionalOnly, c₁, ?_, rfl, h₁.at (by simp [Parameter.pieces])⟩
    exact (bind_of_some seen).trans ((bind_of_some advanced).trans rfl)

theorem Written.Parameter.opens (p : Parameter V) :
    ∃ r rs, p.pieces = r :: rs ∧ r.token ≠ .symbol ")" := by
  cases p with
  | named gap name type value => exact ⟨_, _, rfl, Token.noConfusion⟩
  | splat gap double inner name type =>
    refine ⟨_, _, rfl, ?_⟩
    cases double <;> simp [stars]
  | keywordOnly gap => exact ⟨_, _, rfl, by simp⟩
  | positionalOnly gap => exact ⟨_, _, rfl, by simp⟩

theorem Written.Listing.length_items_lt {α : Type} (l : Listing α) (f : α → List Printed)
    (some : ∀ a, f a ≠ []) : l.items.length < (l.pieces f).length := by
  induction l with
  | close gap => simp [items, pieces]
  | last item gap =>
    have := List.length_pos_iff.mpr (some item)
    simp [items, pieces]
    omega
  | more item comma others ih =>
    have := List.length_pos_iff.mpr (some item)
    simp [items, pieces]
    omega

/-- Items up to the closing parenthesis, one after the other. The reader of parameters and the
reader of arguments run alike; they differ in the reader of one item and in what stands for a line
continuation. -/
theorem Facing.listing_eq {α β : Type} {f : α → List Printed} {item : Parser β} {wrap : Span → β}
    {run : Nat → Parser (List β)} {shown : β → String} {written : α → String}
    (hrun : ∀ n, run (n + 1) = do
      let before := (← continuations).map wrap
      if ← acceptSymbol .bracket ")" then return before
      let p ← item
      let after := (← continuations).map wrap
      if ← acceptSymbol .bracket ")" then return before ++ p :: after
      expectSymbol .bracket ","
      return before ++ p :: (after ++ (← run n)))
    (opens : ∀ a, ∃ r rs, f a = r :: rs ∧ r.token ≠ .symbol ")")
    (hitem : ∀ a {c : Cursor} {offset : Nat} {q : Printed} {rest : List Printed},
      Facing text c width offset (f a ++ q :: rest) → (∀ p ∈ f a, Inside width p) →
      q.token ∈ [.symbol ",", .symbol ")"] → (f a).length ≤ k →
      ∃ read c', item c = some (read, c') ∧ shown read = written a ∧
        Facing text c' width (offset + (textOf (f a)).length) (q :: rest))
    (l : Listing α) {n : Nat} (hn : l.items.length < n)
    (h : Facing text c width offset (l.pieces f ++ rest))
      (inside : ∀ p ∈ l.pieces f, Inside width p)
    (hk : (l.pieces f).length ≤ k) :
    ∃ reads c', run n c = some (reads, c') ∧ reads.map shown = l.items.map written ∧
      Facing text c' width (offset + (textOf (l.pieces f)).length) rest := by
  have unclosed (a : α) {c : Cursor} {offset : Nat} {ps : List Printed}
      (h : Facing text c width offset (f a ++ ps)) : acceptSymbol .bracket ")" c =
        some (false, c) := by
    obtain ⟨r, rs, heq, other⟩ := opens a
    rw [heq] at h
    obtain ⟨_, _, _, steps⟩ := h.next
    exact (steps .bracket trivial).accept_other other
  obtain ⟨n, rfl⟩ : ∃ b, n = b + 1 := ⟨n - 1, by omega⟩
  induction l generalizing n c offset with
  | close gap =>
    obtain ⟨c₁, h₁, _, steps⟩ := h.next
    have closed : acceptSymbol .bracket ")" c = some (true, c₁) := (steps .bracket trivial).accept
    refine ⟨[], c₁, ?_, rfl, h₁.at (by simp [Listing.pieces])⟩
    rw [hrun]
    exact (bind_of_some h.continuations_eq).trans ((bind_of_some closed).trans rfl)
  | last a gap =>
    simp only [Listing.pieces, List.append_assoc, List.cons_append, List.nil_append,
      List.length_append] at h hk
    obtain ⟨read, c₁, first, spelled, h₁⟩ := hitem a h
      (fun r hr => inside r (List.mem_append_left _ hr)) (by simp) (Nat.le_of_add_right_le hk)
    obtain ⟨c₂, h₂, _, steps⟩ := h₁.next
    have closed : acceptSymbol .bracket ")" c₁ = some (true, c₂) := (steps .bracket trivial).accept
    refine ⟨[read], c₂, ?_, ?_, h₂.at ?_⟩
    · rw [hrun]
      exact (bind_of_some h.continuations_eq).trans ((bind_of_some (unclosed a h)).trans
        ((bind_of_some first).trans ((bind_of_some h₁.continuations_eq).trans
          ((bind_of_some closed).trans rfl))))
    · rw [List.map_singleton, spelled]
      rfl
    · simp only [Listing.pieces, textOf_append, textOf_cons, textOf_nil, List.append_nil,
        List.length_append]
      omega
  | more a comma others ih =>
    simp only [Listing.pieces, List.append_assoc, List.cons_append, List.length_append,
      List.length_cons] at h hk
    obtain ⟨insideFirst, insideOthers⟩ := List.forall_mem_append.mp inside
    obtain ⟨read, c₁, first, spelled, h₁⟩ :=
      hitem a h insideFirst (by simp) (Nat.le_of_add_right_le hk)
    obtain ⟨c₂, h₂, _, steps⟩ := h₁.next
    have continued : acceptSymbol .bracket ")" c₁ = some (false, c₁) :=
      (steps .bracket trivial).accept_other (by simp)
    have separated : expectSymbol .bracket "," c₁ = some ((), c₂) := (steps .bracket trivial).expect
    rw [Listing.items, List.length_cons] at hn
    obtain ⟨n, rfl⟩ : ∃ b, n = b + 1 := ⟨n - 1, by omega⟩
    obtain ⟨reads, c₃, ran, spelling, h₃⟩ :=
      ih h₂ (List.forall_mem_cons.mp insideOthers).2 (by omega) n (by omega)
    refine ⟨read :: reads, c₃, ?_, ?_, h₃.at ?_⟩
    · rw [hrun]
      exact (bind_of_some h.continuations_eq).trans ((bind_of_some (unclosed a h)).trans
        ((bind_of_some first).trans ((bind_of_some h₁.continuations_eq).trans
          ((bind_of_some continued).trans ((bind_of_some separated).trans
            ((bind_of_some ran).trans rfl))))))
    · rw [List.map_cons, spelled, spelling]
      rfl
    · simp only [Listing.pieces, textOf_append, textOf_cons, List.length_append]
      omega

theorem Facing.paramRun_eq (l : Listing (Parameter V)) (clauses : Parser Unit) {n : Nat}
    (hn : l.items.length < n) (h : Facing text c width offset (l.pieces Parameter.pieces ++ rest))
    (inside : ∀ p ∈ l.pieces Parameter.pieces, Inside width p)
    (hk : (l.pieces Parameter.pieces).length ≤ k) :
    ∃ read c', paramRun (expression k) clauses .definition n c = some (read, c') ∧
      read.map (SourceText.ofChars text).param = l.items.map (fun p => (p.entry lineOf).text) ∧
      Facing text c' width (offset + (textOf (l.pieces Parameter.pieces)).length) rest :=
  Facing.listing_eq (fun _ => rfl) Parameter.opens
    (fun p => Facing.param_eq p clauses) l hn h inside hk

/-! Arguments. -/

omit [Writable V] in
/-- A value that is an argument. The token behind a word decides whether it is a keyword. -/
theorem Facing.argument_base {ps : List Printed} (opens : Opens ps) (readable : Readable ps)
    (h : Facing text c width offset (ps ++ q :: rest)) (inside : ∀ p ∈ ps, Inside width p)
    (token : q.token ∈ [.symbol ",", .symbol ")"]) (hk : ps.length ≤ k) :
    ∃ e c', argument (expression k) c = some (.base e, c') ∧
      (SourceText.ofChars text).slice e.span = bodyOf ps ∧
      Facing text c' width (offset + (textOf ps).length) (q :: rest) := by
  have ends : q.token ∈ valueEnds := mem_of_among token
  obtain ⟨e, c₁, read, spelled, h₁⟩ :=
    readable .bracketed k h inside (by simp [Place.bracketed])
      (by simp [Place.bracketed]) trivial ends hk
  obtain ⟨p, ps, rfl, opener, _, single⟩ := opens
  obtain ⟨q', rest', split, other⟩ : ∃ q' rest', ps ++ q :: rest = q' :: rest' ∧
      q'.token ≠ .symbol "=" := by
    cases ps with
    | nil =>
      refine ⟨q, rest, rfl, fun equals => ?_⟩
      rw [equals] at token
      exact absurd token (by decide)
    | cons r ps => exact ⟨r, _, rfl, fun equals => single r rfl (equals ▸ List.mem_cons_self)⟩
  rw [List.cons_append, split] at h
  obtain ⟨c₂, h₂, _, steps⟩ := h.next
  obtain ⟨_, _, _, steps'⟩ := h₂.next
  have second := (steps .bracket trivial).lookSecond (steps' .bracket trivial).look
  have plain : (expression k .bracketed >>= fun e => pure (Argument.base e)) c =
      some (.base e, c₁) :=
    (bind_of_some read).trans rfl
  refine ⟨e, c₁, ?_, spelled, h₁⟩
  refine (bind_of_some (steps .bracket trivial).start).trans ?_
  refine (bind_of_some (steps .bracket trivial).look).trans ?_
  rcases opener with (⟨w, word, _⟩ | ⟨bare, string⟩ | other') | ⟨s, sign, symbol⟩
  · rw [word]
    refine (bind_of_some second).trans ?_
    rw [if_neg (by simp [other])]
    exact plain
  · rw [string]
    exact plain
  · simp only [List.mem_cons, List.not_mem_nil, or_false] at other'
    rcases other' with heq | heq | heq <;>
    · rw [heq]
      exact plain
  · simp only [signSymbols, List.mem_cons, List.not_mem_nil, or_false] at sign
    rw [symbol]
    rcases sign with rfl | rfl | rfl <;> exact plain

theorem Facing.argument_eq (a : Written.Argument V)
    (h : Facing text c width offset (a.pieces ++ q :: rest))
    (inside : ∀ p ∈ a.pieces, Inside width p) (token : q.token ∈ [.symbol ",", .symbol ")"])
    (hk : a.pieces.length ≤ k) :
    ∃ read c', argument (expression k) c = some (read, c') ∧
      (SourceText.ofChars text).oneLine read.span = oneLineOf a.pieces ∧
      Facing text c' width (offset + (textOf a.pieces).length) (q :: rest) := by
  have ends : q.token ∈ valueEnds := mem_of_among token
  cases a with
  | base value =>
    obtain ⟨e, c₁, read, spelled, h₁⟩ :=
      Facing.argument_base (Writable.opens value) (Writable.reads value) h inside token hk
    exact ⟨.base e, c₁, read, congrArg (fun cs => String.ofList (collapseChars cs)) spelled, h₁⟩
  | keyword gap name equals value =>
    simp only [Written.Argument.pieces, List.cons_append, List.length_cons, List.forall_mem_cons]
      at h inside hk ⊢
    have part := h.part _ (sign equals "=" :: Writable.pieces value)
    obtain ⟨_, _, insideValue⟩ := inside
    obtain ⟨c₁, h₁, _, steps⟩ := h.next
    obtain ⟨c₂, h₂, _, steps'⟩ := h₁.next
    have seen : look .bracket c = some (.word name.text, c) := (steps .bracket trivial).look
    have second : lookSecond .bracket .bracket c = some (.symbol "=", c) :=
      (steps .bracket trivial).lookSecond (steps' .bracket trivial).look
    obtain ⟨_, advanced, _⟩ := (steps .bracket trivial).advance
    obtain ⟨_, advanced', _⟩ := (steps' .bracket trivial).advance
    have room : (Writable.pieces value).length ≤ k := by omega
    obtain ⟨e, c₃, read, _, h₃⟩ :=
      Writable.reads value .inner k h₂ insideValue (by simp [Place.inner])
        (by simp [Place.inner]) trivial ends room
    have free : (Token.symbol "=" == .symbol "=" &&
        !(["lambda", "not"] ++ constants).contains name.text) = true := by
      have ordinary := name.ordinary
      simp only [keywords, List.mem_cons, not_or] at ordinary
      simp [constants, ordinary]
    have offset_eq : offset + (word gap name.text name.spelled).chars.length +
        (sign equals "=").chars.length + (textOf (Writable.pieces value)).length =
        offset + (textOf (word gap name.text name.spelled :: sign equals "=" ::
          Writable.pieces value)).length := by
      simp only [textOf_cons, List.length_append]
      omega
    rw [offset_eq] at h₃
    refine ⟨.keyword ⟨offset + (word gap name.text name.spelled).filler.chars.length, offset +
      (textOf (word gap name.text name.spelled :: sign equals "=" ::
        Writable.pieces value)).length⟩,
      c₃, ?_, congrArg (fun cs => String.ofList (collapseChars cs)) part, h₃⟩
    · refine (bind_of_some (steps .bracket trivial).start).trans ?_
      refine (bind_of_some seen).trans ?_
      refine (bind_of_some second).trans ?_
      rw [if_pos free]
      exact (bind_of_some advanced).trans ((bind_of_some advanced').trans ((bind_of_some read).trans
        ((bind_of_some h₃.lastStop_eq).trans rfl)))

theorem Written.Argument.opens (a : Written.Argument V) :
    ∃ r rs, a.pieces = r :: rs ∧ r.token ≠ .symbol ")" ∧ r.token ≠ .symbol "," := by
  cases a with
  | base value =>
    obtain ⟨p, ps, heq, opener, _⟩ := Writable.opens value
    exact ⟨p, ps, heq, opener.ne_symbol (by decide), opener.ne_symbol (by decide)⟩
  | keyword gap name equals value => exact ⟨_, _, rfl, by simp, by simp⟩

theorem Facing.argumentList_eq (l : Listing (Written.Argument V))
    (h : Facing text c width offset (l.pieces Written.Argument.pieces ++ rest))
    (inside : ∀ p ∈ l.pieces Written.Argument.pieces, Inside width p)
    (hk : (l.pieces Written.Argument.pieces).length ≤ k) :
    ∃ reads c', argumentList (expression k) c = some (reads, c') ∧
      reads.map (fun a => (SourceText.ofChars text).oneLine a.span) =
        l.items.map (fun a => oneLineOf a.pieces) ∧
      Facing text c' width (offset + (textOf (l.pieces Written.Argument.pieces)).length) rest := by
  have some (a : Written.Argument V) : a.pieces ≠ [] := by
    obtain ⟨r, rs, heq, _⟩ := a.opens
    rw [heq]
    exact List.cons_ne_nil r rs
  have enough : l.items.length < c.bound := by
    have items := l.length_items_lt Written.Argument.pieces some
    have room := h.room
    rw [List.length_append] at room
    omega
  have opens (a : Written.Argument V) : ∃ r rs, a.pieces = r :: rs ∧ r.token ≠ .symbol ")" := by
    obtain ⟨r, rs, heq, closing, _⟩ := a.opens
    exact ⟨r, rs, heq, closing⟩
  have first : acceptSymbol .bracket "," c = Option.some (false, c) := by
    obtain ⟨r, rs, heq, other⟩ : ∃ r rs, l.pieces Written.Argument.pieces = r :: rs ∧
        r.token ≠ .symbol "," := by
      cases l with
      | close gap => exact ⟨_, _, rfl, by simp⟩
      | last a gap =>
        obtain ⟨r, rs, heq, _, comma⟩ := a.opens
        exact ⟨r, _, by rw [Listing.pieces, heq]; rfl, comma⟩
      | more a gap others =>
        obtain ⟨r, rs, heq, _, comma⟩ := a.opens
        exact ⟨r, _, by rw [Listing.pieces, heq]; rfl, comma⟩
    rw [heq] at h
    obtain ⟨_, _, _, steps⟩ := h.next
    exact (steps .bracket trivial).accept_other other
  have ran : ∃ reads c', arguments (expression k) c.bound c = Option.some (reads, c') ∧
      reads.map (fun a => (SourceText.ofChars text).oneLine a.span) =
        l.items.map (fun a => oneLineOf a.pieces) ∧
      Facing text c' width (offset + (textOf (l.pieces Written.Argument.pieces)).length) rest :=
    Facing.listing_eq (fun _ => rfl) opens (fun a => Facing.argument_eq a) l enough h inside hk
  obtain ⟨reads, c₁, run, spelled, h₁⟩ := ran
  exact ⟨reads, c₁, (bind_of_some first).trans ((bind_of_some (bound_eq c)).trans run), spelled, h₁⟩

/-! Headers. -/

/-- The words that a function starts with. -/
theorem Facing.opener_eq (f : Function V) (lead : Filler) {ps : List Printed}
    (h : Facing text c width offset (f.opener lead ++ ps)) :
    ∃ c₁ c₂, acceptWord .bracket "async" c = some (f.async.isSome, c₁) ∧
      expectWord (if f.async.isSome then .line else .bracket) "def" c₁ = some ((), c₂) ∧
      Facing text c₂ width (offset + (textOf (f.opener lead)).length) ps := by
  rw [Function.opener] at h ⊢
  cases async : f.async with
  | none =>
    rw [async] at h
    obtain ⟨c₁, h₁, _, steps⟩ := h.next
    refine ⟨c, c₁, (steps .bracket trivial).accept_other (by simp), (steps .bracket trivial).expect,
      h₁.at ?_⟩
    simp
  | some space =>
    rw [async] at h
    obtain ⟨c₁, h₁, _, steps⟩ := h.next
    obtain ⟨c₂, h₂, _, steps'⟩ := h₁.next
    refine ⟨c₁, c₂, (steps .bracket trivial).accept, (steps' .line ⟨rfl, space.tight⟩).expect,
      h₂.at ?_⟩
    simp
    omega

/-- The type of a result, before the colon of the header. -/
theorem Facing.returns_eq (returns : Option (Filler × V)) {gap : Filler}
    (h : Facing text c width offset (signed "->" (by decide) returns ++ sign gap ":" :: rest))
    (inside : ∀ p ∈ signed "->" (by decide) returns, Inside width p)
    (insideColon : Inside width (sign gap ":"))
    (hk : (signed "->" (by decide) returns).length ≤ k) :
    ∃ read c', (∀ {β : Type} (f : Option Span → Parser β), (do
        if ← acceptSymbol .unfinished "->" then
          let returns ← pure
            (some (← typeText (expression k) (← bound) false .unfinished .unfinished))
          f returns
        else
          let returns ← pure none
          f returns) c = f read c') ∧
      read.map (SourceText.ofChars text).oneLine = returns.map (fun r => lineOf r.2) ∧
      Facing text c' width (offset + (textOf (signed "->" (by decide) returns)).length)
        (sign gap ":" :: rest) := by
  cases returns with
  | none =>
    obtain ⟨_, _, _, steps⟩ := h.next
    have absent : acceptSymbol .unfinished "->" c = some (false, c) :=
      (steps .unfinished insideColon).accept_other (by simp)
    exact ⟨none, c, fun f => (bind_of_some absent).trans rfl, rfl, h⟩
  | some returns =>
    obtain ⟨first, others⟩ := List.forall_mem_cons.mp inside
    obtain ⟨c₁, h₁, _, steps⟩ := h.next
    have arrow : acceptSymbol .unfinished "->" c = some (true, c₁) :=
      (steps .unfinished first).accept
    obtain ⟨b, bound⟩ := h₁.bound_succ
    obtain ⟨span, c₂, read, spelled, h₂⟩ :=
      h₁.typeText_eq (Writable.opens returns.2).no_stars
        (Writable.reads returns.2) false .unfinished
      .unfinished b (by simp) (by simp) others insideColon (by simp [typeEnds]) (by simp)
      (Nat.le_of_succ_le hk)
    refine ⟨some span, c₂, ?_, ?_, h₂.at ?_⟩
    · intro β f
      refine (bind_of_some arrow).trans ?_
      rw [if_pos rfl, bind_of_some (bound_eq c₁), bound, bind_of_some read]
      rfl
    · rw [Option.map_some, Option.map_some, SourceText.oneLine, spelled]
      rfl
    · rw [signed, textOf_cons, List.length_append, Nat.add_assoc]

omit [Writable V] in
/-- The type parameters behind a name, if there are any. -/
theorem Facing.typeParameters_eq {T : Type} [Generic T] (t : Option T)
    (h : Facing text c width offset (typesOf t ++ q :: rest))
    (inside : ∀ p ∈ typesOf t, Inside width p) (shows : Inside width q)
    (other : q.token ≠ .symbol "[") (hk : (typesOf t).length ≤ k) :
    ∃ read c', typeParameters (expression k) c = some (read, c') ∧
      (read.map (SourceText.ofChars text).oneLine).getD "" = oneLineOf (typesOf t) ∧
      Facing text c' width (offset + (textOf (typesOf t)).length) (q :: rest) := by
  cases t with
  | none =>
    obtain ⟨_, _, _, steps⟩ := h.next
    refine ⟨none, c, ?_, rfl, h⟩
    rw [typeParameters, bind_of_some (steps .unfinished shows).look, if_neg (by simpa using other)]
    rfl
  | some t =>
    obtain ⟨span, c₁, read, spelled, h₁⟩ := Generic.reads t k h inside hk
    exact ⟨some span, c₁, read, congrArg (fun cs => String.ofList (collapseChars cs)) spelled, h₁⟩

theorem Facing.functionHeader_eq (f : Function V) (lead : Filler) (o : Opening)
    (h : Facing text c width offset (f.pieces lead ++ rest))
    (inside : ∀ p ∈ f.pieces lead, Inside width p) (hk : (f.pieces lead).length ≤ k) :
    ∃ header c', functionHeader (expression k) o .bracket c = some (header, c') ∧
      header.kind = .function ∧
      (SourceText.ofChars text).signature header = f.signature ∧
      Facing text c' width (offset + (textOf (f.pieces lead)).length) rest := by
  simp only [Function.pieces, List.append_assoc, List.cons_append, List.nil_append,
    List.length_append, List.length_cons, List.length_nil, List.forall_mem_append,
      List.forall_mem_cons] at h inside hk
  obtain ⟨_, insideName, insideTypes, insideOpening, insideParams, insideReturns, insideColon, _⟩ :=
    inside
  obtain ⟨c₁, c₂, async, def', h₂⟩ := h.opener_eq f lead
  obtain ⟨c₃', h₃', _, steps₃⟩ := h₂.next
  have named := (steps₃ .unfinished insideName).identifier
  have roomTypes : (typesOf f.types).length ≤ k := by omega
  obtain ⟨types, c₃, typed, spelledTypes, h₃⟩ :=
    h₃'.typeParameters_eq f.types insideTypes insideOpening (by simp) roomTypes
  obtain ⟨c₄, h₄, _, steps₄⟩ := h₃.next
  have opened : expectSymbol .unfinished "(" c₃ = some ((), c₄) :=
    (steps₄ .unfinished insideOpening).expect
  have roomParams : (f.params.pieces Parameter.pieces).length ≤ k := by omega
  have roomReturns : (signed "->" (by decide) f.returns).length ≤ k := by omega
  have enough : f.params.items.length < c₄.bound := by
    have items := f.params.length_items_lt Parameter.pieces fun p => by
      obtain ⟨r, rs, heq, _⟩ := p.opens
      rw [heq]
      exact List.cons_ne_nil r rs
    have room := h₄.room
    rw [List.length_append] at room
    omega
  obtain ⟨params, c₅, run, spelledParams, h₅⟩ :=
    h₄.paramRun_eq f.params (clauses (expression k) c₄.bound) enough insideParams roomParams
  obtain ⟨returns, c₆, returned, spelledReturns, h₆⟩ :=
    h₅.returns_eq f.returns insideReturns insideColon roomReturns
  obtain ⟨c₇, h₇, _, steps₇⟩ := h₆.next
  have closed : colon c₆ = some ((), c₇) := (steps₇ .unfinished insideColon).expect
  have listed : Python.params (expression k) .definition c₄ = some (params, c₅) :=
    (bind_of_some (bound_eq c₄)).trans run
  have started : functionHeader (expression k) o .bracket c = _ :=
    (bind_of_some async).trans ((bind_of_some def').trans ((bind_of_some named).trans
      ((bind_of_some typed).trans ((bind_of_some opened).trans ((bind_of_some listed).trans
        ((returned _).trans ((bind_of_some h₆.lastStop_eq).trans (bind_of_some closed))))))))
  refine ⟨_, c₇, started.trans rfl, rfl, ?_, h₇.at ?_⟩
  · have entries : (f.params.items.map (Parameter.entry lineOf)).map Entry.text =
        f.params.items.map fun p => (p.entry lineOf).text := List.map_map
    simp only [SourceText.signature, SourceText.functionSignature, SourceText.typeParams,
      Function.signature, Heading.front, Heading.back, Function.heading, entries, spelledParams,
      spelledTypes]
    cases hr : f.returns <;> cases returns <;>
      simp only [hr, Option.map_none, Option.map_some, Option.some.injEq, reduceCtorEq]
        at spelledReturns
    all_goals
      simp only [spelledReturns, Option.map_none, Option.map_some, Option.elim_none,
        Option.elim_some, String.append_empty, String.append_assoc]
      rfl
  · simp only [Function.pieces, textOf_append, textOf_cons, textOf_nil, List.append_nil,
      List.length_append]
    omega

theorem Facing.classHeader_eq (d : Class V) (lead : Filler) (o : Opening)
    (h : Facing text c width offset (d.header lead ++ rest))
    (inside : ∀ p ∈ d.header lead, Inside width p) (hk : (d.header lead).length ≤ k) :
    ∃ header c', classHeader (expression k) o .bracket c = some (header, c') ∧
      header.kind = .classDef ∧
      (SourceText.ofChars text).signature header = d.signature ∧
      Facing text c' width (offset + (textOf (d.header lead)).length) rest := by
  simp only [Class.header, List.append_assoc, List.cons_append, List.nil_append, List.length_append,
    List.length_cons, List.length_nil, List.forall_mem_append, List.forall_mem_cons] at h inside hk
  obtain ⟨_, insideName, insideTypes, insideArguments, insideColon, _⟩ := inside
  obtain ⟨c₁, h₁, _, steps⟩ := h.next
  have started : expectWord .bracket "class" c = some ((), c₁) := (steps .bracket trivial).expect
  obtain ⟨c₂', h₂', _, steps₁⟩ := h₁.next
  have named := (steps₁ .unfinished insideName).identifier
  have roomTypes : (typesOf d.types).length ≤ k := by omega
  cases arguments : d.arguments with
  | none =>
    rw [arguments] at h₂'
    obtain ⟨types, c₂, typed, spelledTypes, h₂⟩ :=
      h₂'.typeParameters_eq d.types insideTypes insideColon (by simp) roomTypes
    obtain ⟨c₃, h₃, _, steps₂⟩ := h₂.next
    have unopened : acceptSymbol .unfinished "(" c₂ = some (false, c₂) :=
      (steps₂ .unfinished insideColon).accept_other (by simp)
    have closed : colon c₂ = some ((), c₃) := (steps₂ .unfinished insideColon).expect
    have none : (pure [] : Parser (List Argument)) c₂ = some ([], c₂) := rfl
    have whole : classHeader (expression k) o .bracket c = _ :=
      (bind_of_some started).trans ((bind_of_some named).trans ((bind_of_some typed).trans
        ((bind_of_some unopened).trans ((bind_of_some none).trans
          ((bind_of_some h₂.lastStop_eq).trans (bind_of_some closed))))))
    refine ⟨_, c₃, whole.trans rfl, rfl, ?_, h₃.at ?_⟩
    · simp [SourceText.signature, SourceText.classSignature, SourceText.typeParams, Class.signature,
        arguments, spelledTypes]
    · simp [Class.header, arguments]
      omega
  | some list =>
    rw [arguments] at h₂' hk insideArguments
    obtain ⟨insideOpening, insideArguments⟩ := List.forall_mem_cons.mp insideArguments
    obtain ⟨types, c₂, typed, spelledTypes, h₂⟩ :=
      h₂'.typeParameters_eq d.types insideTypes insideOpening (by simp) roomTypes
    obtain ⟨c₃, h₃, _, steps₂⟩ := h₂.next
    have opened : acceptSymbol .unfinished "(" c₂ = some (true, c₃) :=
      (steps₂ .unfinished insideOpening).accept
    have room : (list.2.pieces Written.Argument.pieces).length ≤ k := by
      rw [Option.elim_some, List.length_cons] at hk
      omega
    obtain ⟨reads, c₄, listed, spelled, h₄⟩ := Facing.argumentList_eq list.2 h₃ insideArguments room
    obtain ⟨c₅, h₅, _, steps₃⟩ := h₄.next
    have closed : colon c₄ = some ((), c₅) := (steps₃ .unfinished insideColon).expect
    have whole : classHeader (expression k) o .bracket c = _ :=
      (bind_of_some started).trans ((bind_of_some named).trans ((bind_of_some typed).trans
        ((bind_of_some opened).trans ((bind_of_some listed).trans
          ((bind_of_some h₄.lastStop_eq).trans (bind_of_some closed))))))
    refine ⟨_, c₅, whole.trans rfl, rfl, ?_, h₅.at ?_⟩
    · simp [SourceText.signature, SourceText.classSignature, SourceText.typeParams, Class.signature,
        arguments, spelled, spelledTypes]
    · simp [Class.header, arguments]
      omega

end

end RepoAtlas.Python
