import RepoAtlas.Proofs.Python.Operands

/-!
Type parameters behind the name of a definition, and the two kinds of values that headers are
written with: values of any form, and values of one token.
-/
namespace RepoAtlas.Python
open RepoAtlas.Text Written

namespace Written

inductive TypeParameter where
  | plain (type : Phrase)
  | bounded (type : Phrase) (colon : Filler) (bound : Phrase)
  | splat (gap : Filler) (double : Bool) (inner : Filler) (name : Name)

namespace TypeParameter

def pieces : TypeParameter → List Printed
  | .plain type => type.pieces
  | .bounded type colon bound => type.pieces ++ sign colon ":" colon_mem :: bound.pieces
  | .splat gap double inner name =>
    [stars gap double, word inner name.text name.spelled]

theorem coded (t : TypeParameter) : Coded t.pieces := by
  cases t with
  | plain type => exact type.coded
  | bounded type colon bound =>
    exact List.forall_mem_append.mpr ⟨type.coded, List.forall_mem_cons.mpr ⟨rfl, bound.coded⟩⟩
  | splat gap double inner name =>
    refine List.forall_mem_cons.mpr ⟨?_, List.forall_mem_singleton.mpr rfl⟩
    cases double <;> rfl

theorem fits (t : TypeParameter) : FitsBefore t.pieces := by
  intro next ends
  cases t with
  | plain type => exact type.fits ends
  | bounded type colon bound =>
    have bounds : Fitting [] (sign colon ":" :: bound.pieces) next :=
      fitting_sign (by decide) bound.opens.plain (bound.fits ends)
    exact fitting_append (type.fits (ends_sign (by decide))) bounds
  | splat gap double inner name =>
    have named : Fitting [] [word inner name.text name.spelled] next := fitting_word ends rfl
    cases double with
    | true => exact fitting_sign (by decide) plain_word named
    | false => exact fitting_sign (by decide) plain_word named

theorem unclosed (t : TypeParameter) :
    ∃ p ps, t.pieces = p :: ps ∧ p.token ≠ .symbol Bracket.square.closing := by
  cases t with
  | plain type => exact type.unclosed .square
  | bounded type colon bound =>
    obtain ⟨p, ps, heq, other⟩ := type.unclosed .square
    exact ⟨p, ps ++ sign colon ":" :: bound.pieces, by rw [pieces, heq]; rfl, other⟩
  | splat gap double inner name =>
    refine ⟨_, _, rfl, ?_⟩
    cases double <;> simp [stars, Bracket.closing]

end TypeParameter

structure TypeParameters where
  gap : Filler
  first : TypeParameter
  others : Following TypeParameter

namespace TypeParameters

def pieces (t : TypeParameters) : List Printed :=
  enclosed TypeParameter.pieces .square t.gap t.first t.others

theorem opens (t : TypeParameters) : ∃ gap rest, t.pieces = sign gap "[" :: rest :=
  ⟨_, _, rfl⟩

theorem coded (t : TypeParameters) : Coded t.pieces :=
  coded_enclosed .square t.gap t.first.coded fun t _ => t.coded

theorem fitting (t : TypeParameters) {next : List Char} : Fitting [] t.pieces next :=
  fitting_enclosed .square t.gap t.first.fits fun t _ => t.fits

end TypeParameters

end Written

section
variable {text : List Char} {c : Cursor} {width offset : Nat} {q : Printed} {rest : List Printed}
  {k : Nat}

/-- A name behind a star is an expression. -/
theorem readable_star (gap inner : Filler) (name : Name) :
    Readable [sign gap "*", word inner name.text name.spelled] := by
  intro text c width offset q rest place n h inside hfirst hrest shows ends hn
  have part := h.part _ [word inner name.text name.spelled]
  obtain ⟨n, rfl⟩ : ∃ m, n = m + 1 := ⟨n - 1, (Nat.succ_pred_eq_of_pos (Nat.lt_of_succ_lt hn)).symm⟩
  obtain ⟨insideStar, insideName⟩ := List.forall_mem_cons.mp inside
  have insideName := insideName _ List.mem_cons_self
  obtain ⟨c₁, h₁, _, steps⟩ := h.next
  have shown := steps place.first (insideStar.shows hfirst)
  have seen : look place.first c = some (.symbol "*", c) := shown.look
  obtain ⟨l, advanced, _, span⟩ := shown.advance
  obtain ⟨c₂, named, h₂⟩ := h₁.primary_eq (expression n) (clauses (expression n) c.bound)
    .unfinished place.rest (.inl ⟨_, rfl⟩) (insideName.shows (by simp)) shows ends
  rw [name.term_eq] at named
  obtain ⟨_, _, _, steps₂⟩ := h₂.next
  obtain ⟨b, bound⟩ := h.bound_succ
  obtain ⟨b₂, bound₂⟩ := h₂.bound_succ
  have spread : operand (expression n) place true place.first (b + 1) c = _ :=
    (bind_of_some shown.start).trans ((bind_of_some seen).trans ((bind_of_some (bound_eq c)).trans
      ((bind_of_some advanced).trans ((bind_of_some named).trans
        ((bind_of_some h₂.lastStop_eq).trans rfl)))))
  rw [← bound] at spread
  have ended : operators (expression n) place c₂.bound c₂ = some (false, c₂) := by
    rw [bound₂]
    exact operators_end (steps₂ place.rest shows).look ends b₂
  have stop : offset + (sign gap "*").chars.length +
      (word inner name.text name.spelled).chars.length =
      offset + (textOf [sign gap "*", word inner name.text name.spelled]).length := by
    simp [Nat.add_assoc]
  refine ⟨_, c₂, (bind_of_some shown.start).trans ((bind_of_some (bound_eq c)).trans
    ((bind_of_some spread).trans ((bind_of_some (bound_eq c₂)).trans
      ((bind_of_some ended).trans rfl)))), ?_, h₂.at stop⟩
  rw [Expr.span, span, stop]
  exact part

/-- A name behind two stars is a type. -/
theorem Facing.typeText_stars {gap inner : Filler} {name : Name} (first : Mode) (n : Nat)
    (hfirst : first ≠ .line)
    (h : Facing text c width offset
      (sign gap "**" :: word inner name.text name.spelled :: q :: rest))
    (inside : Inside width (sign gap "**")) (insideName : Inside width
      (word inner name.text name.spelled)) (token : q.token ∈ [.symbol ",", .symbol "]"]) :
    ∃ span c', typeText (expression k) (n + 1) true first .bracket c = some (span, c') ∧
      Facing text c' width
        (offset + (textOf [sign gap "**", word inner name.text name.spelled]).length)
        (q :: rest) := by
  obtain ⟨c₁, h₁, _, steps⟩ := h.next
  obtain ⟨c₂, h₂, _, steps₁⟩ := h₁.next
  obtain ⟨_, _, _, steps₂⟩ := h₂.next
  obtain ⟨b, bound⟩ := h₂.bound_succ
  have shown := steps first (inside.shows hfirst)
  have stars : acceptSymbol first "**" c = some (true, c₁) := shown.accept
  have named := (steps₁ .unfinished insideName).identifier
  have noColon : q.token ≠ .symbol ":" := by
    intro colon
    rw [colon] at token
    exact absurd token (by decide)
  have ended (type : Parser Span) : typeRest type true .bracket c₂.bound c₂ = some ((), c₂) := by
    rw [bound]
    exact typeRest_end (steps₂ .bracket trivial).look (mem_of_among token) (fun _ => noColon) b
  refine ⟨_, c₂, (bind_of_some shown.start).trans ((bind_of_some stars).trans
    ((bind_of_some named).trans ((bind_of_some (bound_eq c₂)).trans ((bind_of_some (ended _)).trans
      ((bind_of_some h₂.lastStop_eq).trans rfl))))), h₂.at ?_⟩
  simp [Nat.add_assoc]

/-- A type with its bound. -/
theorem Facing.typeText_bounded {type bound : Phrase} {colon : Filler} (first : Mode) (n : Nat)
    (hfirst : first ≠ .line)
    (h : Facing text c width offset (type.pieces ++ sign colon ":" :: (bound.pieces ++ q :: rest)))
    (insideType : ∀ p ∈ type.pieces, Inside width p)
    (insideBound : ∀ p ∈ bound.pieces, Inside width p)
    (token : q.token ∈ [.symbol ",", .symbol "]"]) (hk : type.pieces.length ≤ k)
    (hk' : bound.pieces.length ≤ k) :
    ∃ span c', typeText (expression k) (n + 2) true first .bracket c = some (span, c') ∧
      Facing text c' width
        (offset + (textOf (type.pieces ++ sign colon ":" :: bound.pieces)).length)
        (q :: rest) := by
  obtain ⟨c₁, h₁, started⟩ := h.typeText_value type.opens.no_stars type.readable true
    first .bracket (n + 1) hfirst (by simp) insideType trivial (by simp [valueEnds]) hk
  obtain ⟨b, enough⟩ := h₁.bound_succ
  obtain ⟨c₂, h₂, _, steps⟩ := h₁.next
  have seen : look .bracket c₁ = some (.symbol ":", c₁) := (steps .bracket trivial).look
  obtain ⟨l, advanced, _⟩ := (steps .bracket trivial).advance
  have noColon : q.token ≠ .symbol ":" := by
    intro colon
    rw [colon] at token
    exact absurd token (by decide)
  obtain ⟨span, c₃, read, _, h₃⟩ := h₂.typeText_eq bound.opens.no_stars bound.readable
    true .unfinished .bracket n (by simp) (by simp) insideBound trivial (mem_of_among token)
    (fun _ => noColon) hk'
  have bounded : typeRest (typeText (expression k) (n + 1) true .unfinished .bracket) true .bracket
      c₁.bound c₁ = some ((), c₃) := by
    rw [enough]
    exact (bind_of_some seen).trans ((bind_of_some advanced).trans ((bind_of_some read).trans rfl))
  refine ⟨_, c₃, started.trans ((bind_of_some bounded).trans
    ((bind_of_some h₃.lastStop_eq).trans rfl)), h₃.at ?_⟩
  simp only [textOf_append, textOf_cons, List.length_append]
  omega

/-- A type parameter is read as a type. A bound is a second type in the first. -/
theorem Facing.typeParameter_eq (t : TypeParameter) (first : Mode) (n : Nat)
    (hfirst : first ≠ .line) (h : Facing text c width offset (t.pieces ++ q :: rest))
    (inside : ∀ p ∈ t.pieces, Inside width p) (token : q.token ∈ [.symbol ",", .symbol "]"])
    (hk : t.pieces.length ≤ k) :
    ∃ span c', typeText (expression k) (n + 2) true first .bracket c = some (span, c') ∧
      Facing text c' width (offset + (textOf t.pieces).length) (q :: rest) := by
  have noColon : q.token ≠ .symbol ":" := by
    intro colon
    rw [colon] at token
    exact absurd token (by decide)
  cases t with
  | plain type =>
    obtain ⟨span, c₁, read, _, h₁⟩ := Facing.typeText_eq type.opens.no_stars
      type.readable true first .bracket (n + 1) hfirst (by simp) h inside trivial
      (mem_of_among token) (fun _ => noColon) hk
    exact ⟨span, c₁, read, h₁⟩
  | bounded type colon bound =>
    simp only [TypeParameter.pieces, List.append_assoc, List.cons_append, List.length_append,
      List.length_cons, List.forall_mem_append, List.forall_mem_cons] at h inside hk
    obtain ⟨insideType, _, insideBound⟩ := inside
    exact h.typeText_bounded first n hfirst insideType insideBound token (by omega) (by omega)
  | splat gap double inner name =>
    obtain ⟨insideStars, insideName⟩ := List.forall_mem_cons.mp inside
    have insideName := insideName _ List.mem_cons_self
    cases double with
    | true => exact Facing.typeText_stars first (n + 1) hfirst h insideStars insideName token
    | false =>
      obtain ⟨span, c₁, read, _, h₁⟩ := Facing.typeText_eq ⟨_, _, rfl, by simp⟩
        (readable_star gap inner name) true first .bracket (n + 1) hfirst (by simp) h inside trivial
        (mem_of_among token) (fun _ => noColon) hk
      exact ⟨span, c₁, read, h₁⟩

theorem Written.TypeParameters.readable (t : TypeParameters) : ReadableTypes t.pieces := by
  intro text c width offset rest n h inside hn
  have slice := h.slice_eq (List.cons_ne_nil _ _)
  simp only [TypeParameters.pieces, enclosed, List.cons_append, List.append_assoc,
    List.length_cons, List.length_append] at h inside hn
  obtain ⟨insideOpening, insideRest⟩ := List.forall_mem_cons.mp inside
  obtain ⟨insideFirst, insideOthers⟩ := List.forall_mem_append.mp insideRest
  have roomFirst : t.first.pieces.length ≤ n := by omega
  have roomOthers : (t.others.pieces TypeParameter.pieces .square).length ≤ n := by omega
  obtain ⟨c₁, h₁, _, steps⟩ := h.next
  have shown := steps .unfinished insideOpening
  have seen : look .unfinished c = some (.symbol "[", c) := shown.look
  obtain ⟨l, advanced, _, span⟩ := shown.advance
  obtain ⟨q, qs, heq, token⟩ := t.others.head_eq TypeParameter.pieces .square
  have room := h₁.room
  obtain ⟨p, ps, starts, _⟩ := t.first.unclosed
  have enough : 2 ≤ c₁.bound ∧
      (t.others.pieces TypeParameter.pieces .square).length ≤ c₁.bound := by
    simp only [starts, heq, List.cons_append, List.length_append, List.length_cons] at room ⊢
    omega
  obtain ⟨b, bound⟩ : ∃ b, c₁.bound = b + 2 := ⟨c₁.bound - 2, by omega⟩
  have before := h₁
  rw [heq, List.cons_append] at before
  obtain ⟨type, c₂, read, h₂⟩ :=
    before.typeParameter_eq (k := n) t.first .unfinished b (by simp) insideFirst token roomFirst
  rw [← List.cons_append, ← heq] at h₂
  obtain ⟨types, c₃, ran, h₃⟩ := Facing.moreItems_eq
    (typeText (expression n) (b + 2) true .bracket .bracket) .square t.others
    (fun t _ => t.unclosed) (fun t _ _ _ _ _ h inside token hk =>
      h.typeParameter_eq t .bracket b (by simp) inside token hk)
    h₂ insideOthers roomOthers enough.2
  rw [offset_enclosed] at h₃
  rw [← bound] at read ran
  refine ⟨partOf offset t.pieces, c₃, ?_, slice, h₃⟩
  have started : typeParameters (expression n) c = _ :=
    (bind_of_some seen).trans ((bind_of_some advanced).trans ((bind_of_some (bound_eq c₁)).trans
      ((bind_of_some read).trans ((bind_of_some ran).trans
        ((bind_of_some h₃.lastStop_eq).trans rfl)))))
  rw [started, span]
  rfl

end

/-! What headers are written with. -/

namespace Written

instance : Generic TypeParameters where
  pieces := TypeParameters.pieces
  opens := TypeParameters.opens
  code := TypeParameters.coded
  fitting := TypeParameters.fitting
  reads := TypeParameters.readable

instance : Writable Phrase where
  pieces := Phrase.pieces
  opens := Phrase.opens
  code := Phrase.coded
  fitting p := p.fits
  reads p := p.readable
  Types := TypeParameters
  generic := inferInstance

structure Atom where
  gap : Filler
  term : Term

namespace Atom

def text (a : Atom) : String := a.term.text

def phrase (a : Atom) : Phrase := .last [] (.term a.gap a.term)

theorem pieces_phrase (a : Atom) : a.phrase.pieces = [a.term.piece a.gap] := by
  rw [phrase, Phrase.pieces, Operand.pieces]
  rfl

end Atom

instance : Writable Atom where
  pieces a := a.phrase.pieces
  opens a := a.phrase.opens
  code a := a.phrase.coded
  fitting a := a.phrase.fits
  reads a := a.phrase.readable
  Types := Empty
  generic := inferInstance

theorem Term.not_isBlank (t : Term) : ∀ c ∈ t.text.toList, isBlank c = false := by
  cases t with
  | word text spelled free => exact not_isBlank_of_isIdentifier spelled
  | number n =>
    intro c hc
    rw [text, String.toList_ofList] at hc
    exact not_isBlank_of (by decide +kernel) (n.isNumberChar_of_mem hc)

/-- A value of one token is its own text. -/
theorem lineOf_atom (a : Atom) : lineOf a = a.text := by
  have chars : bodyOf a.phrase.pieces = a.term.text.toList := by
    rw [a.pieces_phrase, bodyOf, textOf_nil, List.append_nil]
    cases a.term with
    | word text spelled free => rfl
    | number n => exact String.toList_ofList.symm
  change String.ofList (collapseChars (bodyOf a.phrase.pieces)) = a.term.text
  rw [chars, collapseChars_free a.term.not_isBlank, String.ofList_toList]

end Written

end RepoAtlas.Python
