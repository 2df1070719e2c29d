import RepoAtlas.Proofs.Python.TypeParameters

/-!
Headers without their comments. A comment gives way to the line break that ends it; all other tokens
and all white space stay, and so does the place of every line in its block.
-/
namespace RepoAtlas.Python
open RepoAtlas.Text Written

/-! Taking comments away. -/

def Fill.isComment : Fill → Bool
  | .blank _ _ => false
  | .comment _ _ => true

/-- A comment gives way to the line break that ends it. -/
def Fill.bare : Fill → Fill
  | .blank c white => .blank c white
  | .comment _ _ => .lineBreak

def Filler.bare (f : Filler) : Filler := f.map Fill.bare

def Printed.bare (p : Printed) : Printed := ⟨p.filler.bare, p.spelling⟩

theorem Filler.bare_ne_nil {f : Filler} (h : f ≠ []) : f.bare ≠ [] := by
  rw [bare, ne_eq, List.map_eq_nil_iff]
  exact h

theorem Filler.bare_of_silent {f : Filler} (h : ∀ x ∈ f, x.isComment = false) : f.bare = f := by
  induction f with
  | nil => rfl
  | cons x f ih =>
    obtain ⟨silent, others⟩ := List.forall_mem_cons.mp h
    cases x with
    | blank c white => exact congrArg (.blank c white :: ·) (ih others)
    | comment text line => cases silent

theorem columnAfter_append (n : Nat) (cs ds : List Char) :
    columnAfter n (cs ++ ds) = columnAfter (columnAfter n cs) ds := by
  induction cs generalizing n with
  | nil => rfl
  | cons c cs ih => exact ih _

/-- Without comments there is one run of white space, which leads to the column of the last one. -/
theorem Filler.runs_bare (f : Filler) (r r' : List Char)
    (column : columnAfter 0 r = columnAfter 0 r') (breaks : '\n' ∈ r → '\n' ∈ r') :
    ∃ run, f.bare.runs r = [run] ∧ ∃ last ∈ f.runs r', columnAfter 0 run = columnAfter 0 last ∧
      ('\n' ∈ run → '\n' ∈ last) := by
  induction f generalizing r r' with
  | nil => exact ⟨r, rfl, r', List.mem_singleton_self r', column, breaks⟩
  | cons x f ih =>
    cases x with
    | blank c white =>
      refine ih (r ++ [c]) (r' ++ [c]) ?_ ?_
      · rw [columnAfter_append, columnAfter_append, column]
      · intro h
        rcases List.mem_append.mp h with h | h
        · exact List.mem_append_left _ (breaks h)
        · exact List.mem_append_right _ h
    | comment text line =>
      obtain ⟨run, runs, last, mem, same, broken⟩ :=
        ih (r ++ ['\n']) ['\n'] (by rw [columnAfter_append]; rfl)
          (fun _ => List.mem_singleton_self _)
      exact ⟨run, runs, last, List.mem_cons_of_mem _ mem, same, broken⟩

theorem Filler.Within.bare {width : Nat} {f : Filler} (h : f.Within width) :
    f.bare.Within width := by
  obtain ⟨run, runs, last, mem, column, breaks⟩ := f.runs_bare [] [] rfl id
  intro run' hrun
  rw [runs, List.mem_singleton] at hrun
  subst hrun
  intro broken
  rw [column]
  exact h last mem (breaks broken)

/-- A comment cuts white space in two. -/
theorem Filler.length_runs {f : Filler} {x : Fill} (hx : x ∈ f) (comment : x.isComment = true)
    (r : List Char) :
    1 < (f.runs r).length := by
  have some (f : Filler) (r : List Char) : 0 < (f.runs r).length := by
    fun_induction Filler.runs r f with
    | case1 => exact Nat.one_pos
    | case2 _ _ _ _ ih => exact ih
    | case3 => exact Nat.succ_pos _
  induction f generalizing r with
  | nil => cases hx
  | cons y f ih =>
    cases y with
    | blank c white =>
      rcases List.mem_cons.mp hx with rfl | hx
      · cases comment
      · exact ih hx _
    | comment text line => exact Nat.succ_lt_succ (some f ['\n'])

/-- There is no comment in white space on one line. -/
theorem Filler.Tight.bare_eq {f : Filler} (h : f.Tight) : f.bare = f := by
  obtain ⟨run, runs, _⟩ := h
  refine Filler.bare_of_silent fun x hx => ?_
  by_contra comment
  have several := Filler.length_runs hx (Bool.not_eq_false _ ▸ comment) []
  rw [runs, List.length_singleton] at several
  exact Nat.lt_irrefl 1 several

theorem bare_lineStart (width : Nat) : (lineStart width).bare = lineStart width := by
  rw [lineStart, Filler.bare, List.map_cons, List.map_replicate]
  rfl

namespace Written

def Member.bare (m : Member) : Member := ⟨m.dot.bare, m.gap.bare, m.name⟩

def Sign.bare (s : Sign) : Sign := { s with gap := s.gap.bare }

def Operator.bare (o : Operator) : Operator := { o with gap := o.gap.bare }

mutual

def Operand.bare : Operand → Operand
  | .term gap t => .term gap.bare t
  | .text gap l => .text gap.bare l
  | .dotted gap name members => .dotted gap.bare name (members.map Member.bare)
  | .display b gap first others => .display b gap.bare first.bare others.bare
  | .applied b object opening first others =>
    .applied b object.bare opening.bare first.bare others.bare

def Phrase.bare : Phrase → Phrase
  | .last signs operand => .last (signs.map Sign.bare) operand.bare
  | .more signs operand operator others =>
    .more (signs.map Sign.bare) operand.bare operator.bare others.bare

def Phrases.bare : Phrases → Phrases
  | .close gap => .close gap.bare
  | .comma gap closing => .comma gap.bare closing.bare
  | .more gap next others => .more gap.bare next.bare others.bare

end

theorem pieces_bare_members (members : List Member) :
    (members.map Member.bare).flatMap Member.pieces =
      (members.flatMap Member.pieces).map Printed.bare := by
  induction members with
  | nil => rfl
  | cons m members ih =>
    rw [List.map_cons, List.flatMap_cons, List.flatMap_cons, List.map_append, ih]
    rfl

theorem pieces_bare_signs (signs : List Sign) :
    (signs.map Sign.bare).map Sign.piece = (signs.map Sign.piece).map Printed.bare := by
  rw [List.map_map, List.map_map]
  rfl

mutual

theorem Operand.pieces_bare : ∀ o : Operand, o.bare.pieces = o.pieces.map Printed.bare
  | .term gap t => by
    rw [Operand.bare, Operand.pieces, Operand.pieces]
    rfl
  | .text gap l => by
    rw [Operand.bare, Operand.pieces, Operand.pieces]
    rfl
  | .dotted gap name members => by
    rw [Operand.bare, Operand.pieces, Operand.pieces, List.map_cons, ← pieces_bare_members]
    rfl
  | .display b gap first others => by
    rw [Operand.bare, Operand.pieces, Operand.pieces, List.map_cons, List.map_append,
      first.pieces_bare, others.pieces_bare b]
    rfl
  | .applied b object opening first others => by
    rw [Operand.bare, Operand.pieces, Operand.pieces, List.map_append, List.map_cons,
      List.map_append, object.pieces_bare, first.pieces_bare, others.pieces_bare b]
    rfl

theorem Phrase.pieces_bare : ∀ p : Phrase, p.bare.pieces = p.pieces.map Printed.bare
  | .last signs operand => by
    rw [Phrase.bare, Phrase.pieces, Phrase.pieces, List.map_append, pieces_bare_signs,
      operand.pieces_bare]
  | .more signs operand operator others => by
    rw [Phrase.bare, Phrase.pieces, Phrase.pieces, List.map_append, List.map_append, List.map_cons,
      pieces_bare_signs, operand.pieces_bare, others.pieces_bare]
    rfl

theorem Phrases.pieces_bare (b : Bracket) :
    ∀ ps : Phrases, ps.bare.pieces b = (ps.pieces b).map Printed.bare
  | .close gap => by
    rw [Phrases.bare, Phrases.pieces, Phrases.pieces]
    rfl
  | .comma gap closing => by
    rw [Phrases.bare, Phrases.pieces, Phrases.pieces]
    rfl
  | .more gap next others => by
    rw [Phrases.bare, Phrases.pieces, Phrases.pieces, List.map_cons, List.map_append,
      next.pieces_bare, others.pieces_bare b]
    rfl

end

/-! Type parameters. -/

def TypeParameter.bare : TypeParameter → TypeParameter
  | .plain type => .plain type.bare
  | .bounded type colon bound => .bounded type.bare colon.bare bound.bare
  | .splat gap double inner name => .splat gap.bare double inner.bare name

def Following.bare {α : Type} (f : α → α) : Following α → Following α
  | .close gap => .close gap.bare
  | .comma gap closing => .comma gap.bare closing.bare
  | .more gap next others => .more gap.bare (f next) (others.bare f)

def TypeParameters.bare (t : TypeParameters) : TypeParameters :=
  ⟨t.gap.bare, t.first.bare, t.others.bare TypeParameter.bare⟩

theorem TypeParameter.pieces_bare (t : TypeParameter) :
    t.bare.pieces = t.pieces.map Printed.bare := by
  cases t with
  | plain type => exact type.pieces_bare
  | bounded type colon bound =>
    rw [bare, pieces, pieces, List.map_append, List.map_cons, type.pieces_bare, bound.pieces_bare]
    rfl
  | splat gap double inner name => cases double <;> rfl

theorem Following.pieces_bare {α : Type} {f : α → List Printed} {g : α → α}
    (hg : ∀ a, f (g a) = (f a).map Printed.bare) (b : Bracket) (l : Following α) :
    (l.bare g).pieces f b = (l.pieces f b).map Printed.bare := by
  induction l with
  | close gap => rfl
  | comma gap closing => rfl
  | more gap next others ih =>
    rw [Following.bare, Following.pieces, Following.pieces, List.map_cons, List.map_append, hg, ih]
    rfl

theorem TypeParameters.pieces_bare (t : TypeParameters) :
    t.bare.pieces = t.pieces.map Printed.bare := by
  rw [pieces, pieces, enclosed, enclosed, List.map_cons, List.map_append, ← t.first.pieces_bare,
    ← t.others.pieces_bare TypeParameter.pieces_bare]
  rfl

def bareTypes (t : Option (Writable.Types Phrase)) : Option (Writable.Types Phrase) :=
  t.map TypeParameters.bare

theorem typesOf_bare (t : Option (Writable.Types Phrase)) :
    typesOf (bareTypes t) = (typesOf t).map Printed.bare := by
  cases t with
  | none => rfl
  | some t => exact TypeParameters.pieces_bare t

/-! Headers. -/

def bareValue (v : Filler × Phrase) : Filler × Phrase := (v.1.bare, v.2.bare)

def Parameter.bare : Parameter Phrase → Parameter Phrase
  | .named gap name type value => .named gap.bare name (type.map bareValue) (value.map bareValue)
  | .splat gap double inner name type => .splat gap.bare double inner.bare name (type.map bareValue)
  | .keywordOnly gap => .keywordOnly gap.bare
  | .positionalOnly gap => .positionalOnly gap.bare

def Argument.bare : Argument Phrase → Argument Phrase
  | .base value => .base value.bare
  | .keyword gap name equals value => .keyword gap.bare name equals.bare value.bare

def Listing.bare {α : Type} (f : α → α) : Listing α → Listing α
  | .close gap => .close gap.bare
  | .last item gap => .last (f item) gap.bare
  | .more item comma others => .more (f item) comma.bare (others.bare f)

/-- Between `async` and `def` there can be no comment. -/
def Function.bare (f : Function Phrase) : Function Phrase where
  async := f.async
  gap := f.gap.bare
  apart := Filler.bare_ne_nil f.apart
  name := f.name
  types := bareTypes f.types
  opening := f.opening.bare
  params := f.params.bare Parameter.bare
  returns := f.returns.map bareValue
  colon := f.colon.bare

theorem pieces_bare_signed {s : String} (h : s ∈ Spelling.plainSymbols)
    (v : Option (Filler × Phrase)) :
    signed s h (v.map bareValue) = (signed s h v).map Printed.bare := by
  cases v with
  | none => rfl
  | some v =>
    change sign v.1.bare s h :: v.2.bare.pieces = _
    rw [v.2.pieces_bare]
    rfl

theorem Parameter.pieces_bare (p : Parameter Phrase) :
    p.bare.pieces = p.pieces.map Printed.bare := by
  cases p with
  | named gap name type value =>
    simp only [Parameter.bare, Parameter.pieces, pieces_bare_signed, List.map_cons, List.map_append]
    rfl
  | splat gap double inner name type =>
    simp only [Parameter.bare, Parameter.pieces, pieces_bare_signed, List.map_cons]
    cases double <;> rfl
  | keywordOnly gap => rfl
  | positionalOnly gap => rfl

theorem Argument.pieces_bare (a : Argument Phrase) : a.bare.pieces = a.pieces.map Printed.bare := by
  cases a with
  | base value => exact value.pieces_bare
  | keyword gap name equals value =>
    change word gap.bare name.text name.spelled :: sign equals.bare "=" :: value.bare.pieces = _
    rw [value.pieces_bare]
    rfl

theorem Listing.pieces_bare {α : Type} {f : α → List Printed} {g : α → α}
    (hg : ∀ a, f (g a) = (f a).map Printed.bare) (l : Listing α) :
    (l.bare g).pieces f = (l.pieces f).map Printed.bare := by
  induction l with
  | close gap => rfl
  | last item gap =>
    rw [Listing.bare, Listing.pieces, Listing.pieces, List.map_append, hg]
    rfl
  | more item comma others ih =>
    rw [Listing.bare, Listing.pieces, Listing.pieces, List.map_append, List.map_cons, hg, ih]
    rfl

theorem Function.pieces_bare (lead : Filler) (f : Function Phrase) :
    f.bare.pieces lead.bare = (f.pieces lead).map Printed.bare := by
  have opener : f.bare.opener lead.bare = (f.opener lead).map Printed.bare := by
    cases async : f.async with
    | none =>
      simp only [Function.opener, Function.bare, async]
      rfl
    | some space =>
      simp only [Function.opener, Function.bare, async]
      exact congrArg (fun gap => [word lead.bare "async", word gap "def"]) space.tight.bare_eq.symm
  rw [Function.pieces, Function.pieces, opener, List.map_append, List.map_cons, List.map_append,
    List.map_cons, List.map_append, List.map_append, ← typesOf_bare,
    ← Listing.pieces_bare Parameter.pieces_bare, ← pieces_bare_signed]
  rfl

theorem Function.whole_bare (lead : Filler) (f : Function Phrase) :
    f.bare.whole lead.bare = (f.whole lead).map Printed.bare := by
  rw [Function.whole, Function.whole, f.pieces_bare, List.map_append]
  rfl

theorem Function.within_bare {width : Nat} {f : Function Phrase}
    (h : ∀ p ∈ f.pieces [], p.filler.Within width) :
    ∀ p ∈ f.bare.pieces [], p.filler.Within width := by
  intro p hp
  rw [show ([] : Filler) = Filler.bare [] from rfl, f.pieces_bare] at hp
  obtain ⟨q, hq, rfl⟩ := List.mem_map.mp hp
  exact (h q hq).bare

def Methods.bare : Methods Phrase → Methods Phrase
  | .idle => .idle
  | .block width positive first more inside =>
    .block width positive first.bare (more.map Function.bare) (by
      intro f hf
      rw [← List.map_cons] at hf
      obtain ⟨g, hg, rfl⟩ := List.mem_map.mp hf
      exact Function.within_bare (inside g hg))

def Class.bare (c : Class Phrase) : Class Phrase where
  gap := c.gap.bare
  apart := Filler.bare_ne_nil c.apart
  name := c.name
  types := bareTypes c.types
  arguments := c.arguments.map fun a => (a.1.bare, a.2.bare Argument.bare)
  colon := c.colon.bare
  methods := c.methods.bare

def Definition.bare : Definition Phrase → Definition Phrase
  | .function f => .function f.bare
  | .classDef c => .classDef c.bare

/-! Files. -/

theorem Listing.items_bare {α : Type} (f : α → α) (l : Listing α) :
    (l.bare f).items = l.items.map f := by
  induction l with
  | close gap => rfl
  | last item gap => rfl
  | more item comma others ih => exact congrArg (f item :: ·) ih

theorem Methods.functions_bare (m : Methods Phrase) :
    m.bare.functions = m.functions.map Function.bare := by
  cases m <;> rfl

theorem stacked_bare {α : Type} {f : Filler → α → List Printed} {g : α → α}
    (hg : ∀ lead a, f lead.bare (g a) = (f lead a).map Printed.bare) (width : Nat) (lead : Filler)
    (as : List α) :
    stacked f width lead.bare (as.map g) = (stacked f width lead as).map Printed.bare := by
  induction as generalizing lead with
  | nil => rfl
  | cons a as ih =>
    have others := ih (lineStart width)
    rw [bare_lineStart] at others
    rw [List.map_cons, stacked, stacked, List.map_append, hg, others]

theorem Class.header_bare (lead : Filler) (c : Class Phrase) :
    c.bare.header lead.bare = (c.header lead).map Printed.bare := by
  rw [Class.header, Class.header, Class.bare]
  cases c.arguments with
  | none =>
    simp only [Option.map_none, Option.elim_none, List.map_cons, List.map_append, typesOf_bare]
    rfl
  | some list =>
    simp only [Option.map_some, Option.elim_some, List.map_cons, List.map_append, typesOf_bare,
      Listing.pieces_bare Argument.pieces_bare]
    rfl

theorem Methods.pieces_bare (m : Methods Phrase) : m.bare.pieces = m.pieces.map Printed.bare := by
  cases m with
  | idle => rfl
  | block width positive first more inside =>
    have whole := stacked_bare Function.whole_bare width (lineStart width) (first :: more)
    rw [bare_lineStart] at whole
    exact whole

theorem Definition.pieces_bare (lead : Filler) (d : Definition Phrase) :
    d.bare.pieces lead.bare = (d.pieces lead).map Printed.bare := by
  cases d with
  | function f => exact f.whole_bare lead
  | classDef c =>
    rw [Definition.bare, Definition.pieces, Definition.pieces, c.header_bare, List.map_append]
    exact congrArg _ c.methods.pieces_bare

/-- A file without comments has the tokens of the file, each with the comments before it taken
away. -/
theorem tokensOf_bare (ds : List (Definition Phrase)) :
    tokensOf (ds.map Definition.bare) = (tokensOf ds).map Printed.bare :=
  stacked_bare Definition.pieces_bare 0 [] ds

end Written

end RepoAtlas.Python
