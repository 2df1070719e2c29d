import Mathlib.Tactic.Common
import RepoAtlas.Python.Statement

/-!
Readers only go forward. Whatever a reader of the grammar does, its cursor ends up behind lexemes
that it took from the front of those that were left, and it stops where the last of them stops.
Readers that are put together from such readers are of this kind, so instances find it out from the
definitions.
-/
namespace RepoAtlas.Python

def endAfter (offset : Nat) (ls : List Lexeme) : Nat := ls.foldl (fun _ l => l.span.stop) offset

namespace Cursor

/-- One cursor comes from another by taking lexemes. -/
def Leads (c c' : Cursor) : Prop :=
  ∃ taken, c.rest = taken ++ c'.rest ∧ c'.stop = endAfter c.stop taken

def Passes (c c' : Cursor) : Prop :=
  ∃ taken, taken ≠ [] ∧ c.rest = taken ++ c'.rest ∧ c'.stop = endAfter c.stop taken

variable {a b c : Cursor}

theorem Leads.refl (c : Cursor) : c.Leads c := ⟨[], rfl, rfl⟩

theorem Leads.trans (h : a.Leads b) (h' : b.Leads c) : a.Leads c := by
  obtain ⟨xs, hx, sx⟩ := h
  obtain ⟨ys, hy, sy⟩ := h'
  refine ⟨xs ++ ys, by rw [hx, hy, List.append_assoc], ?_⟩
  rw [sy, sx, endAfter, endAfter, endAfter, List.foldl_append]

theorem Passes.leads (h : a.Passes b) : a.Leads b := by
  obtain ⟨taken, _, heq, stop⟩ := h
  exact ⟨taken, heq, stop⟩

theorem Leads.passes (h : a.Leads b) (h' : b.Passes c) : a.Passes c := by
  obtain ⟨xs, hx, sx⟩ := h
  obtain ⟨ys, some, hy, sy⟩ := h'
  refine ⟨xs ++ ys, by simp [some], by rw [hx, hy, List.append_assoc], ?_⟩
  rw [sy, sx, endAfter, endAfter, endAfter, List.foldl_append]

theorem Passes.trans (h : a.Passes b) (h' : b.Leads c) : a.Passes c := by
  obtain ⟨xs, some, hx, sx⟩ := h
  obtain ⟨ys, hy, sy⟩ := h'
  refine ⟨xs ++ ys, by simp [some], by rw [hx, hy, List.append_assoc], ?_⟩
  rw [sy, sx, endAfter, endAfter, endAfter, List.foldl_append]

/-- Taking the lexeme behind others. -/
theorem passes_of_suffix {c c' : Cursor} {l : Lexeme} (suffix : l :: c'.rest <:+ c.rest)
    (stop : c'.stop = l.span.stop) : c.Passes c' := by
  obtain ⟨skipped, heq⟩ := suffix
  refine ⟨skipped ++ [l], by simp, by simp [← heq], ?_⟩
  rw [stop, endAfter, List.foldl_append]
  rfl

end Cursor

theorem view_suffix {m : Mode} {width : Nat} {ls rest : List Lexeme} {t : Token}
    (h : view m width ls = some (t, rest)) : rest <:+ ls := by
  induction ls with
  | nil =>
    cases h
    exact List.suffix_refl _
  | cons l ls ih =>
    have here {t' : Token} (heq : some (t', l :: ls) = some (t, rest)) : rest <:+ l :: ls := by
      cases heq
      exact List.suffix_refl _
    have later (heq : view m width ls = some (t, rest)) : rest <:+ l :: ls :=
      (ih heq).trans (List.suffix_cons l ls)
    cases m with
    | line =>
      rw [view] at h
      split at h
      · exact here h
      · split at h
        · exact later h
        · exact here h
    | bracket =>
      rw [view] at h
      split at h
      · exact later h
      · exact here h
    | unfinished =>
      rw [view] at h
      split at h
      · cases h
      · split at h
        · exact later h
        · exact here h

theorem advance_passes {m : Mode} {c c' : Cursor} {l : Lexeme} (h : advance m c = some (l, c')) :
    c.Passes c' := by
  rw [advance] at h
  split at h
  · rename_i t next rest hview
    split at h
    · cases h
    · cases h
      exact Cursor.passes_of_suffix (view_suffix hview) rfl
  · cases h

/-- A reader that only goes forward. -/
class Steady {α : Type} (p : Parser α) : Prop where
  leads : ∀ {c a c'}, p c = some (a, c') → c.Leads c'

section
variable {α β : Type}

theorem bind_eq_some {p : Parser α} {f : α → Parser β} {c c' : Cursor} {b : β}
    (h : (p >>= f) c = some (b, c')) :
    ∃ a next, p c = some (a, next) ∧ f a next = some (b, c') := by
  obtain ⟨⟨a, next⟩, ha, hb⟩ := Option.bind_eq_some_iff.mp h
  exact ⟨a, next, ha, hb⟩

instance pure_steady (a : α) : Steady (pure a : Parser α) where
  leads h := by
    cases h
    exact .refl _

instance failure_steady : Steady (failure : Parser α) where
  leads h := by cases h

instance bind_steady (p : Parser α) (f : α → Parser β) [hp : Steady p] [hf : ∀ a, Steady (f a)] :
    Steady (p >>= f) where
  leads h := by
    obtain ⟨a, next, ha, hb⟩ := bind_eq_some h
    exact (hp.leads ha).trans ((hf a).leads hb)

instance ite_steady {c : Prop} [Decidable c] (p q : Parser α) [hp : Steady p] [hq : Steady q] :
    Steady (if c then p else q) := by
  split
  · exact hp
  · exact hq

instance orElse_steady (p q : Parser α) [hp : Steady p] [hq : Steady q] : Steady (p <|> q) where
  leads {c a c'} h := by
    cases hc : p c with
    | none =>
      have second : q c = some (a, c') := by
        simpa [HOrElse.hOrElse, OrElse.orElse, Alternative.orElse, StateT.orElse, hc] using h
      exact hq.leads second
    | some r =>
      have first : some r = some (a, c') := by
        simpa [HOrElse.hOrElse, OrElse.orElse, Alternative.orElse, StateT.orElse, hc] using h
      exact hp.leads (hc.trans first)

instance get_steady : Steady (get : Parser Cursor) where
  leads h := by
    cases h
    exact .refl _

/-- What is read first goes forward, and so does whatever follows. -/
theorem steady_bind {p : Parser α} {f : α → Parser β} [Steady p] (hf : ∀ a, Steady (f a)) :
    Steady (p >>= f) := inferInstance

end

/-! Reading lexemes. -/

instance look_steady (m : Mode) : Steady (look m) where
  leads h := by
    obtain ⟨_, _, heq⟩ := Option.map_eq_some_iff.mp h
    cases heq
    exact .refl _

instance startOffset_steady (m : Mode) : Steady (startOffset m) where
  leads h := by
    rw [startOffset] at h
    split at h
    · cases h
      exact .refl _
    · cases h

instance advance_steady (m : Mode) : Steady (advance m) where
  leads h := (advance_passes h).leads

instance lookSecond_steady (first second : Mode) : Steady (lookSecond first second) where
  leads h := by
    obtain ⟨c, _, hget, h⟩ := bind_eq_some h
    cases hget
    obtain ⟨_, _, _, h⟩ := bind_eq_some h
    obtain ⟨_, _, _, h⟩ := bind_eq_some h
    cases h
    exact .refl _

instance accept_steady (m : Mode) (t : Token) : Steady (accept m t) := by
  unfold accept
  infer_instance

instance expect_steady (m : Mode) (t : Token) : Steady (expect m t) := by
  unfold expect
  infer_instance

instance acceptSymbol_steady (m : Mode) (s : String) : Steady (acceptSymbol m s) := accept_steady ..

instance expectSymbol_steady (m : Mode) (s : String) : Steady (expectSymbol m s) := expect_steady ..

instance acceptWord_steady (m : Mode) (w : String) : Steady (acceptWord m w) := accept_steady ..

instance expectWord_steady (m : Mode) (w : String) : Steady (expectWord m w) := expect_steady ..

instance identifier_steady (m : Mode) : Steady (identifier m) := by
  refine steady_bind fun t => ?_
  split <;> infer_instance

instance continuations_steady : Steady continuations := by
  unfold continuations
  infer_instance

instance bound_steady : Steady bound := by
  unfold bound
  infer_instance

instance lastStop_steady : Steady lastStop := by
  unfold lastStop
  infer_instance

instance moreItems_steady {α : Type} (item : Parser α) [Steady item] (close : String) (n : Nat) :
    Steady (moreItems item close n) := by
  induction n with
  | zero => exact failure_steady
  | succ n ih =>
    unfold moreItems
    infer_instance

/-! Expressions, as long as nested ones are read so. -/

section
variable {nested : Nested} [∀ p, Steady (nested p)]

instance openItems_steady (rest : Mode) (n : Nat) : Steady (openItems nested rest n) := by
  induction n with
  | zero => exact failure_steady
  | succ n ih =>
    unfold openItems
    infer_instance

instance items_steady (p : Place) : Steady (items nested p) := by
  unfold items
  infer_instance

instance yieldRest_steady (rest : Mode) : Steady (yieldRest nested rest) := by
  unfold yieldRest
  infer_instance

instance fieldSpec_steady (inner : Parser Unit) [Steady inner] (n : Nat) :
    Steady (fieldSpec inner n) := by
  induction n with
  | zero => exact failure_steady
  | succ n ih =>
    unfold fieldSpec
    infer_instance

instance field_steady (n : Nat) : Steady (field nested n) := by
  induction n with
  | zero => exact failure_steady
  | succ n ih =>
    refine steady_bind fun yields => ?_
    extract_lets close rest
    have last : ∀ u, Steady (rest u) := fun _ => inferInstance
    clear_value rest
    infer_instance

instance formatRest_steady (n : Nat) : Steady (formatRest nested n) := by
  induction n with
  | zero => exact failure_steady
  | succ n ih =>
    unfold formatRest
    infer_instance

instance literal_steady (first : Mode) : Steady (literal nested first) := by
  refine steady_bind fun l => ?_
  split <;> infer_instance

instance moreLiterals_steady (rest : Mode) (n : Nat) : Steady (moreLiterals nested rest n) := by
  induction n with
  | zero => exact failure_steady
  | succ n ih =>
    refine steady_bind fun t => ?_
    split <;> infer_instance

instance literals_steady (first rest : Mode) : Steady (literals nested first rest) := by
  refine steady_bind fun s => steady_bind fun n => steady_bind fun more => ?_
  split <;> infer_instance

instance element_steady : Steady (element nested) := by
  unfold element
  infer_instance

instance atClause_steady : Steady atClause := by
  refine steady_bind fun t => ?_
  split <;> infer_instance

instance iterables_steady (n : Nat) : Steady (iterables nested n) := by
  induction n with
  | zero => exact failure_steady
  | succ n ih =>
    unfold iterables
    infer_instance

instance subscriptItem_steady (first : Mode) : Steady (subscriptItem nested first) := by
  refine steady_bind fun t => ?_
  extract_lets step rest
  have first : ∀ u, Steady (step u) := fun _ => inferInstance
  clear_value step
  have last : ∀ u, Steady (rest u) := fun _ => inferInstance
  clear_value rest
  infer_instance

instance argument_steady : Steady (argument nested) := by
  refine steady_bind fun start => steady_bind fun t => ?_
  split <;> infer_instance

instance arguments_steady (n : Nat) : Steady (arguments nested n) := by
  induction n with
  | zero => exact failure_steady
  | succ n ih =>
    unfold arguments
    infer_instance

instance argumentList_steady : Steady (argumentList nested) := by
  unfold argumentList
  infer_instance

section
variable {clauses : Parser Unit} [Steady clauses]

instance callRest_steady : Steady (suffixes.callRest nested clauses) := by
  refine steady_bind fun empty => ?_
  split
  · infer_instance
  · refine steady_bind fun comma => ?_
    split
    · infer_instance
    · refine steady_bind fun a => steady_bind fun comprehension => ?_
      split <;> infer_instance

instance suffixes_steady (rest : Mode) (start n : Nat) (e : Expr) :
    Steady (suffixes nested clauses rest start n e) := by
  induction n generalizing e with
  | zero => exact failure_steady
  | succ n ih =>
    refine steady_bind fun t => ?_
    split <;> infer_instance

instance collect_steady (close : String) : Steady (collect nested clauses close) := by
  unfold collect
  infer_instance

instance parenthesized_steady (first : Mode) : Steady (parenthesized nested clauses first) := by
  refine steady_bind fun opening => steady_bind fun gaps => steady_bind fun empty => ?_
  split
  · infer_instance
  · refine steady_bind fun e => steady_bind fun more => ?_
    split <;> infer_instance

instance listDisplay_steady (first : Mode) : Steady (listDisplay nested clauses first) := by
  refine steady_bind fun opening => steady_bind fun empty => ?_
  split
  · infer_instance
  · refine steady_bind fun e => steady_bind fun more => ?_
    split <;> infer_instance

instance entry_steady : Steady (entry nested) := by
  unfold entry
  infer_instance

instance braced_steady (first : Mode) : Steady (braced nested clauses first) := by
  refine steady_bind fun opening => ?_
  extract_lets close whole
  have last : ∀ u, Steady (whole u) := fun _ => inferInstance
  clear_value whole
  refine steady_bind fun empty => ?_
  split
  · exact last ()
  · refine steady_bind fun comma => ?_
    split
    · infer_instance
    · refine steady_bind fun t => ?_
      split
      · infer_instance
      · refine steady_bind fun first => steady_bind fun paired => ?_
        extract_lets item rest
        have more : ∀ u, Steady (rest u) := fun _ => inferInstance
        clear_value rest
        infer_instance

instance atom_steady (first rest : Mode) : Steady (atom nested clauses first rest) := by
  refine steady_bind fun t => ?_
  split <;> infer_instance

instance primary_steady (first rest : Mode) : Steady (primary nested clauses first rest) := by
  unfold primary
  infer_instance

instance spread_steady (first rest : Mode) : Steady (spread nested clauses first rest) := by
  unfold spread
  infer_instance

instance target_steady : Steady (target nested clauses) := by
  unfold target
  infer_instance

instance targetRun_steady (n : Nat) : Steady (targetRun nested clauses n) := by
  induction n with
  | zero => exact failure_steady
  | succ n ih =>
    unfold targetRun
    infer_instance

end

instance clauseRun_steady (targets : Parser Unit) [Steady targets] (n : Nat) :
    Steady (clauseRun nested targets n) := by
  induction n with
  | zero => exact failure_steady
  | succ n ih =>
    refine steady_bind fun more => ?_
    split
    · exact steady_bind fun async => steady_bind fun _ => inferInstance
    · infer_instance

instance clauses_steady (n : Nat) : Steady (clauses nested n) := by
  induction n with
  | zero => exact failure_steady
  | succ n ih =>
    unfold clauses
    infer_instance

instance targets_steady : Steady (targets nested) := by
  unfold targets
  infer_instance

instance genericType_steady (type : Mode → Parser Span) [∀ m, Steady (type m)] (first : Mode) :
    Steady (genericType type first) := by
  unfold genericType
  infer_instance

instance typeRest_steady (type : Parser Span) [Steady type] (bounded : Bool) (rest : Mode)
    (n : Nat) :
    Steady (typeRest type bounded rest n) := by
  induction n with
  | zero => exact failure_steady
  | succ n ih =>
    refine steady_bind fun t => ?_
    split <;> infer_instance

instance typeText_steady (n : Nat) (bounded : Bool) (first rest : Mode) :
    Steady (typeText nested n bounded first rest) := by
  induction n generalizing bounded first rest with
  | zero => exact failure_steady
  | succ n ih =>
    refine steady_bind fun start => steady_bind fun stars => ?_
    extract_lets more
    have last : ∀ u, Steady (more u) := fun _ => inferInstance
    clear_value more
    infer_instance

instance typeParameters_steady : Steady (typeParameters nested) := by
  unfold typeParameters
  infer_instance

instance paramType_steady (style : ParamStyle) : Steady (paramType nested style) := by
  unfold paramType
  infer_instance

instance paramDefault_steady (style : ParamStyle) : Steady (paramDefault nested style) := by
  unfold paramDefault
  infer_instance

section
variable {clauses : Parser Unit} [Steady clauses]

instance splatParam_steady (style : ParamStyle) (stars : Nat) :
    Steady (splatParam nested clauses style stars) := by
  refine steady_bind fun gaps => steady_bind fun e => ?_
  extract_lets gap rest
  have last : ∀ u, Steady (rest u) := by
    intro u
    refine steady_bind fun type => ?_
    split <;> infer_instance
  clear_value rest
  infer_instance

instance param_steady (style : ParamStyle) : Steady (param nested clauses style) := by
  refine steady_bind fun t => ?_
  split
  · infer_instance
  · infer_instance
  · infer_instance
  · refine steady_bind fun e => ?_
    extract_lets rest
    have last : ∀ u, Steady (rest u) := by
      intro u
      refine steady_bind fun value => ?_
      split <;> infer_instance
    clear_value rest
    infer_instance
  · refine steady_bind fun name => steady_bind fun type => steady_bind fun value => ?_
    split <;> infer_instance
  · infer_instance

instance paramRun_steady (style : ParamStyle) (n : Nat) :
    Steady (paramRun nested clauses style n) := by
  induction n with
  | zero => exact failure_steady
  | succ n ih =>
    unfold paramRun
    infer_instance

end

instance params_steady (style : ParamStyle) : Steady (params nested style) := by
  unfold params
  infer_instance

instance operand_steady (p : Place) (full : Bool) (first : Mode) (n : Nat) :
    Steady (operand nested p full first n) := by
  induction n generalizing full first with
  | zero => exact failure_steady
  | succ n ih =>
    refine steady_bind fun start => ?_
    extract_lets plain whole
    have plainly : Steady plain := inferInstance
    have wholly : Steady whole := inferInstance
    clear_value plain whole
    refine steady_bind fun t => ?_
    split <;> infer_instance

instance operators_steady (p : Place) (n : Nat) : Steady (operators nested p n) := by
  induction n with
  | zero => exact failure_steady
  | succ n ih =>
    unfold operators
    extract_lets next
    have last : ∀ full, Steady (next full) := fun _ => inferInstance
    clear_value next
    refine steady_bind fun t => ?_
    split <;> infer_instance

end

instance expression_steady (n : Nat) (p : Place) : Steady (expression n p) := by
  induction n generalizing p with
  | zero => exact failure_steady
  | succ n ih =>
    unfold expression
    infer_instance

/-! Statements of one line. -/

instance members_steady (rest : Mode) (n : Nat) : Steady (dottedName.members rest n) := by
  induction n with
  | zero => exact failure_steady
  | succ n ih =>
    unfold dottedName.members
    infer_instance

instance dottedName_steady (first rest : Mode) : Steady (dottedName first rest) := by
  unfold dottedName
  infer_instance

instance importItem_steady (first rest : Mode) : Steady (importItem first rest) := by
  unfold importItem
  infer_instance

instance importLine_steady (first : Mode) (n : Nat) : Steady (importLine first n) := by
  induction n generalizing first with
  | zero => exact failure_steady
  | succ n ih =>
    unfold importLine
    infer_instance

instance importList_steady : Steady importList := by
  unfold importList
  infer_instance

instance importDots_steady (n : Nat) : Steady (importDots n) := by
  induction n with
  | zero => exact failure_steady
  | succ n ih =>
    unfold importDots
    infer_instance

instance importFrom_steady : Steady importFrom := by
  refine steady_bind fun _ => steady_bind fun future => ?_
  split
  · infer_instance
  · refine steady_bind fun start => steady_bind fun t => ?_
    extract_lets fromDots
    have dotted : ∀ dots, Steady (fromDots dots) := by
      intro dots
      refine steady_bind fun t => ?_
      extract_lets fromSource
      have sourced : ∀ source, Steady (fromSource source) := fun _ => inferInstance
      clear_value fromSource
      infer_instance
    clear_value fromDots
    infer_instance

section
variable {nested : Nested} [∀ p, Steady (nested p)]

instance strictItems_steady (n : Nat) : Steady (strictItems nested n) := by
  induction n with
  | zero => exact failure_steady
  | succ n ih =>
    unfold strictItems
    infer_instance

instance nameList_steady (n : Nat) : Steady (nameList n) := by
  induction n with
  | zero => exact failure_steady
  | succ n ih =>
    unfold nameList
    infer_instance

instance chain_steady (n : Nat) (first : Mode) : Steady (chain nested n first) := by
  induction n generalizing first with
  | zero => exact failure_steady
  | succ n ih =>
    refine steady_bind fun yields => ?_
    split
    · infer_instance
    · refine steady_bind fun left => ?_
      extract_lets needTargets
      have needed : Steady needTargets := inferInstance
      clear_value needTargets
      refine steady_bind fun t => ?_
      split <;> infer_instance

instance chainStatement_steady : Steady (chainStatement nested) := by
  refine steady_bind fun start => steady_bind fun n => steady_bind fun chain => ?_
  split
  · split <;> infer_instance
  · infer_instance
  · infer_instance

instance typeAlias_steady : Steady (typeAlias nested) := by
  unfold typeAlias
  infer_instance

instance simpleStatement_steady : Steady (simpleStatement nested) := by
  refine steady_bind fun t => ?_
  split
  case h_6 =>
    refine steady_bind fun _ => steady_bind fun t => ?_
    extract_lets done rest
    have last : ∀ u, Steady (rest u) := fun _ => inferInstance
    clear_value rest
    infer_instance
  all_goals infer_instance

/-! Patterns. -/

instance patternLiterals_steady (rest : Mode) (n : Nat) :
    Steady (patternLiterals nested rest n) := by
  induction n with
  | zero => exact failure_steady
  | succ n ih =>
    refine steady_bind fun t => ?_
    split <;> infer_instance

instance patternNumber_steady (first rest : Mode) : Steady (patternNumber first rest) := by
  unfold patternNumber
  infer_instance

section
variable {simple pattern : Mode → Mode → Parser Unit} [∀ m m', Steady (simple m m')]
  [∀ m m', Steady (pattern m m')]

instance patternEntry_steady : Steady (patternEntry simple pattern) := by
  refine steady_bind fun t => ?_
  split <;> infer_instance

instance patternItems_steady (item : Parser Unit) [Steady item] (close : String) :
    Steady (patternItems item close) := by
  unfold patternItems
  infer_instance

instance simplePattern_steady (first rest : Mode) :
    Steady (simplePattern nested simple pattern first rest) := by
  refine steady_bind fun t => ?_
  split <;> infer_instance

instance alternatives_steady (rest : Mode) (n : Nat) : Steady (alternatives simple rest n) := by
  induction n with
  | zero => exact failure_steady
  | succ n ih =>
    unfold alternatives
    infer_instance

instance patternAlias_steady (rest : Mode) : Steady (patternAlias rest) := by
  unfold patternAlias
  infer_instance

instance anyPattern_steady (first rest : Mode) : Steady (anyPattern simple first rest) := by
  refine steady_bind fun t => ?_
  extract_lets more
  have last : ∀ keyword, Steady (more keyword) := fun _ => inferInstance
  clear_value more
  split <;> infer_instance

end

instance casePattern_steady (n : Nat) (first rest : Mode) :
    Steady (casePattern nested n first rest) := by
  induction n generalizing first rest with
  | zero => exact failure_steady
  | succ n ih => exact simplePattern_steady first rest

instance casePatterns_steady (bound n : Nat) : Steady (casePatterns nested bound n) := by
  induction n with
  | zero => exact failure_steady
  | succ n ih =>
    unfold casePatterns
    infer_instance

/-! Headers. -/

instance colon_steady : Steady colon := inferInstanceAs (Steady (expectSymbol .unfinished ":"))

instance matchHeader_steady : Steady (matchHeader nested) := by
  unfold matchHeader
  infer_instance

instance exceptHeader_steady (star : Bool) : Steady (exceptHeader nested star) := by
  unfold exceptHeader
  infer_instance

instance functionHeader_steady (o : Opening) (first : Mode) :
    Steady (functionHeader nested o first) := by
  refine steady_bind fun async => steady_bind fun _ => steady_bind fun name => ?_
  refine steady_bind fun typeParams => steady_bind fun _ => steady_bind fun ps => ?_
  refine steady_bind fun returning => ?_
  extract_lets rest
  have last : ∀ returns, Steady (rest returns) := fun _ => inferInstance
  clear_value rest
  infer_instance

instance classHeader_steady (o : Opening) (first : Mode) : Steady (classHeader nested o first) := by
  refine steady_bind fun _ => steady_bind fun name => steady_bind fun typeParams => ?_
  refine steady_bind fun called => ?_
  extract_lets rest
  have last : ∀ arguments, Steady (rest arguments) := fun _ => inferInstance
  clear_value rest
  infer_instance

end

instance starred_steady : Steady starred where
  leads {c a c'} h := by
    obtain ⟨_, _, hget, h⟩ := bind_eq_some h
    cases hget
    cases hrest : c.rest with
    | nil =>
      simp only [hrest] at h
      cases h
      exact .refl _
    | cons l rest =>
      simp only [hrest] at h
      split at h
      · cases h
        exact (Cursor.passes_of_suffix (hrest ▸ List.suffix_refl _) rfl).leads
      · cases h
        exact .refl _

/-! Blocks. -/

class Onward {α : Type} (b : Blocks α) : Prop where
  leads : ∀ {c a c'}, b c = .ok (a, c') → c.Leads c'

theorem bind_eq_ok {α β : Type} {p : Blocks α} {f : α → Blocks β} {c c' : Cursor} {b : β}
    (h : (p >>= f) c = .ok (b, c')) : ∃ a next, p c = .ok (a, next) ∧ f a next = .ok (b, c') := by
  change (p c >>= fun r => f r.1 r.2) = .ok (b, c') at h
  cases hc : p c with
  | error offset =>
    rw [hc] at h
    cases h
  | ok r =>
    rw [hc] at h
    exact ⟨r.1, r.2, rfl, h⟩

section
variable {α β : Type}

instance pure_onward (a : α) : Onward (pure a : Blocks α) where
  leads h := by
    cases h
    exact .refl _

instance throw_onward (offset : Nat) : Onward (throw offset : Blocks α) where
  leads h := by cases h

instance bind_onward (p : Blocks α) (f : α → Blocks β) [hp : Onward p] [hf : ∀ a, Onward (f a)] :
    Onward (p >>= f) where
  leads h := by
    obtain ⟨a, next, ha, hb⟩ := bind_eq_ok h
    exact (hp.leads ha).trans ((hf a).leads hb)

theorem onward_bind {p : Blocks α} {f : α → Blocks β} [Onward p] (hf : ∀ a, Onward (f a)) :
    Onward (p >>= f) := inferInstance

instance ite_onward {c : Prop} [Decidable c] (p q : Blocks α) [hp : Onward p] [hq : Onward q] :
    Onward (if c then p else q) := by
  split
  · exact hp
  · exact hq

instance get_onward : Onward (get : Blocks Cursor) where
  leads h := by
    cases h
    exact .refl _

instance modifyWidth_onward (width : Nat) :
    Onward (modify fun c => { c with width := width } : Blocks PUnit) where
  leads h := by
    cases h
    exact ⟨[], rfl, rfl⟩

instance from_onward (start : Nat) (p : Parser α) [hp : Steady p] : Onward (from? start p) where
  leads h := by
    rw [from?] at h
    split at h
    · rename_i r hr
      cases h
      exact hp.leads hr
    · cases h

instance indented_onward (width : Nat) (p : Blocks α) [Onward p] : Onward (indented width p) := by
  unfold indented
  infer_instance

end

def Ensures {α : Type} (c : Cursor) (b : Blocks α) (P : α → Cursor → Prop) : Prop :=
  ∀ a c', b c = .ok (a, c') → P a c'

section
variable {α β : Type} {c : Cursor} {P : β → Cursor → Prop}

theorem ensures_pure {b : β} (h : P b c) : Ensures c (pure b) P := by
  intro a c' heq
  cases heq
  exact h

theorem ensures_bind {Q : α → Cursor → Prop} {p : Blocks α} {f : α → Blocks β} (hp : Ensures c p Q)
    (hf : ∀ a next, Q a next → Ensures next (f a) P) : Ensures c (p >>= f) P := by
  intro b c' heq
  obtain ⟨a, next, ha, hb⟩ := bind_eq_ok heq
  exact hf a next (hp a next ha) b c' hb

theorem ensures_get {f : Cursor → Blocks β} (h : Ensures c (f c) P) : Ensures c (get >>= f) P :=
  ensures_bind (Q := fun a next => a = c ∧ next = c) (fun _ _ heq => by cases heq; exact ⟨rfl, rfl⟩)
    fun _ _ heq => heq.1 ▸ heq.2 ▸ h

theorem ensures_take {l : Lexeme} {rest : List Lexeme} {b : Unit → Blocks β}
    (h : Ensures { c with rest := rest, stop := l.span.stop } (b ()) P) :
    Ensures c (take l rest >>= b) P := by
  intro a c' heq
  obtain ⟨_, _, htake, heq⟩ := bind_eq_ok heq
  cases htake
  exact h a c' heq

theorem ensures_from {start : Nat} {p : Parser β} (h : ∀ b c', p c = some (b, c') → P b c') :
    Ensures c (from? start p) P := by
  intro b c' heq
  rw [from?] at heq
  split at heq
  · rename_i r hr
    cases heq
    exact h b c' hr
  · cases heq

theorem ensures_indented {width : Nat} {p : Blocks β}
    (h : Ensures { c with width := width } p fun b c' => P b { c' with width := c.width }) :
    Ensures c (indented width p) P := by
  intro b c' heq
  obtain ⟨_, _, hget, heq⟩ := bind_eq_ok heq
  cases hget
  obtain ⟨_, _, hinner, heq⟩ := bind_eq_ok heq
  cases hinner
  obtain ⟨a, next, ha, heq⟩ := bind_eq_ok heq
  obtain ⟨_, _, houter, heq⟩ := bind_eq_ok heq
  cases houter
  cases heq
  exact h _ _ ha

theorem ensures_onward (p : Blocks α) [hp : Onward p] : Ensures c p fun _ c' => c.Leads c' :=
  fun _ _ => hp.leads

theorem Ensures.leads {p : Blocks β} [hp : Onward p] (h : Ensures c p P) :
    Ensures c p fun b c' => c.Leads c' ∧ P b c' :=
  fun b c' heq => ⟨hp.leads heq, h b c' heq⟩

theorem onward_get {f : Cursor → Blocks β} (h : ∀ c, Ensures c (f c) fun _ c' => c.Leads c') :
    Onward (get >>= f) where
  leads heq := ensures_get (h _) _ _ heq

/-- Taking the first lexeme that is left, and going on. -/
theorem ensures_take_onward {l : Lexeme} {rest : List Lexeme} (hrest : c.rest = l :: rest)
    {b : Unit → Blocks β} [hb : ∀ u, Onward (b u)] :
    Ensures c (take l rest >>= b) fun _ c' => c.Leads c' := by
  have first : c.Leads { c with rest := rest, stop := l.span.stop } := ⟨[l], hrest, rfl⟩
  exact ensures_take fun _ _ heq => first.trans ((hb ()).leads heq)

end

/-- Asking for the offset does not move the cursor. -/
theorem here_eq_ok {c c' : Cursor} {start : Nat} (h : here c = .ok (start, c')) :
    c' = c ∧ start = (c.rest.head?.map (·.span.start)).getD c.stop := by
  obtain ⟨_, _, hget, h⟩ := bind_eq_ok h
  cases hget
  cases hrest : c.rest with
  | nil =>
    simp only [hrest] at h
    cases h
    exact ⟨rfl, rfl⟩
  | cons l rest =>
    simp only [hrest] at h
    cases h
    exact ⟨rfl, rfl⟩

instance here_onward : Onward here where
  leads h := by
    obtain ⟨rfl, _⟩ := here_eq_ok h
    exact .refl _

theorem ensures_here {α : Type} {c : Cursor} {f : Nat → Blocks α} {P : α → Cursor → Prop}
    (h : Ensures c (f ((c.rest.head?.map (·.span.start)).getD c.stop)) P) :
    Ensures c (here >>= f) P := by
  intro a c' heq
  obtain ⟨start, next, hhere, hnext⟩ := bind_eq_ok heq
  obtain ⟨rfl, rfl⟩ := here_eq_ok hhere
  exact h a c' hnext

instance stepBound_onward : Onward stepBound := by
  unfold stepBound
  infer_instance

instance trailing_onward (n : Nat) : Onward (trailing n) := by
  induction n with
  | zero => exact pure_onward ()
  | succ n ih =>
    refine onward_get fun c => ?_
    split
    · rename_i l rest hrest
      split
      · exact ensures_take_onward hrest
      · exact ensures_onward _
    · exact ensures_onward _

instance simpleLine_onward {nested : Nested} [∀ p, Steady (nested p)] (n : Nat)
    (before : List Stmt) :
    Onward (simpleLine nested n before) := by
  induction n generalizing before with
  | zero => exact onward_bind fun _ => inferInstance
  | succ n ih =>
    refine onward_bind fun start => onward_bind fun s => ?_
    refine @bind_onward _ _ _ _ (@from_onward _ _ _ (steady_bind fun t => ?_)) fun more => ?_
    · split <;> infer_instance
    · infer_instance

instance blockItems_onward (statement : Blocks (List Stmt)) [Onward statement] (n : Nat)
    (before : List Stmt) : Onward (blockItems statement n before) := by
  induction n generalizing before with
  | zero => exact pure_onward before.reverse
  | succ n ih =>
    refine onward_get fun c => ?_
    have done : Ensures c (pure before.reverse) fun _ c' => c.Leads c' := ensures_onward _
    split
    · exact done
    · rename_i l rest hrest
      split
      · exact done
      · split
        · exact done
        · exact ensures_take_onward hrest
        · exact ensures_take_onward hrest
        · exact ensures_onward _

instance suite_onward {nested : Nested} [∀ p, Steady (nested p)] (statement : Blocks (List Stmt))
    [Onward statement] : Onward (suite nested statement) := by
  refine onward_bind fun n => onward_bind fun _ => onward_bind fun c => ?_
  split <;> infer_instance

theorem skipTrivia_suffix (width : Nat) (ls : List Lexeme) : skipTrivia width ls <:+ ls := by
  fun_induction skipTrivia width ls with
  | case1 => exact List.suffix_refl _
  | case2 => exact List.nil_suffix
  | case3 l ls _ _ ih => exact ih.trans (List.suffix_cons l ls)
  | case4 => exact List.suffix_refl _

instance clause_onward (words : List String) : Onward (clause? words) := by
  refine onward_get fun c => ?_
  have nothing : Ensures c (pure none : Blocks (Option (String × Nat))) fun _ c' => c.Leads c' :=
    ensures_onward _
  split
  · rename_i l rest hrest
    split
    · split
      · intro a c' h
        cases h
        exact (Cursor.passes_of_suffix (hrest ▸ skipTrivia_suffix c.width c.rest) rfl).leads
      · exact nothing
    · exact nothing
  · exact nothing

section
variable {k : Context} [∀ p, Steady (k.nested p)] [Onward k.body]

instance branch_onward (start : Nat) : Onward (branch k start) := by
  unfold branch
  infer_instance

instance elseBranch_onward : Onward (elseBranch k) := by
  refine onward_bind fun clause => ?_
  split <;> infer_instance

instance elifBranches_onward (n : Nat) : Onward (elifBranches k n) := by
  induction n with
  | zero => exact pure_onward ()
  | succ n ih =>
    refine onward_bind fun clause => ?_
    split <;> infer_instance

instance ifStatement_onward (start : Nat) : Onward (ifStatement k start) := by
  unfold ifStatement
  infer_instance

instance whileStatement_onward (start : Nat) : Onward (whileStatement k start) := by
  unfold whileStatement
  infer_instance

instance forStatement_onward (start : Nat) (first : Mode) :
    Onward (forStatement k start first) := by
  unfold forStatement
  infer_instance

instance withStatement_onward (start : Nat) (first : Mode) :
    Onward (withStatement k start first) := by
  unfold withStatement
  infer_instance

instance finallyClause_onward : Onward (handlers.finallyClause k) := by
  refine onward_bind fun clause => ?_
  split <;> infer_instance

instance handlers_onward (n : Nat) (seen : Option Bool) : Onward (handlers k n seen) := by
  induction n generalizing seen with
  | zero => exact pure_onward seen.isSome
  | succ n ih =>
    refine onward_bind fun clause => ?_
    split <;> infer_instance

instance tryStatement_onward (start : Nat) : Onward (tryStatement k start) := by
  unfold tryStatement
  infer_instance

instance definition_onward (o : Opening) (header : Parser Header) [Steady header] :
    Onward (definition k o header) := by
  unfold definition
  infer_instance

instance decorated_onward (start n : Nat) (before : List (Option Expr)) :
    Onward (decorated k start n before) := by
  induction n generalizing before with
  | zero => exact throw_onward start
  | succ n ih =>
    refine onward_bind fun t => ?_
    split <;> infer_instance

instance caseClauses_onward (n : Nat) : Onward (caseClauses k n) := by
  induction n with
  | zero => exact pure_onward ()
  | succ n ih =>
    refine onward_get fun c => ?_
    split
    · exact ensures_onward _
    · rename_i l rest hrest
      split
      · exact ensures_onward _
      · split
        · exact ensures_take_onward hrest
        · exact ensures_onward _

instance matchStatement_onward (otherwise : Blocks (List Stmt)) [Onward otherwise] :
    Onward (matchStatement k otherwise) where
  leads {c a c'} h := by
    rw [matchStatement] at h
    split at h
    · exact Onward.leads h
    · rename_i after hheader
      split at h
      · exact Onward.leads h
      · extract_lets last clauses at h
        have onward : Onward clauses := inferInstance
        exact (Steady.leads hheader).trans (onward.leads h)

instance statementOf_onward : Onward (statementOf k) := by
  refine onward_get fun c => ensures_here ?_
  extract_lets bound one simple opening
  have wrapped : ∀ s [Onward s], Onward (one s) := fun _ _ => inferInstance
  have simply : Onward simple := inferInstance
  clear_value one simple
  split
  · exact ensures_onward _
  · rename_i l rest hrest
    split
    case h_10 =>
      split
      · exact ensures_onward _
      · exact ensures_take_onward hrest
      · exact ensures_take_onward hrest
      · exact ensures_onward _
    all_goals exact ensures_onward _

end

instance statement_onward {nested : Nested} [∀ p, Steady (nested p)] (n : Nat) :
    Onward (statement nested n) := by
  induction n with
  | zero => exact onward_bind fun _ => inferInstance
  | succ n ih =>
    unfold statement
    infer_instance

end RepoAtlas.Python
