import Mathlib.Tactic.Common
import RepoAtlas.Python.Cache
import RepoAtlas.Python.Outline

/-!
Names of definitions. Whatever way a text is taken apart, the name of a definition is a word that
was read from it, so it is an identifier: not empty and without dots.
-/
namespace RepoAtlas.Text

theorem isIdentifier_ne_empty {s : String} (h : isIdentifier s = true) : s ≠ "" := by
  rintro rfl
  exact absurd h (by decide)

theorem isIdentifier_no_dot {s : String} (h : isIdentifier s = true) : '.' ∉ s.toList := by
  rw [isIdentifier] at h
  split at h
  · rename_i c cs heq
    rw [heq]
    obtain ⟨start, parts⟩ := Bool.and_eq_true_iff.mp h
    intro dot
    rcases List.mem_cons.mp dot with rfl | dot
    · exact absurd start (by decide)
    · exact absurd (List.all_eq_true.mp parts _ dot) (by decide)
  · cases h

end RepoAtlas.Text

namespace RepoAtlas.Python
open RepoAtlas.Text

/-- Whatever the parser returns has a property. -/
def Yields {α : Type} (P : α → Prop) (p : Parser α) : Prop := ∀ c a c', p c = some (a, c') → P a

section
variable {α β : Type} {P : β → Prop}

theorem yields_pure {b : β} (h : P b) : Yields P (pure b : Parser β) := by
  intro c a c' heq
  cases heq
  exact h

theorem yields_failure : Yields P (failure : Parser β) := by
  intro c a c' heq
  cases heq

theorem yields_bind {Q : α → Prop} {p : Parser α} {f : α → Parser β} (hp : Yields Q p)
    (hf : ∀ a, Q a → Yields P (f a)) : Yields P (p >>= f) := by
  intro c b c' heq
  obtain ⟨⟨a, next⟩, ha, hb⟩ := Option.bind_eq_some_iff.mp heq
  exact hf a (hp c a next ha) next b c' hb

/-- What is read first does not matter. -/
theorem yields_then {p : Parser α} {f : α → Parser β} (hf : ∀ a, Yields P (f a)) :
    Yields P (p >>= f) :=
  yields_bind (Q := fun _ => True) (fun _ _ _ _ => trivial) fun a _ => hf a

theorem yields_ite {c : Prop} [Decidable c] {p q : Parser β} (hp : Yields P p) (hq : Yields P q) :
    Yields P (if c then p else q) := by
  split
  · exact hp
  · exact hq

theorem yields_orElse {p q : Parser β} (hp : Yields P p) (hq : Yields P q) :
    Yields P (p <|> q) := by
  intro c a c' heq
  cases hc : p c with
  | none =>
    have second : q c = some (a, c') := by
      simpa [HOrElse.hOrElse, OrElse.orElse, Alternative.orElse, StateT.orElse, hc] using heq
    exact hq c a c' second
  | some r =>
    have first : some r = some (a, c') := by
      simpa [HOrElse.hOrElse, OrElse.orElse, Alternative.orElse, StateT.orElse, hc] using heq
    exact hp c a c' (hc.trans first)

end

theorem view_word {m : Mode} {width : Nat} {ls rest : List Lexeme} {text : String}
    (h : view m width ls = some (.word text, rest)) : isIdentifier text = true := by
  induction ls with
  | nil => cases h
  | cons l ls ih =>
    have own : some (l.token, l :: ls) = some (.word text, rest) → isIdentifier text = true := by
      intro heq
      have token : l.token = .word text := (Prod.mk.inj (Option.some.inj heq)).1
      have spelled := l.spelled
      rw [token] at spelled
      exact spelled
    cases m with
    | line =>
      rw [view] at h
      split at h
      · cases h
      · split at h
        · exact ih h
        · exact own h
    | bracket =>
      rw [view] at h
      split at h
      · exact ih h
      · exact own h
    | unfinished =>
      rw [view] at h
      split at h
      · cases h
      · split at h
        · exact ih h
        · exact own h

theorem look_word {m : Mode} : Yields (fun t => t.Spelled) (look m) := by
  intro c t c' h
  obtain ⟨⟨t', rest⟩, hview, heq⟩ := Option.map_eq_some_iff.mp h
  obtain ⟨rfl, rfl⟩ := Prod.mk.inj heq
  cases t' with
  | word text => exact view_word hview
  | _ => trivial

theorem identifier_named (m : Mode) : Yields (fun r => isIdentifier r.1 = true) (identifier m) := by
  refine yields_bind look_word fun t spelled => ?_
  split
  · exact yields_then fun l => yields_pure spelled
  · exact yields_failure

def Header.Named (h : Header) : Prop := isIdentifier h.name = true

theorem functionHeader_named (nested : Nested) (o : Opening) (first : Mode) :
    Yields Header.Named (functionHeader nested o first) := by
  refine yields_then fun async => yields_then fun _ => ?_
  refine yields_bind (identifier_named _) fun name named => ?_
  refine yields_then fun typeParams => yields_then fun _ => yields_then fun ps => yields_then
    fun _ => ?_
  extract_lets rest
  have last : ∀ returns, Yields Header.Named (rest returns) := fun returns =>
    yields_then fun stop => yields_then fun _ => yields_pure named
  refine yields_ite ?_ ?_
  · exact yields_then fun _ => yields_then fun _ => yields_then last
  · exact yields_then last

theorem classHeader_named (nested : Nested) (o : Opening) (first : Mode) :
    Yields Header.Named (classHeader nested o first) := by
  refine yields_then fun _ => yields_bind (identifier_named _) fun name named => ?_
  refine yields_then fun typeParams => yields_then fun _ => ?_
  extract_lets rest
  have last : ∀ arguments, Yields Header.Named (rest arguments) := fun arguments =>
    yields_then fun stop => yields_then fun _ => yields_pure named
  exact yields_ite (yields_then last) (yields_then last)

/-! Statements of one line define nothing. -/

def Stmt.Plain (s : Stmt) : Prop := s.definition? = none

theorem importFrom_plain : Yields Stmt.Plain importFrom := by
  refine yields_then fun _ => yields_then fun future => yields_ite ?_ ?_
  · exact yields_then fun _ => yields_then fun _ => yields_pure rfl
  · refine yields_then fun start => yields_then fun t => ?_
    extract_lets fromDots
    have dotted : ∀ dots, Yields Stmt.Plain (fromDots dots) := by
      intro dots
      refine yields_then fun _ => ?_
      extract_lets fromSource
      have sourced : ∀ source, Yields Stmt.Plain (fromSource source) := fun source =>
        yields_then fun _ => yields_then fun _ =>
          yields_ite (yields_pure rfl) (yields_then fun _ => yields_pure rfl)
      exact yields_ite (yields_then sourced) (yields_then fun _ => yields_then sourced)
    refine yields_ite ?_ ?_
    · exact yields_then fun _ => yields_then fun _ => yields_then fun _ => yields_then dotted
    · exact yields_then dotted

theorem chainStatement_plain (nested : Nested) : Yields Stmt.Plain (chainStatement nested) := by
  refine yields_then fun start => yields_then fun bound => yields_then fun chain => ?_
  split
  · split
    · exact yields_pure rfl
    · exact yields_failure
  · exact yields_then fun stop => yields_pure rfl
  · exact yields_then fun stop => yields_pure rfl

theorem typeAlias_plain (nested : Nested) : Yields Stmt.Plain (typeAlias nested) := by
  refine yields_then fun _ => yields_then fun n => yields_then fun _ => ?_
  exact yields_then fun _ => yields_then fun _ => yields_pure rfl

theorem simpleStatement_plain (nested : Nested) : Yields Stmt.Plain (simpleStatement nested) := by
  refine yields_then fun t => ?_
  split
  case h_1 => exact yields_then fun _ => yields_then fun _ => yields_then fun _ => yields_pure rfl
  case h_2 => exact importFrom_plain
  case h_3 => exact yields_then fun _ => yields_then fun _ => yields_then fun _ => yields_pure rfl
  case h_4 =>
    refine yields_then fun _ => yields_then fun _ => yields_ite ?_ ?_
    · exact yields_then fun _ => yields_pure rfl
    · exact yields_pure rfl
  case h_5 => exact yields_then fun _ => yields_then fun _ => yields_pure rfl
  case h_6 =>
    refine yields_then fun _ => yields_then fun _ => ?_
    extract_lets done rest
    have last : ∀ u, Yields Stmt.Plain (rest u) := fun _ =>
      yields_then fun _ => yields_ite (yields_then fun _ => yields_pure rfl) (yields_pure rfl)
    exact yields_ite (yields_then fun _ => last ()) (last ())
  case h_7 | h_8 | h_9 => exact yields_then fun _ => yields_pure rfl
  case h_10 | h_11 =>
    exact yields_then fun _ => yields_then fun _ => yields_then fun _ => yields_pure rfl
  case h_12 => exact yields_then fun _ => yields_ite yields_failure (chainStatement_plain nested)
  case h_13 => exact yields_orElse (typeAlias_plain nested) (chainStatement_plain nested)
  case h_14 => exact chainStatement_plain nested

/-! Blocks of statements. -/

def Delivers {α : Type} (P : α → Prop) (b : Blocks α) : Prop := ∀ c a c', b c = .ok (a, c') → P a

section
variable {α β : Type} {P : β → Prop}

theorem delivers_pure {b : β} (h : P b) : Delivers P (pure b : Blocks β) := by
  intro c a c' heq
  cases heq
  exact h

theorem delivers_throw {offset : Nat} : Delivers P (throw offset : Blocks β) := by
  intro c a c' heq
  cases heq

theorem delivers_bind {Q : α → Prop} {p : Blocks α} {f : α → Blocks β} (hp : Delivers Q p)
    (hf : ∀ a, Q a → Delivers P (f a)) : Delivers P (p >>= f) := by
  intro c b c' heq
  change (p c >>= fun r => f r.1 r.2) = .ok (b, c') at heq
  cases hc : p c with
  | error offset =>
    rw [hc] at heq
    cases heq
  | ok r =>
    rw [hc] at heq
    exact hf r.1 (hp c r.1 r.2 hc) r.2 b c' heq

theorem delivers_then {p : Blocks α} {f : α → Blocks β} (hf : ∀ a, Delivers P (f a)) :
    Delivers P (p >>= f) :=
  delivers_bind (Q := fun _ => True) (fun _ _ _ _ => trivial) fun a _ => hf a

theorem delivers_ite {c : Prop} [Decidable c] {p q : Blocks β} (hp : Delivers P p)
    (hq : Delivers P q) : Delivers P (if c then p else q) := by
  split
  · exact hp
  · exact hq

theorem Delivers.imp {Q : β → Prop} {b : Blocks β} (h : Delivers P b) (himp : ∀ a, P a → Q a) :
    Delivers Q b :=
  fun c a c' heq => himp a (h c a c' heq)

theorem delivers_from {start : Nat} {p : Parser β} (h : Yields P p) :
    Delivers P (from? start p) := by
  intro c a c' heq
  rw [from?] at heq
  split at heq
  · rename_i r hr
    exact h c a c' (hr.trans (congrArg some (Except.ok.inj heq)))
  · cases heq

end

/-- Whatever a statement defines, at any depth, has an identifier for a name. -/
inductive Stmt.Named : Stmt → Prop where
  | plain {s : Stmt} : s.Plain → s.Named
  | definition {header : Header} {body : List Stmt} : header.Named → (∀ s ∈ body, s.Named) →
      (Stmt.definition header body).Named

def AllNamed (ss : List Stmt) : Prop := ∀ s ∈ ss, s.Named

theorem AllNamed.definitionsOf {ss : List Stmt} (h : AllNamed ss) {d : Definition}
    (hd : d ∈ definitionsOf ss) : isIdentifier d.name = true ∧ AllNamed d.body := by
  obtain ⟨s, hs, hdef⟩ := List.mem_filterMap.mp hd
  cases h s hs with
  | plain plain =>
    rw [plain] at hdef
    cases hdef
  | definition named body =>
    obtain rfl := Option.some.inj hdef
    exact ⟨named, body⟩

theorem simpleLine_plain (nested : Nested) (n : Nat) {before : List Stmt}
    (h : ∀ s ∈ before, s.Plain) :
    Delivers (fun ss => ∀ s ∈ ss, s.Plain) (simpleLine nested n before) := by
  induction n generalizing before with
  | zero => exact delivers_then fun _ => delivers_throw
  | succ n ih =>
    refine delivers_then fun start => ?_
    refine delivers_bind (delivers_from (simpleStatement_plain nested)) fun s plain => ?_
    have more : ∀ t ∈ s :: before, t.Plain := List.forall_mem_cons.mpr ⟨plain, h⟩
    refine delivers_then fun _ => delivers_ite (ih more) ?_
    refine delivers_then fun _ => delivers_then fun _ => delivers_pure ?_
    exact fun s hs => more s (List.mem_reverse.mp hs)

theorem allNamed_of_plain {ss : List Stmt} (h : ∀ s ∈ ss, s.Plain) : AllNamed ss :=
  fun s hs => .plain (h s hs)

theorem blockItems_named {statement : Blocks (List Stmt)} (hs : Delivers AllNamed statement)
    (n : Nat) {before : List Stmt} (h : AllNamed before) :
    Delivers AllNamed (blockItems statement n before) := by
  have done : Delivers AllNamed (pure before.reverse) :=
    delivers_pure fun s hs => h s (List.mem_reverse.mp hs)
  induction n generalizing before with
  | zero => exact done
  | succ n ih =>
    have next : ∀ more, AllNamed more → Delivers AllNamed
        (blockItems statement n (more ++ before)) := by
      intro more hmore
      have all : AllNamed (more ++ before) := List.forall_mem_append.mpr ⟨hmore, h⟩
      exact ih all (delivers_pure fun s hs => all s (List.mem_reverse.mp hs))
    refine delivers_then fun c => ?_
    split
    · exact done
    · refine delivers_ite done ?_
      split
      · exact done
      · exact delivers_then fun _ => next [] (by simp [AllNamed])
      · refine delivers_then fun _ => next [.continuation] ?_
        exact List.forall_mem_singleton.mpr (.plain rfl)
      · refine delivers_bind hs fun ss hss => next ss.reverse ?_
        exact fun s hs => hss s (List.mem_reverse.mp hs)

theorem suite_named (nested : Nested) {statement : Blocks (List Stmt)}
    (h : Delivers AllNamed statement) : Delivers AllNamed (suite nested statement) := by
  have nothing : AllNamed [] := by simp [AllNamed]
  refine delivers_then fun bound => delivers_then fun _ => delivers_then fun c => ?_
  split
  · exact delivers_pure nothing
  · refine delivers_ite ?_ (delivers_ite ?_ (delivers_pure nothing))
    · exact (simpleLine_plain nested _ (by simp)).imp fun _ => allNamed_of_plain
    · refine delivers_then fun outer => delivers_then fun _ => ?_
      refine delivers_bind (blockItems_named h _ nothing) fun body named => ?_
      exact delivers_then fun _ => delivers_pure named

theorem definition_named {k : Context} (hk : Delivers AllNamed k.body) (o : Opening)
    {header : Parser Header} (h : Yields Header.Named header) :
    Delivers Stmt.Named (definition k o header) := by
  refine delivers_bind (delivers_from h) fun header named => ?_
  refine delivers_bind hk fun body inner => delivers_then fun c => delivers_pure ?_
  exact .definition named inner

theorem decorated_named {k : Context} (hk : Delivers AllNamed k.body) (start n : Nat)
    (before : List (Option Expr)) : Delivers Stmt.Named (decorated k start n before) := by
  induction n generalizing before with
  | zero => exact delivers_throw
  | succ n ih =>
    refine delivers_then fun t => ?_
    split
    · exact delivers_then fun d => ih _
    · exact definition_named hk _ (classHeader_named _ _ _)
    · exact definition_named hk _ (functionHeader_named _ _ _)
    · exact definition_named hk _ (functionHeader_named _ _ _)
    · exact delivers_throw

theorem ifStatement_plain (k : Context) (start : Nat) : Delivers Stmt.Plain (ifStatement k start) :=
  delivers_then fun _ => delivers_then fun _ => delivers_then fun _ => delivers_then fun _ =>
    delivers_pure rfl

theorem whileStatement_plain (k : Context) (start : Nat) :
    Delivers Stmt.Plain (whileStatement k start) :=
  delivers_then fun _ => delivers_then fun _ => delivers_then fun _ => delivers_pure rfl

theorem forStatement_plain (k : Context) (start : Nat) (first : Mode) :
    Delivers Stmt.Plain (forStatement k start first) :=
  delivers_then fun _ => delivers_then fun _ => delivers_then fun _ => delivers_pure rfl

theorem withStatement_plain (k : Context) (start : Nat) (first : Mode) :
    Delivers Stmt.Plain (withStatement k start first) :=
  delivers_then fun _ => delivers_then fun _ => delivers_pure rfl

theorem tryStatement_plain (k : Context) (start : Nat) :
    Delivers Stmt.Plain (tryStatement k start) :=
  delivers_then fun _ => delivers_then fun _ => delivers_then fun _ => delivers_then fun _ =>
    delivers_ite (delivers_pure rfl) delivers_throw

theorem matchStatement_plain (k : Context) {otherwise : Blocks (List Stmt)}
    (h : Delivers (fun ss => ∀ s ∈ ss, s.Plain) otherwise) :
    Delivers (fun ss => ∀ s ∈ ss, s.Plain) (matchStatement k otherwise) := by
  intro c ss c' heq
  rw [matchStatement] at heq
  split at heq
  · exact h c ss c' heq
  · split at heq
    · exact h c ss c' heq
    · extract_lets last clauses at heq
      have other : ∀ s ∈ [Stmt.other], s.Plain := List.forall_mem_singleton.mpr rfl
      have plain : Delivers (fun ss => ∀ s ∈ ss, s.Plain) clauses := by
        refine delivers_then fun _ => delivers_then fun _ => delivers_ite ?_ (delivers_pure other)
        exact delivers_then fun _ => delivers_then fun _ => delivers_pure other
      exact plain _ ss c' heq

theorem statementOf_named {k : Context} (hk : Delivers AllNamed k.body) :
    Delivers AllNamed (statementOf k) := by
  have one : ∀ s : Blocks Stmt, Delivers Stmt.Named s → Delivers AllNamed (do return [← s]) :=
    fun s hs => delivers_bind hs fun s named => delivers_pure (List.forall_mem_singleton.mpr named)
  have other : ∀ s : Blocks Stmt, Delivers Stmt.Plain s → Delivers AllNamed (do return [← s]) :=
    fun s hs => one s (hs.imp fun _ => .plain)
  have simple : ∀ n, Delivers (fun ss => ∀ s ∈ ss, s.Plain) (simpleLine k.nested n []) := fun n =>
    simpleLine_plain k.nested n (by simp)
  refine delivers_then fun c => delivers_then fun start => ?_
  dsimp only
  split
  · exact delivers_pure (by simp [AllNamed])
  · split
    case h_1 => exact one _ (decorated_named hk _ _ _)
    case h_2 => exact other _ (ifStatement_plain _ _)
    case h_3 => exact other _ (whileStatement_plain _ _)
    case h_4 => exact other _ (forStatement_plain _ _ _)
    case h_5 => exact other _ (withStatement_plain _ _ _)
    case h_6 => exact other _ (tryStatement_plain _ _)
    case h_7 => exact one _ (definition_named hk _ (functionHeader_named _ _ _))
    case h_8 => exact one _ (definition_named hk _ (classHeader_named _ _ _))
    case h_9 => exact (matchStatement_plain k (simple _)).imp fun _ => allNamed_of_plain
    case h_10 =>
      split
      · exact one _ (definition_named hk _ (functionHeader_named _ _ _))
      · exact delivers_then fun _ => other _ (forStatement_plain _ _ _)
      · exact delivers_then fun _ => other _ (withStatement_plain _ _ _)
      · exact (simple _).imp fun _ => allNamed_of_plain
    case h_11 => exact (simple _).imp fun _ => allNamed_of_plain

theorem statement_named (nested : Nested) (n : Nat) : Delivers AllNamed (statement nested n) := by
  induction n with
  | zero => exact delivers_then fun _ => delivers_throw
  | succ n ih => exact statementOf_named (suite_named nested ih)

theorem statements_eq_ok {lexemes : List Lexeme} {body : List Stmt}
    (h : statements lexemes = .ok body) :
    ∃ c', blockItems (statement (expression (lexemes.length + 1)) (lexemes.length + 1))
      (lexemes.length + 1) [] ⟨lexemes, 0, 0, lexemes.length + 1⟩ = .ok (body, c') := by
  rw [statements] at h
  cases hb : blockItems (statement (expression (lexemes.length + 1)) (lexemes.length + 1))
      (lexemes.length + 1) [] ⟨lexemes, 0, 0, lexemes.length + 1⟩ with
  | error offset =>
    rw [hb] at h
    cases h
  | ok r =>
    rw [hb] at h
    obtain rfl : r.1 = body := Except.ok.inj h
    exact ⟨r.2, rfl⟩

theorem statements_named {lexemes : List Lexeme} {body : List Stmt}
    (h : statements lexemes = .ok body) : AllNamed body := by
  obtain ⟨c', hb⟩ := statements_eq_ok h
  exact blockItems_named (statement_named _ _) _ (by simp [AllNamed]) _ _ _ hb

theorem parse_inversion {path text : String} {source : SourceFile}
    (h : SourceFile.parse path text = .ok source) :
    source.path = path ∧ ∃ lexemes, statements lexemes = .ok source.body := by
  simp only [SourceFile.parse] at h
  split at h
  · rename_i body hbody
    obtain rfl := Except.ok.inj h
    exact ⟨rfl, _, hbody⟩
  · cases h

theorem load_inversion {tree : FileTree} {path : String} {source : SourceFile}
    (h : load tree path = .ok source) :
    source.path = path ∧ ∃ lexemes, statements lexemes = .ok source.body := by
  rw [load] at h
  split at h
  · cases h
  · split at h
    · cases h
    · rename_i file hfile
      obtain rfl := Except.ok.inj h
      rw [SourceFile.ofBytes] at hfile
      split at hfile
      · exact parse_inversion hfile
      · cases hfile

section
variable {tree : FileTree} {path : String} {source : SourceFile}

/-- Every definition of a file that can be read has an identifier for a name. -/
theorem load_named (h : load tree path = .ok source) :
    ∀ d ∈ source.definitions, isIdentifier d.name = true := by
  intro d hd
  obtain ⟨_, lexemes, parsed⟩ := load_inversion h
  exact ((statements_named parsed).definitionsOf hd).1

theorem load_methods_named (h : load tree path = .ok source) :
    ∀ d ∈ source.definitions, ∀ m ∈ d.methods, isIdentifier m.name = true := by
  intro d hd m hm
  obtain ⟨_, lexemes, parsed⟩ := load_inversion h
  obtain ⟨_, inner⟩ := (statements_named parsed).definitionsOf hd
  exact (inner.definitionsOf (List.mem_filter.mp hm).1).1

end

end RepoAtlas.Python
