import RepoAtlas.Proofs.Python.Definitions
import RepoAtlas.Component.OfFile

/-!
Files of definitions. A block of definitions is read one definition after the other, and a file of
definitions has the outline that was written.
-/
namespace RepoAtlas.Python
open RepoAtlas.Text Written

/-! Lines. -/

/-- What comes next is on a line of its own, at a column: a token, or the end of the text. -/
def StartsLine (column : Nat) : List Printed → Prop
  | [] => column = 0
  | p :: _ => p.filler = lineStart column ∧ inCode p.token = true

def Leads (width : Nat) (lead : Filler) : Prop :=
  ∃ run, lead.runs [] = [run] ∧ ('\n' ∈ run → width ≤ columnAfter 0 run)

theorem runs_replicate (run : List Char) (n : Nat) :
    Filler.runs run (List.replicate n (.blank ' ' rfl)) = [run ++ List.replicate n ' '] := by
  induction n generalizing run with
  | zero => simp [Filler.runs]
  | succ n ih =>
    rw [List.replicate_succ, List.replicate_succ, List.append_cons]
    exact ih (run ++ [' '])

theorem columnAfter_replicate (m n : Nat) : columnAfter m (List.replicate n ' ') = m + n := by
  induction n generalizing m with
  | zero => rfl
  | succ n ih =>
    rw [List.replicate_succ]
    exact (ih (m + 1)).trans (Nat.succ_add m n)

theorem runs_lineStart (width : Nat) :
    (lineStart width).runs [] = ['\n' :: List.replicate width ' '] :=
  runs_replicate ['\n'] width

theorem columnAfter_lineStart (width : Nat) :
    columnAfter 0 ('\n' :: List.replicate width ' ') = width :=
  (columnAfter_replicate 0 width).trans (Nat.zero_add width)

theorem gapOf_lineStart (width : Nat) :
    gapOf ('\n' :: List.replicate width ' ') = ⟨true, width, none⟩ := by
  simp [gapOf, columnAfter_lineStart]

theorem leads_lineStart (width : Nat) : Leads width (lineStart width) :=
  ⟨_, runs_lineStart width, fun _ => Nat.le_of_eq (columnAfter_lineStart width).symm⟩

section
variable {text : List Char} {c : Cursor} {width offset : Nat} {p : Printed} {ps : List Printed}

/-- The lexeme at the start of a line. -/
theorem Facing.startsLine_eq {column : Nat} (h : Facing text c width offset ps)
    (hs : StartsLine column ps) :
    ∃ l rest, c.rest = l :: rest ∧ isTrivia l.token = false ∧ l.gap = ⟨true, column, none⟩ := by
  cases ps with
  | nil =>
    obtain rfl : column = 0 := hs
    obtain ⟨ls, last, rest, laid, token, gap⟩ := h.lexemes
    cases laid
    exact ⟨last, [], rest, by rw [token]; rfl, gap⟩
  | cons p ps =>
    obtain ⟨l, rest, heq, _, plain, gap, _⟩ := h.head_eq hs.2 (hs.1 ▸ runs_lineStart column)
    exact ⟨l, rest, heq, plain, gap.trans (gapOf_lineStart column)⟩

/-- The line ends before what is on a line of its own. -/
theorem Facing.look_lineEnd {column : Nat} (h : Facing text c width offset ps)
    (hs : StartsLine column ps) :
    look .line c = some (.lineEnd, c) := by
  obtain ⟨l, rest, heq, _, gap⟩ := h.startsLine_eq hs
  simp [look, heq, view, gap]

theorem trailing_eq {l : Lexeme} {rest : List Lexeme} (heq : c.rest = l :: rest)
    (plain : isTrivia l.token = false) (n : Nat) : trailing n c = .ok ((), c) := by
  cases n with
  | zero => rfl
  | succ n =>
    rw [trailing, bind_of_ok (get_eq c)]
    simp only [heq, plain]
    rfl

/-- A body that does nothing. -/
theorem Facing.suite_idle {column : Nat} (nested : Nested) (statement : Blocks (List Stmt))
    (h : Facing text c width offset (idle :: ps)) (hs : StartsLine column ps) :
    ∃ c', suite nested statement c = .ok ([.other], c') ∧
      Facing text c' width (offset + idle.chars.length) ps := by
  have runs : idle.filler.runs [] = [[' ']] := rfl
  obtain ⟨l, rest, heq, _, plain, gap, _⟩ := h.head_eq rfl runs
  obtain ⟨c₁, h₁, _, steps⟩ := h.next
  obtain ⟨_, advanced, _⟩ := (steps .bracket trivial).advance
  obtain ⟨start, started⟩ := here_eq c
  obtain ⟨b, bound⟩ := h.bound_succ
  obtain ⟨l', rest', heq', plain', _⟩ := h₁.startsLine_eq hs
  have pass : simpleStatement nested c = some (.other, c₁) :=
    (bind_of_some (steps .bracket trivial).look).trans
      ((bind_of_some ((bind_of_some advanced).trans rfl)).trans rfl)
  have ended := h₁.look_lineEnd hs
  have line : simpleLine nested (b + 1) [] c = .ok ([.other], c₁) :=
    (bind_of_ok started).trans ((bind_of_ok (from_eq start pass)).trans
      ((bind_of_ok (from_eq start ((bind_of_some ended).trans rfl))).trans
        ((bind_of_ok (stepBound_eq c₁)).trans
          ((bind_of_ok (trailing_eq heq' plain' _)).trans rfl))))
  refine ⟨c₁, ?_, h₁⟩
  rw [suite, bind_of_ok (stepBound_eq c), bind_of_ok (trailing_eq heq plain _),
    bind_of_ok (get_eq c)]
  simp only [heq, gap, bound]
  exact line

theorem Facing.widen (h : Facing text c width offset ps) (width' : Nat) :
    Facing text { c with width := width' } width' offset ps :=
  ⟨rfl, h.stop, h.room, h.lexemes, h.chars⟩

/-! Blocks. -/

/-- An item of a block is not outside it. -/
theorem Leads.not_closes {lead : Filler} {run : List Char} (h : Leads width lead)
    (hrun : lead.runs [] = [run]) :
    (gapOf run).closes width = false := by
  obtain ⟨run', runs, inside⟩ := h
  obtain rfl : run = run' := List.singleton_inj.mp (hrun.symm.trans runs)
  by_cases breaks : '\n' ∈ run
  · simp [Gap.closes, gapOf, Nat.not_lt.mpr (inside breaks)]
  · simp [Gap.closes, gapOf, breaks]

/-- The items of a block, one after the other, if each of them is read as one definition. -/
theorem Facing.blockItems_eq {α : Type} {f : Filler → α → List Printed} {R : α → Definition → Prop}
    {statement : Blocks (List Stmt)} {k : Nat}
    (opens : ∀ lead a, ∃ w h qs, f lead a = word lead w h :: qs) (as : List α)
    (hread : ∀ a ∈ as, ∀ {lead : Filler} {c : Cursor} {offset : Nat} {qs : List Printed},
      Leads width lead → Facing text c width offset (f lead a ++ qs) →
      (∃ column ≤ width, StartsLine column qs) → (f lead a).length ≤ k →
      ∃ header body c', statement c = .ok ([.definition header body], c') ∧ R a ⟨header, body⟩ ∧
        Facing text c' width (offset + (textOf (f lead a)).length) qs)
    (stops : ∀ {c : Cursor} {offset : Nat} (n : Nat) (before : List Stmt),
      Facing text c width offset ps → blockItems statement (n + 1) before c =
        .ok (before.reverse, c))
    (hs : StartsLine 0 ps) {lead : Filler} (hlead : Leads width lead) {n : Nat} (hn : as.length < n)
    (before : List Stmt) (h : Facing text c width offset (stacked f width lead as ++ ps))
    (hk : (stacked f width lead as).length ≤ k) :
    ∃ body c', blockItems statement n before c = .ok (before.reverse ++ body, c') ∧
      List.Forall₂ R as (definitionsOf body) ∧
      Facing text c' width (offset + (textOf (stacked f width lead as)).length) ps := by
  obtain ⟨n, rfl⟩ : ∃ b, n = b + 1 := ⟨n - 1, by omega⟩
  induction as generalizing n before c offset lead with
  | nil => exact ⟨[], c, by rw [stops n before h, List.append_nil], .nil, h⟩
  | cons a as ih =>
    rw [stacked, List.append_assoc] at h
    rw [stacked, List.length_append] at hk
    have next : ∃ column ≤ width, StartsLine column
        (stacked f width (lineStart width) as ++ ps) := by
      cases as with
      | nil => exact ⟨0, Nat.zero_le width, hs⟩
      | cons a' as =>
        obtain ⟨w, hw, qs, heq⟩ := opens (lineStart width) a'
        exact ⟨width, Nat.le_refl width, by rw [stacked, heq]; exact ⟨rfl, rfl⟩⟩
    obtain ⟨header, body, c₁, read, outlines, h₁⟩ :=
      hread a List.mem_cons_self hlead h next (by omega)
    rw [List.length_cons] at hn
    obtain ⟨n, rfl⟩ : ∃ b, n = b + 1 := ⟨n - 1, by omega⟩
    obtain ⟨others, c₂, ran, outline, h₂⟩ := ih
      (fun a' ha' => hread a' (List.mem_cons_of_mem _ ha'))
      (leads_lineStart width) (.definition header body :: before) h₁ (by omega) n (by omega)
    refine ⟨.definition header body :: others, c₂, ?_, .cons outlines outline, h₂.at ?_⟩
    · obtain ⟨w, hw, qs, heq⟩ := opens lead a
      obtain ⟨run, runs, _⟩ := id hlead
      rw [heq, List.cons_append] at h
      obtain ⟨l, rest, hrest, token, _, gap, _⟩ := h.head_eq rfl runs
      have inside : l.gap.closes c.width = false := by
        rw [gap, h.width]
        exact hlead.not_closes runs
      rw [blockItems, bind_of_ok (get_eq c)]
      simp only [hrest, inside, token, token_word]
      refine (bind_of_ok read).trans ?_
      rw [List.reverse_cons, List.append_assoc] at ran
      exact ran
    · rw [stacked, textOf_append, List.length_append, Nat.add_assoc]

/-! Functions and classes. -/

variable {V : Type} [Writable V] {k : Nat} {lead : Filler}

def Renders (text : List Char) (f : Function V) (d : Definition) : Prop :=
  d.kind = .function ∧ (SourceText.ofChars text).signature d.header = f.signature

def Outlines (text : List Char) : Written.Definition V → Definition → Prop
  | .function f, d => Renders text f d
  | .classDef w, d =>
    d.kind = .classDef ∧ (SourceText.ofChars text).signature d.header = w.signature ∧
      List.Forall₂ (Renders text) w.methods.functions (definitionsOf d.body)

theorem definition_eq {k : Context} {o : Opening} {p : Parser Header} {c c₁ c₂ : Cursor}
    {header : Header} {body : List Stmt} (hp : p c = some (header, c₁))
    (hbody : k.body c₁ = .ok (body, c₂)) :
    definition k o p c = .ok (.definition { header with span := ⟨header.span.start, c₂.stop⟩ } body,
      c₂) :=
  (bind_of_ok (from_eq o.start hp)).trans ((bind_of_ok hbody).trans
    ((bind_of_ok (get_eq c₂)).trans rfl))

/-- On one line, nothing depends on the width of a block. -/
theorem view_line (width width' : Nat) (ls : List Lexeme) :
    view .line width ls = view .line width' ls := by
  induction ls with
  | nil => rfl
  | cons l ls ih => simp only [view, ih]

theorem asyncWord_def (seen : look .line c = some (.word "def", c)) :
    asyncWord c.rest = some "def" := by
  rw [look, view_line c.width 0] at seen
  obtain ⟨⟨t, ls⟩, viewed, pair⟩ := Option.map_eq_some_iff.mp seen
  obtain rfl : t = .word "def" := (Prod.mk.inj pair).1
  simp [asyncWord, viewed]

theorem Facing.function_eq {column : Nat} (f : Function V) (n : Nat) (hlead : Leads width lead)
    (h : Facing text c width offset (f.whole lead ++ ps))
    (inside : ∀ p ∈ f.pieces lead, Inside width p) (hs : StartsLine column ps)
    (hk : (f.whole lead).length ≤ k) :
    ∃ header body c', statement (expression k) (n + 1) c = .ok ([.definition header body], c') ∧
      Renders text f ⟨header, body⟩ ∧ Facing text c' width
        (offset + (textOf (f.whole lead)).length) ps := by
  have first := h
  rw [Function.whole, List.append_assoc] at h
  rw [Function.whole, List.length_append] at hk
  obtain ⟨start, started⟩ := here_eq c
  obtain ⟨header, c₁, read, kind, spelled, h₁⟩ := h.functionHeader_eq f lead ⟨start, []⟩ inside
    (Nat.le_of_add_right_le hk)
  obtain ⟨c₂, body, h₂⟩ := h₁.suite_idle (expression k) (statement (expression k) n) hs
  obtain ⟨run, runs, _⟩ := hlead
  refine ⟨{ header with span := ⟨header.span.start, c₂.stop⟩ }, [.other], c₂, ?_, ⟨kind, spelled⟩,
    h₂.at ?_⟩
  · rw [statement, statementOf, bind_of_ok (get_eq c), bind_of_ok started]
    rw [Function.whole, Function.pieces, Function.opener] at first
    cases async : f.async with
    | none =>
      rw [async] at first
      obtain ⟨l, rest, hrest, token, _⟩ := first.head_eq rfl runs
      simp only [hrest, token, token_word]
      exact (bind_of_ok (definition_eq read body)).trans rfl
    | some space =>
      rw [async] at first
      obtain ⟨l, rest, hrest, token, _, _, h'⟩ := first.head_eq rfl runs
      obtain ⟨_, _, _, steps⟩ := h'.next
      have word : asyncWord rest = some "def" := asyncWord_def (steps .line ⟨rfl, space.tight⟩).look
      simp only [hrest, token, token_word, word]
      exact (bind_of_ok (definition_eq read body)).trans rfl
  · rw [Function.whole, textOf_append, List.length_append, Nat.add_assoc]
    simp

/-- A line of a block is outside it if it starts further to the left. -/
theorem Facing.blockItems_closed {statement : Blocks (List Stmt)} (positive : 0 < width)
    (hs : StartsLine 0 ps) (n : Nat) (before : List Stmt) (h : Facing text c width offset ps) :
    blockItems statement (n + 1) before c = .ok (before.reverse, c) := by
  obtain ⟨l, rest, heq, _, gap⟩ := h.startsLine_eq hs
  rw [blockItems, bind_of_ok (get_eq c)]
  simp only [heq, gap, Gap.closes, h.width]
  simp [positive]
  rfl

theorem Facing.blockItems_end {statement : Blocks (List Stmt)} (n : Nat) (before : List Stmt)
    (h : Facing text c width offset []) :
    blockItems statement (n + 1) before c = .ok (before.reverse, c) := by
  obtain ⟨ls, last, rest, laid, token, _⟩ := h.lexemes
  cases laid
  rw [blockItems, bind_of_ok (get_eq c)]
  simp only [rest, List.nil_append, token]
  split <;> rfl

theorem length_le_stacked {α : Type} {f : Filler → α → List Printed}
    (opens : ∀ lead a, ∃ w h qs, f lead a = word lead w h :: qs) (width : Nat) (lead : Filler)
    (as : List α) :
    as.length ≤ (stacked f width lead as).length := by
  induction as generalizing lead with
  | nil => exact Nat.le_refl 0
  | cons a as ih =>
    obtain ⟨w, h, qs, heq⟩ := opens lead a
    have others := ih (lineStart width)
    rw [stacked, heq, List.length_append, List.length_cons, List.length_cons]
    omega

theorem inside_zero (code : Coded ps) : ∀ p ∈ ps, Inside 0 p :=
  fun p hp => ⟨code p hp, fun _ _ _ => Nat.zero_le _⟩

/-- The tokens of a function do not depend on what stands before it, apart from the first. -/
theorem inside_lineStart (f : Function V) (inside : ∀ p ∈ f.pieces [], p.filler.Within width)
    (hlead : Leads width lead) : ∀ p ∈ f.pieces lead, Inside width p := by
  have within : lead.Within width := by
    obtain ⟨run, runs, column⟩ := hlead
    intro run' hrun
    rw [runs, List.mem_singleton] at hrun
    exact hrun ▸ column
  intro p hp
  refine ⟨coded_function lead f p hp, ?_⟩
  rw [Function.pieces, Function.opener] at inside hp
  cases async : f.async with
  | none =>
    rw [async] at inside hp
    rcases List.mem_cons.mp hp with rfl | hp
    · exact within
    · exact inside p (List.mem_cons_of_mem _ hp)
  | some space =>
    rw [async] at inside hp
    rcases List.mem_cons.mp hp with rfl | hp
    · exact within
    · exact inside p (List.mem_cons_of_mem _ hp)

/-- The body of a class. -/
theorem Facing.methods_eq (m : Methods V) (n : Nat) (h : Facing text c 0 offset (m.pieces ++ ps))
    (hs : StartsLine 0 ps) (hk : m.pieces.length ≤ k) :
    ∃ body c', suite (expression k) (statement (expression k) (n + 1)) c = .ok (body, c') ∧
      List.Forall₂ (Renders text) m.functions (definitionsOf body) ∧
      Facing text c' 0 (offset + (textOf m.pieces).length) ps := by
  cases m with
  | idle =>
    obtain ⟨c₁, read, h₁⟩ := h.suite_idle (expression k) (statement (expression k) (n + 1)) hs
    exact ⟨[.other], c₁, read, .nil, h₁.at (by simp [Methods.pieces])⟩
  | block width positive first more inside =>
    have room : (first :: more).length < c.bound := by
      have items := length_le_stacked Function.whole_eq width (lineStart width) (first :: more)
      have room := h.room
      rw [List.length_append, Methods.pieces] at room
      omega
    have starts : StartsLine width
        (stacked Function.whole width (lineStart width) (first :: more) ++ ps) := by
      obtain ⟨w, hw, qs, heq⟩ := first.whole_eq (lineStart width)
      rw [stacked, heq]
      exact ⟨rfl, rfl⟩
    obtain ⟨l, rest, heq, plain, gap⟩ := h.startsLine_eq starts
    have hread (f : Function V) (hf : f ∈ first :: more) {lead : Filler} {c : Cursor} {offset : Nat}
        {qs : List Printed} (hlead : Leads width lead)
          (h : Facing text c width offset (f.whole lead ++ qs))
        (line : ∃ column ≤ width, StartsLine column qs) (hk : (f.whole lead).length ≤ k) :
        ∃ header body c', statement (expression k) (n + 1) c = .ok ([.definition header body], c') ∧
          Renders text f ⟨header, body⟩ ∧ Facing text c' width
            (offset + (textOf (f.whole lead)).length) qs := by
      obtain ⟨column, _, line⟩ := line
      exact h.function_eq f n hlead (inside_lineStart f (inside f hf) hlead) line hk
    obtain ⟨body, c₁, ran, outline, h₁⟩ :=
      Facing.blockItems_eq Function.whole_eq (first :: more) hread
        (fun n before h => h.blockItems_closed positive hs n before) hs (leads_lineStart width)
        room [] (h.widen width) hk
    have inner : indented width (blockItems (statement (expression k) (n + 1)) c.bound []) c =
        .ok (body, { c₁ with width := c.width }) :=
      (bind_of_ok (get_eq c)).trans ((bind_of_ok rfl).trans ((bind_of_ok ran).trans rfl))
    rw [h.width] at inner
    refine ⟨body, { c₁ with width := 0 }, ?_, outline, h₁.widen 0⟩
    rw [suite, bind_of_ok (stepBound_eq c), bind_of_ok (trailing_eq heq plain _),
      bind_of_ok (get_eq c)]
    simp only [heq, gap, h.width, positive]
    exact inner

theorem Facing.class_eq (w : Class V) (n : Nat) (hlead : Leads 0 lead)
    (h : Facing text c 0 offset ((Written.Definition.classDef w).pieces lead ++ ps))
    (hs : StartsLine 0 ps) (hk : ((Written.Definition.classDef w).pieces lead).length ≤ k) :
    ∃ header body c', statement (expression k) (n + 2) c = .ok ([.definition header body], c') ∧
      Outlines text (.classDef w) ⟨header, body⟩ ∧
      Facing text c' 0 (offset + (textOf ((Written.Definition.classDef w).pieces lead)).length)
        ps := by
  have first := h
  rw [Definition.pieces, List.append_assoc] at h
  rw [Definition.pieces, List.length_append] at hk
  obtain ⟨start, started⟩ := here_eq c
  obtain ⟨header, c₁, read, kind, spelled, h₁⟩ := h.classHeader_eq w lead ⟨start, []⟩
    (inside_zero (coded_header lead w)) (Nat.le_of_add_right_le hk)
  obtain ⟨body, c₂, ran, outline, h₂⟩ := h₁.methods_eq w.methods n hs (Nat.le_of_add_left_le hk)
  obtain ⟨run, runs, _⟩ := hlead
  refine ⟨{ header with span := ⟨header.span.start, c₂.stop⟩ }, body, c₂, ?_,
    ⟨kind, spelled, outline⟩, h₂.at ?_⟩
  · rw [statement, statementOf, bind_of_ok (get_eq c), bind_of_ok started]
    obtain ⟨l, rest, hrest, token, _⟩ := first.head_eq rfl runs
    simp only [hrest, token, token_word]
    exact (bind_of_ok (definition_eq read ran)).trans rfl
  · rw [Definition.pieces, textOf_append, List.length_append, Nat.add_assoc]

theorem Facing.statement_eq (d : Written.Definition V) (n : Nat) (hlead : Leads 0 lead)
    (h : Facing text c 0 offset (d.pieces lead ++ ps)) (line : ∃ column ≤ 0, StartsLine column ps)
    (hk : (d.pieces lead).length ≤ k) :
    ∃ header body c', statement (expression k) (n + 2) c = .ok ([.definition header body], c') ∧
      Outlines text d ⟨header, body⟩ ∧ Facing text c' 0
        (offset + (textOf (d.pieces lead)).length) ps := by
  obtain ⟨column, zero, hs⟩ := line
  obtain rfl : column = 0 := Nat.le_zero.mp zero
  cases d with
  | function f => exact h.function_eq f (n + 1) hlead (inside_zero (coded_function lead f)) hs hk
  | classDef w => exact h.class_eq w n hlead hs hk

/-! Files. -/

/-- A file of definitions is read, and it has their outlines. -/
theorem parse_fileOf (path : String) (ds : List (Written.Definition V)) :
    ∃ source, SourceFile.parse path (fileOf ds) = .ok source ∧
      source.text = SourceText.ofChars (fileOf ds).toList ∧
      List.Forall₂ (Outlines (fileOf ds).toList) ds source.definitions := by
  have chars : (fileOf ds).toList = textOf (tokensOf ds) ++ ['\n'] := String.toList_ofList
  rw [chars]
  obtain ⟨ls, last, lexemes, laid, token, gap⟩ := lex_laid (fitting_tokensOf ds)
  have bound : (ls ++ [last]).length + 1 = ls.length + 2 := by simp
  have room : (tokensOf ds).length < ls.length + 2 :=
    Nat.lt_add_right 1 (Nat.lt_succ_of_le laid.length_le)
  have enough : ds.length < ls.length + 2 :=
    Nat.lt_of_le_of_lt (length_le_stacked Definition.pieces_eq 0 [] ds) room
  have facing : Facing (textOf (tokensOf ds) ++ ['\n']) ⟨ls ++ [last], 0, 0, ls.length + 2⟩ 0 0
      (tokensOf ds ++ []) := by
    rw [List.append_nil]
    exact ⟨rfl, rfl, room, ⟨ls, last, rfl, laid, token, gap⟩, ['\n'], rfl⟩
  obtain ⟨body, c', ran, outline, _⟩ := Facing.blockItems_eq Definition.pieces_eq ds
    (fun d _ {_ _ _ _} hlead h line hk => h.statement_eq d ls.length hlead line hk)
      Facing.blockItems_end rfl
    ⟨[], rfl, fun _ => Nat.zero_le _⟩ enough [] facing (Nat.le_of_lt room)
  have parsed : statements (lex (fileOf ds).toList) = .ok body := by
    rw [chars, lexemes, statements]
    simp only [bound, ran]
    rfl
  exact ⟨⟨path, SourceText.ofChars (fileOf ds).toList, body⟩,
    by simp only [SourceFile.parse, parsed], congrArg SourceText.ofChars chars, outline⟩

end

end RepoAtlas.Python
