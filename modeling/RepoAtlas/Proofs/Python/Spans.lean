import RepoAtlas.Proofs.Python.Lexemes
import RepoAtlas.Proofs.Python.Names
import RepoAtlas.Proofs.Python.Steady

/-!
Where definitions lie. A definition spans its decorators, its header and its body in this order, and
the definitions in a body lie inside the span of the definition that the body belongs to.
-/
namespace RepoAtlas.Python

/-! Lexemes that are left lie behind those that were taken. -/

theorem endAfter_mem (offset : Nat) {ls : List Lexeme} (h : ls ≠ []) :
    ∃ l ∈ ls, endAfter offset ls = l.span.stop := by
  induction ls generalizing offset with
  | nil => exact absurd rfl h
  | cons l ls ih =>
    by_cases hls : ls = []
    · subst hls
      exact ⟨l, List.mem_singleton_self l, rfl⟩
    · obtain ⟨l', hl', heq⟩ := ih l.span.stop hls
      exact ⟨l', List.mem_cons_of_mem _ hl', heq⟩

theorem Ordered.after {lo hi : Nat} {taken rest : List Lexeme} (h : Ordered lo hi (taken ++ rest)) :
    lo ≤ endAfter lo taken ∧ Ordered (endAfter lo taken) hi rest := by
  induction taken generalizing lo with
  | nil => exact ⟨Nat.le_refl _, h⟩
  | cons l taken ih =>
    have first := h.spans l List.mem_cons_self
    have ascending := List.pairwise_cons.mp h.ascending
    have rest : Ordered l.span.stop hi (taken ++ rest) :=
      ⟨first.2.2, fun l' hl' => ⟨ascending.1 l' hl', (h.spans l' (List.mem_cons_of_mem _ hl')).2⟩,
        ascending.2⟩
    obtain ⟨le, ordered⟩ := ih rest
    exact ⟨by simpa [endAfter] using Nat.le_trans (Nat.le_trans first.1 first.2.1) le, ordered⟩

namespace Cursor
variable {c c' : Cursor}

/-- The lexemes that are left lie between the cursor and the end of the text. -/
def Before (c : Cursor) (total : Nat) : Prop := Ordered c.stop total c.rest

def Follows (c : Cursor) (start : Nat) : Prop := ∀ l ∈ c.rest, start ≤ l.span.start

theorem Leads.before {total : Nat} (h : c.Leads c') (hc : c.Before total) :
    c.stop ≤ c'.stop ∧ c'.Before total := by
  obtain ⟨taken, heq, stop⟩ := h
  rw [Before, heq] at hc
  rw [Before, stop]
  exact hc.after

theorem Leads.follows {start : Nat} (h : c.Leads c') (hc : c.Follows start) : c'.Follows start := by
  obtain ⟨taken, heq, _⟩ := h
  intro l hl
  exact hc l (heq ▸ List.mem_append_right taken hl)

/-- The first of the lexemes that are left. -/
theorem Before.follows {total : Nat} {l : Lexeme} {rest : List Lexeme} (hc : c.Before total)
    (hrest : c.rest = l :: rest) : c.stop ≤ l.span.start ∧ c.Follows l.span.start := by
  rw [Before, hrest] at hc
  obtain ⟨start, le, _⟩ := hc.spans l List.mem_cons_self
  refine ⟨start, fun l' hl' => ?_⟩
  rcases List.mem_cons.mp (hrest ▸ hl') with rfl | hl'
  · exact Nat.le_refl _
  · exact Nat.le_trans le ((List.pairwise_cons.mp hc.ascending).1 l' hl')

/-- A cursor that has passed a lexeme stands behind the start of it. -/
theorem Passes.le_stop {start total : Nat} (h : c.Passes c') (hc : c.Before total)
    (hs : c.Follows start) : start ≤ c'.stop := by
  obtain ⟨taken, some, heq, stop⟩ := h
  obtain ⟨l, hl, last⟩ := endAfter_mem c.stop some
  have mem : l ∈ c.rest := heq ▸ List.mem_append_left c'.rest hl
  rw [stop, last]
  exact Nat.le_trans (hs l mem) (hc.spans l mem).2.1

end Cursor

/-! Headers. -/

theorem expect_passes {m : Mode} {t : Token} {c c' : Cursor} (h : expect m t c = some ((), c')) :
    c.Passes c' := by
  obtain ⟨t', next, hlook, hrest⟩ := bind_eq_some h
  obtain ⟨_, _, heq⟩ := Option.map_eq_some_iff.mp hlook
  obtain ⟨_, rfl⟩ := Prod.mk.inj heq
  by_cases same : (t' == t) = true
  · rw [if_pos same] at hrest
    obtain ⟨_, _, hadvance, hdone⟩ := bind_eq_some hrest
    cases hdone
    exact advance_passes hadvance
  · rw [if_neg same] at hrest
    cases hrest

/-- A header starts at an offset and ends at the last lexeme before its colon. -/
def Heads (start : Nat) (header : Parser Header) (c : Cursor) : Prop :=
  ∀ h c', header c = some (h, c') →
    h.span.start = start ∧ ∃ last, c.Leads last ∧ last.Leads c' ∧ h.stop = last.stop

section
variable {start : Nat} {c : Cursor}

theorem heads_bind {α : Type} {p : Parser α} [hp : Steady p] {f : α → Parser Header}
    (hf : ∀ a next, Heads start (f a) next) : Heads start (p >>= f) c := by
  intro h c' heq
  obtain ⟨a, next, ha, hnext⟩ := bind_eq_some heq
  obtain ⟨starts, last, leads, rest, stop⟩ := hf a next h c' hnext
  exact ⟨starts, last, (hp.leads ha).trans leads, rest, stop⟩

theorem heads_ite {q : Prop} [Decidable q] {p p' : Parser Header} (hp : Heads start p c)
    (hp' : Heads start p' c) : Heads start (if q then p else p') c := by
  split
  · exact hp
  · exact hp'

/-- The end of a header is noted before the colon is read. -/
theorem heads_colon {make : Nat → Header} (h : ∀ stop, (make stop).span.start = start)
    (h' : ∀ stop, (make stop).stop = stop) :
    Heads start (do let stop ← lastStop; colon; return make stop) c := by
  intro header c' heq
  obtain ⟨stop, next, hstop, heq⟩ := bind_eq_some heq
  cases hstop
  obtain ⟨_, next, hcolon, heq⟩ := bind_eq_some heq
  cases heq
  exact ⟨h _, c, .refl c, colon_steady.leads hcolon, h' _⟩

end

def Headed (start : Nat) (header : Parser Header) : Prop :=
  ∀ c h c', header c = some (h, c') →
    h.span.start = start ∧ ∃ last, c.Passes last ∧ last.Leads c' ∧ h.stop = last.stop

/-- A word comes first. -/
theorem headed_word {start : Nat} {m : Mode} {word : String} {f : Unit → Parser Header}
    (hf : ∀ u next, Heads start (f u) next) : Headed start (expectWord m word >>= f) := by
  intro c h c' heq
  obtain ⟨_, next, hword, hnext⟩ := bind_eq_some heq
  obtain ⟨starts, last, leads, rest, stop⟩ := hf _ next h c' hnext
  exact ⟨starts, last, (expect_passes hword).trans leads, rest, stop⟩

theorem headed_bind {α : Type} {start : Nat} {p : Parser α} [hp : Steady p] {f : α → Parser Header}
    (hf : ∀ a, Headed start (f a)) : Headed start (p >>= f) := by
  intro c h c' heq
  obtain ⟨a, next, ha, hnext⟩ := bind_eq_some heq
  obtain ⟨starts, last, passes, rest, stop⟩ := hf a next h c' hnext
  exact ⟨starts, last, (hp.leads ha).passes passes, rest, stop⟩

section
variable {nested : Nested} [∀ p, Steady (nested p)] (o : Opening) (first : Mode)

theorem functionHeader_headed : Headed o.start (functionHeader nested o first) := by
  refine headed_bind fun async => headed_word fun _ _ => heads_bind fun name _ => ?_
  refine heads_bind fun typeParams _ => heads_bind fun _ _ => heads_bind fun ps _ => ?_
  refine heads_bind fun returning _ => ?_
  extract_lets rest
  have last : ∀ returns c, Heads o.start (rest returns) c := fun returns c =>
    heads_colon (fun _ => rfl) fun _ => rfl
  exact heads_ite (heads_bind fun _ _ => heads_bind fun _ _ => heads_bind last) (heads_bind last)

theorem classHeader_headed : Headed o.start (classHeader nested o first) := by
  refine headed_word fun _ _ => heads_bind fun name _ => heads_bind fun typeParams _ => ?_
  refine heads_bind fun called _ => ?_
  extract_lets rest
  have last : ∀ arguments c, Heads o.start (rest arguments) c := fun arguments c =>
    heads_colon (fun _ => rfl) fun _ => rfl
  exact heads_ite (heads_bind last) (heads_bind last)

end

/-! Statements. -/

/-- A statement that lies between two offsets: its decorators, its header and its body come in this
order, and whatever the body defines lies inside it. -/
inductive Stmt.Within : Nat → Nat → Stmt → Prop where
  | plain {lo hi : Nat} {s : Stmt} : s.Plain → s.Within lo hi
  | definition {lo hi : Nat} {header : Header} {body : List Stmt} : lo ≤ header.span.start →
      header.span.start ≤ header.stop → header.stop ≤ header.span.stop → header.span.stop ≤ hi →
      (∀ s ∈ body, s.Within header.span.start header.span.stop) →
      (Stmt.definition header body).Within lo hi

theorem Stmt.Within.mono {lo hi lo' hi' : Nat} {s : Stmt} (h : s.Within lo hi) (hlo : lo' ≤ lo)
    (hhi : hi ≤ hi') : s.Within lo' hi' := by
  cases h with
  | plain plain => exact .plain plain
  | definition start header stop last body =>
    exact .definition (Nat.le_trans hlo start) header stop (Nat.le_trans last hhi) body

def AllWithin (lo hi : Nat) (ss : List Stmt) : Prop := ∀ s ∈ ss, s.Within lo hi

theorem AllWithin.mono {lo hi lo' hi' : Nat} {ss : List Stmt} (h : AllWithin lo hi ss)
    (hlo : lo' ≤ lo) (hhi : hi ≤ hi') : AllWithin lo' hi' ss :=
  fun s hs => (h s hs).mono hlo hhi

theorem allWithin_of_plain {lo hi : Nat} {ss : List Stmt} (h : ∀ s ∈ ss, s.Plain) :
    AllWithin lo hi ss :=
  fun s hs => .plain (h s hs)

def Places (total : Nat) (b : Blocks (List Stmt)) : Prop :=
  ∀ c, c.Before total → Ensures c b fun ss c' => AllWithin c.stop c'.stop ss

theorem blockItems_places {total : Nat} {statement : Blocks (List Stmt)} [Onward statement]
    (hs : Places total statement) (n : Nat) {lo : Nat} {before : List Stmt} {c : Cursor}
    (hc : c.Before total) (hlo : lo ≤ c.stop) (hb : AllWithin lo c.stop before) :
    Ensures c (blockItems statement n before) fun ss c' => AllWithin lo c'.stop ss := by
  have done : Ensures c (pure before.reverse) fun ss c' => AllWithin lo c'.stop ss :=
    ensures_pure fun s hs => hb s (List.mem_reverse.mp hs)
  induction n generalizing before c with
  | zero => exact done
  | succ n ih =>
    -- What one item adds to the statements, whichever way the cursor got behind it.
    have next (more : List Stmt) {c' : Cursor} (leads : c.Leads c')
        (hmore : AllWithin c.stop c'.stop more) :
        Ensures c' (blockItems statement n (more ++ before)) fun ss c' =>
          AllWithin lo c'.stop ss := by
      obtain ⟨le, before'⟩ := leads.before hc
      have all : AllWithin lo c'.stop (more ++ before) :=
        List.forall_mem_append.mpr ⟨hmore.mono hlo (Nat.le_refl _), hb.mono (Nat.le_refl _) le⟩
      exact ih before' (Nat.le_trans hlo le) all
        (ensures_pure fun s hs => all s (List.mem_reverse.mp hs))
    refine ensures_get ?_
    split
    · exact done
    · rename_i l rest hrest
      have first : c.Leads { c with rest := rest, stop := l.span.stop } := ⟨[l], hrest, rfl⟩
      split
      · exact done
      · split
        · exact done
        · exact ensures_take (next [] first (by simp [AllWithin]))
        · refine ensures_take (next [.continuation] first ?_)
          exact List.forall_mem_singleton.mpr (.plain rfl)
        · refine ensures_bind (hs c hc).leads fun ss c' h => next ss.reverse h.1 ?_
          exact fun s hs => h.2 s (List.mem_reverse.mp hs)

theorem suite_places {total : Nat} {nested : Nested} [∀ p, Steady (nested p)]
    {statement : Blocks (List Stmt)} [Onward statement] (h : Places total statement) :
    Places total (suite nested statement) := by
  intro c hc
  refine ensures_bind (ensures_onward stepBound) fun n c₁ leads₁ => ?_
  refine ensures_bind (ensures_onward (trailing n)) fun _ c₂ leads₂ => ?_
  obtain ⟨le, hc₂⟩ := (leads₁.trans leads₂).before hc
  refine ensures_get ?_
  split
  · exact ensures_pure (by simp [AllWithin])
  · split
    · exact fun ss c' heq => allWithin_of_plain (simpleLine_plain nested _ (by simp) _ ss c' heq)
    · split
      · exact ensures_indented (blockItems_places h _ hc₂ le (by simp [AllWithin]))
      · exact ensures_pure (by simp [AllWithin])

section
variable {total : Nat} {k : Context} [Onward k.body]

theorem definition_within (hk : Places total k.body) {o : Opening} {header : Parser Header}
    (hh : Headed o.start header) {lo : Nat} {c : Cursor} (hc : c.Before total)
    (hs : c.Follows o.start) (hlo : lo ≤ o.start) :
    Ensures c (definition k o header) fun s c' => s.Within lo c'.stop := by
  refine ensures_bind (ensures_from (hh c)) fun h c₁ heads => ?_
  obtain ⟨starts, last, passes, leads, stop⟩ := heads
  have start_le : o.start ≤ last.stop := passes.le_stop hc hs
  obtain ⟨last_le, hc₁⟩ := leads.before (passes.leads.before hc).2
  refine ensures_bind (hk c₁ hc₁).leads fun body c₂ inner => ensures_get (ensures_pure ?_)
  obtain ⟨body_le, _⟩ := inner.1.before hc₁
  apply Stmt.Within.definition
  · exact starts ▸ hlo
  · exact stop ▸ starts ▸ start_le
  · exact stop ▸ Nat.le_trans last_le body_le
  · exact Nat.le_refl _
  · exact inner.2.mono (starts ▸ Nat.le_trans start_le last_le) (Nat.le_refl _)

variable [∀ p, Steady (k.nested p)]

theorem decorated_within (hk : Places total k.body) {start lo : Nat} (hlo : lo ≤ start) (n : Nat)
    (before : List (Option Expr)) {c : Cursor} (hc : c.Before total) (hs : c.Follows start) :
    Ensures c (decorated k start n before) fun s c' => s.Within lo c'.stop := by
  induction n generalizing before c with
  | zero =>
    intro s c' heq
    cases heq
  | succ n ih =>
    refine ensures_bind (ensures_onward _) fun t c₁ leads => ?_
    have hc₁ := (leads.before hc).2
    have hs₁ := leads.follows hs
    split
    · refine ensures_bind (ensures_onward _) fun d c₂ leads₂ => ?_
      exact ih _ (leads₂.before hc₁).2 (leads₂.follows hs₁)
    · exact definition_within hk (classHeader_headed _ _) hc₁ hs₁ hlo
    · exact definition_within hk (functionHeader_headed _ _) hc₁ hs₁ hlo
    · exact definition_within hk (functionHeader_headed _ _) hc₁ hs₁ hlo
    · intro s c' heq
      cases heq

theorem statementOf_places (hk : Places total k.body) : Places total (statementOf k) := by
  intro c hc
  have one {c₁ : Cursor} (s : Blocks Stmt) (h : Ensures c₁ s fun s c' => s.Within c.stop c'.stop) :
      Ensures c₁ (do return [← s]) fun ss c' => AllWithin c.stop c'.stop ss :=
    ensures_bind h fun s c' within => ensures_pure (List.forall_mem_singleton.mpr within)
  have other {c₁ : Cursor} (s : Blocks Stmt) (h : Delivers Stmt.Plain s) :
      Ensures c₁ (do return [← s]) fun ss c' => AllWithin c.stop c'.stop ss :=
    one s fun s c' heq => .plain (h _ s c' heq)
  have plain {b : Blocks (List Stmt)} (h : Delivers (fun ss => ∀ s ∈ ss, s.Plain) b) :
      Ensures c b fun ss c' => AllWithin c.stop c'.stop ss :=
    fun ss c' heq => allWithin_of_plain (h c ss c' heq)
  have simple (n : Nat) : Delivers (fun ss => ∀ s ∈ ss, s.Plain) (simpleLine k.nested n []) :=
    simpleLine_plain k.nested n (by simp)
  refine ensures_get (ensures_here ?_)
  dsimp only
  split
  · exact ensures_pure (by simp [AllWithin])
  · rename_i l rest hrest
    obtain ⟨le, follows⟩ := hc.follows hrest
    simp only [hrest, List.head?_cons, Option.map_some, Option.getD_some]
    split
    case h_1 => exact one _ (decorated_within hk le _ _ hc follows)
    case h_2 => exact other _ (ifStatement_plain _ _)
    case h_3 => exact other _ (whileStatement_plain _ _)
    case h_4 => exact other _ (forStatement_plain _ _ _)
    case h_5 => exact other _ (withStatement_plain _ _ _)
    case h_6 => exact other _ (tryStatement_plain _ _)
    case h_7 => exact one _ (definition_within hk (functionHeader_headed _ _) hc follows le)
    case h_8 => exact one _ (definition_within hk (classHeader_headed _ _) hc follows le)
    case h_9 => exact plain (matchStatement_plain k (simple _))
    case h_10 =>
      split
      · exact one _ (definition_within hk (functionHeader_headed _ _) hc follows le)
      · exact ensures_take (other _ (forStatement_plain _ _ _))
      · exact ensures_take (other _ (withStatement_plain _ _ _))
      · exact plain (simple _)
    case h_11 => exact plain (simple _)

end

theorem statement_places {total : Nat} {nested : Nested} [∀ p, Steady (nested p)] (n : Nat) :
    Places total (statement nested n) := by
  induction n with
  | zero =>
    intro c _
    exact ensures_here fun ss c' heq => by cases heq
  | succ n ih =>
    unfold statement
    exact statementOf_places (suite_places ih)

theorem statements_within {total : Nat} {lexemes : List Lexeme} {body : List Stmt}
    (h : Ordered 0 total lexemes) (heq : statements lexemes = .ok body) :
    AllWithin 0 total body := by
  obtain ⟨c', hb⟩ := statements_eq_ok heq
  have hc : Cursor.Before ⟨lexemes, 0, 0, lexemes.length + 1⟩ total := h
  have nothing : AllWithin 0 0 [] := by simp [AllWithin]
  have places := blockItems_places (statement_places _) _ hc (Nat.le_refl 0) nothing body c' hb
  have leads := (blockItems_onward _ _ _).leads hb
  exact places.mono (Nat.le_refl 0) (leads.before hc).2.le

end RepoAtlas.Python
