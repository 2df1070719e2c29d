import RepoAtlas.Proofs.Python.Standing
import RepoAtlas.Proofs.Python.Written

/-!
Imports are read back. Whatever import statements are printed, the text has statements, and the
imports of the file are those that the statements stand for, in the same order.
-/
namespace RepoAtlas.Python
open RepoAtlas.Text

/-! Names and lists of names. -/

section
open Written
variable {text : List Char} {c : Cursor} {offset : Nat} {ps : List Piece} {first rest : Mode}

theorem Stands.at {offset' : Nat} (h : Stands text c offset ps) (heq : offset = offset') :
    Stands text c offset' ps := heq ▸ h

theorem length_le_flatMap {α β : Type} (f : α → List β) (h : ∀ x, f x ≠ []) (xs : List α) :
    xs.length ≤ (xs.flatMap f).length := by
  induction xs with
  | nil => exact Nat.le_refl 0
  | cons x xs ih =>
    have := List.length_pos_iff.mpr (h x)
    rw [List.flatMap_cons, List.length_append, List.length_cons]
    omega

theorem Stands.members_eq (names : List Name) (n : Nat) (hn : names.length < n)
    (h : Stands text c offset (memberPieces names ++ ps)) (hrest : seen rest ps ≠ .symbol ".") :
    ∃ c', dottedName.members rest n c = some ((), c') ∧
      Stands text c' (offset + (charsOf (memberPieces names)).length) ps := by
  obtain ⟨n, rfl⟩ : ∃ k, n = k + 1 := ⟨n - 1, by omega⟩
  induction names generalizing n c offset with
  | nil =>
    refine ⟨c, ?_, h⟩
    rw [dottedName.members, bind_of_some (h.noSymbol hrest)]
    rfl
  | cons name names ih =>
    obtain ⟨c₁, dot, h₁⟩ := h.acceptSymbol_eq (m := rest) (by simp)
    obtain ⟨c₂, named, h₂⟩ := h₁.identifier_eq (m := .unfinished) (by simp)
    obtain ⟨n, rfl⟩ : ∃ k, n = k + 1 := ⟨n - 1, by simp at hn; omega⟩
    obtain ⟨c₃, others, h₃⟩ := ih h₂ n (by simpa using hn)
    refine ⟨c₃, ?_, h₃.at ?_⟩
    · rw [dottedName.members, bind_of_some dot, if_pos rfl, bind_of_some named, others]
    · simp [memberPieces, chars_word, chars_symbol]
      omega

theorem Stands.dottedName_eq (first : Mode) (d : Dotted) {gap : List Char}
    (h : Stands text c offset (d.pieces gap ++ ps)) (hfirst : first = .line → '\n' ∉ gap)
    (hrest : seen rest ps ≠ .symbol ".") :
    ∃ span c', dottedName first rest c = some (span, c') ∧
      (SourceText.ofChars text).text span = d.text ∧
      Stands text c' (offset + (charsOf (d.pieces gap)).length) ps := by
  have part := h.part (charsOf_dotted gap d)
  obtain ⟨c₁, named, h₁⟩ := Stands.identifier_eq (m := first) h hfirst
  have enough : d.more.length < c₁.bound := by
    have members : d.more.length ≤ (memberPieces d.more).length :=
      length_le_flatMap _ (fun _ => List.cons_ne_nil _ _) d.more
    exact Nat.lt_of_le_of_lt (Nat.le_trans members (List.prefix_append _ _).length_le) h₁.room
  obtain ⟨c₂, others, h₂⟩ := Stands.members_eq d.more c₁.bound enough h₁ hrest
  have stop : offset + (gap ++ d.first.text.toList).length +
      (charsOf (memberPieces d.more)).length = offset + (charsOf (d.pieces gap)).length := by
    simp [Dotted.pieces, chars_word, Nat.add_assoc]
  refine ⟨⟨offset + gap.length, offset + (charsOf (d.pieces gap)).length⟩, c₂, ?_, ?_, h₂.at stop⟩
  · rw [dottedName, bind_of_some named]
    change (bound >>= fun n => dottedName.members rest n >>= fun _ => _) c₁ = _
    rw [bind_of_some (bound_eq c₁), bind_of_some others, bind_of_some h₂.lastStop_eq, stop]
    rfl
  · rw [SourceText.text, part, String.ofList_toList]

def itemEnds : List Token := [.lineEnd, .symbol ",", .symbol ")"]

def Means (text : List Char) (i : Item) (item : ImportItem) : Prop :=
  (SourceText.ofChars text).text item.path = i.path.text ∧ item.boundAs = i.given.map Name.text

theorem Stands.importItem_eq (first : Mode) (i : Item) {gap : List Char}
    (h : Stands text c offset (i.pieces gap ++ ps)) (hfirst : first = .line → '\n' ∉ gap)
    (hend : seen rest ps ∈ itemEnds) :
    ∃ item c', importItem first rest c = some (item, c') ∧ Means text i item ∧
      Stands text c' (offset + (charsOf (i.pieces gap)).length) ps := by
  rw [Item.pieces, List.append_assoc] at h
  cases given : i.given with
  | none =>
    rw [given] at h
    have noDot : seen rest ps ≠ .symbol "." := fun heq => absurd (heq ▸ hend) (by decide)
    have noAs : seen rest ps ≠ .word "as" := fun heq => absurd (heq ▸ hend) (by decide)
    obtain ⟨span, c₁, path, spelled, h₁⟩ := h.dottedName_eq first i.path hfirst noDot
    refine ⟨⟨span, none⟩, c₁, ?_, ⟨spelled, by rw [given]; rfl⟩, h₁.at ?_⟩
    · rw [importItem, bind_of_some path, bind_of_some (h₁.noWord noAs)]
      rfl
    · simp [Item.pieces, given]
  | some name =>
    rw [given] at h
    have word : seen rest (.word [' '] "as" :: .word [' '] name.text :: ps) = .word "as" :=
      seen_cons (by simp [Piece.gap]) _
    have noDot : seen rest (.word [' '] "as" :: .word [' '] name.text :: ps) ≠ .symbol "." := by
      rw [word]
      simp
    obtain ⟨span, c₁, path, spelled, h₁⟩ := h.dottedName_eq first i.path hfirst noDot
    obtain ⟨c₂, renamed, h₂⟩ := h₁.acceptWord_eq (m := rest) (by simp)
    obtain ⟨c₃, named, h₃⟩ := h₂.identifier_eq (m := .unfinished) (by simp)
    refine ⟨⟨span, some name.text⟩, c₃, ?_, ⟨spelled, by rw [given]; rfl⟩, h₃.at ?_⟩
    · rw [importItem, bind_of_some path, bind_of_some renamed, if_pos rfl, bind_of_some named]
      rfl
    · simp [Item.pieces, given, chars_word]
      omega

theorem seen_comma (m : Mode) (ps : List Piece) : seen m (.symbol [] "," :: ps) = .symbol "," :=
  seen_cons (by simp [Piece.gap]) ps

theorem seen_item (i : Item) {gap : List Char} {m : Mode} (h : m = .line → '\n' ∉ gap) :
    seen m (i.pieces gap ++ ps) = .word i.path.first.text :=
  seen_cons h _

/-- Items up to the end of the line. -/
theorem Stands.importLine_steps (first : Mode) (i : Item) (more : List Item) (n : Nat)
    (hn : more.length < n) (h : Stands text c offset (linePieces i more ++ ps))
    (hend : seen .line ps = .lineEnd) :
    ∃ items c', importLine first n c = some (items, c') ∧
      List.Forall₂ (Means text) (i :: more) items ∧
      Stands text c' (offset + (charsOf (linePieces i more)).length) ps := by
  obtain ⟨n, rfl⟩ : ∃ k, n = k + 1 := ⟨n - 1, by omega⟩
  induction more generalizing first i n c offset with
  | nil =>
    have pieces : linePieces i [] = i.pieces [' '] := List.append_nil _
    rw [pieces] at h ⊢
    have last : seen .line ps ∈ itemEnds := by
      rw [hend]
      decide
    obtain ⟨item, c₁, read, means, h₁⟩ := h.importItem_eq first i (by simp) last
    refine ⟨[item], c₁, ?_, .cons means .nil, h₁⟩
    rw [importLine, bind_of_some read, bind_of_some (h₁.noSymbol (by rw [hend]; simp))]
    rfl
  | cons j more ih =>
    have pieces : linePieces i (j :: more) = i.pieces [' '] ++ .symbol [] "," ::
        linePieces j more := rfl
    rw [pieces, List.append_assoc, List.cons_append] at h
    obtain ⟨item, c₁, read, means, h₁⟩ :=
      h.importItem_eq first i (by simp) (by rw [seen_comma .line]; decide)
    obtain ⟨c₂, another, h₂⟩ := h₁.acceptSymbol_eq (m := .line) (by simp)
    have next : seen .line (linePieces j more ++ ps) = .word j.path.first.text := by
      rw [linePieces, List.append_assoc]
      exact seen_item j (by simp)
    obtain ⟨n, rfl⟩ : ∃ k, n = k + 1 := ⟨n - 1, by simp at hn; omega⟩
    obtain ⟨items, c₃, others, meant, h₃⟩ := ih .line j h₂ n (by simpa using hn)
    refine ⟨item :: items, c₃, ?_, .cons means meant, h₃.at ?_⟩
    · rw [importLine, bind_of_some read, bind_of_some another, if_pos rfl,
        bind_of_some (h₂.look_eq next), if_neg (by simp), bind_of_some others]
      rfl
    · simp [pieces, chars_symbol]
      omega

theorem length_le_morePieces (items : List (List Char × Item)) :
    items.length ≤ (morePieces items).length :=
  length_le_flatMap _ (fun _ => List.cons_ne_nil _ _) items

theorem Stands.importLine_eq (first : Mode) (i : Item) (more : List Item)
    (h : Stands text c offset (linePieces i more ++ ps)) (hend : seen .line ps = .lineEnd) :
    ∃ items c', importLine first c.bound c = some (items, c') ∧
      List.Forall₂ (Means text) (i :: more) items ∧
      Stands text c' (offset + (charsOf (linePieces i more)).length) ps := by
  have enough : more.length < c.bound := by
    have items := length_le_morePieces (more.map fun i => ([' '], i))
    have room := h.room
    simp only [linePieces, List.length_append, List.length_map] at room items
    omega
  exact h.importLine_steps first i more c.bound enough hend

theorem seen_morePieces (items : List (List Char × Item)) (comma : Bool) (closing : List Char) :
    seen .bracket (morePieces items ++ closePieces comma closing ++ ps) ∈ itemEnds := by
  cases items with
  | nil => cases comma <;> simp [morePieces, closePieces, seen, Piece.token, itemEnds]
  | cons => simp [morePieces, seen, Piece.token, itemEnds]

/-- Items in parentheses, after the first. -/
theorem Stands.moreItems_eq (items : List (List Char × Item)) (comma : Bool) (closing : List Char)
    (n : Nat) (hn : items.length < n)
    (h : Stands text c offset (morePieces items ++ closePieces comma closing ++ ps)) :
    ∃ read c', moreItems (importItem .bracket .bracket) ")" n c = some (read, c') ∧
      List.Forall₂ (Means text) (items.map Prod.snd) read ∧
      Stands text c' (offset + (charsOf (morePieces items ++ closePieces comma closing)).length)
        ps := by
  obtain ⟨n, rfl⟩ : ∃ k, n = k + 1 := ⟨n - 1, by omega⟩
  induction items generalizing n c offset with
  | nil =>
    cases comma with
    | false =>
      obtain ⟨c₁, closed, h₁⟩ := Stands.acceptSymbol_eq (m := .bracket) h (by simp)
      refine ⟨[], c₁, ?_, .nil, h₁.at (by simp [morePieces, closePieces, chars_symbol])⟩
      rw [moreItems, bind_of_some closed]
      rfl
    | true =>
      have notClosed : seen .bracket (.symbol [] "," :: .symbol closing ")" :: ps) ≠
          .symbol ")" := by
        simp [seen_comma]
      obtain ⟨c₁, last, h₁⟩ := Stands.expectSymbol_eq (m := .bracket) h (by simp)
      obtain ⟨c₂, closed, h₂⟩ := Stands.acceptSymbol_eq (m := .bracket) h₁ (by simp)
      refine ⟨[], c₂, ?_, .nil, h₂.at (by simp [morePieces, closePieces, chars_symbol]; omega)⟩
      rw [moreItems, bind_of_some (h.noSymbol notClosed), if_neg (by simp), bind_of_some last,
        bind_of_some closed]
      rfl
  | cons i items ih =>
    have pieces : morePieces (i :: items) ++ closePieces comma closing ++ ps =
        .symbol [] "," ::
          (i.2.pieces i.1 ++ (morePieces items ++ closePieces comma closing ++ ps)) := by
      simp [morePieces]
    rw [pieces] at h
    obtain ⟨c₁, another, h₁⟩ := h.expectSymbol_eq (m := .bracket) (by simp)
    obtain ⟨item, c₂, read, means, h₂⟩ :=
      h₁.importItem_eq .bracket i.2 (by simp) (seen_morePieces items comma closing)
    obtain ⟨n, rfl⟩ : ∃ k, n = k + 1 := ⟨n - 1, by simp at hn; omega⟩
    obtain ⟨others, c₃, rest, meant, h₃⟩ := ih h₂ n (by simpa using hn)
    refine ⟨item :: others, c₃, ?_, .cons means meant, h₃.at ?_⟩
    · rw [moreItems, bind_of_some (h.noSymbol (by simp [seen_comma])), if_neg (by simp),
        bind_of_some another, bind_of_some (h₁.noSymbol (by simp [seen_item])), if_neg (by simp),
        bind_of_some read, bind_of_some rest]
      rfl
    · simp [morePieces, chars_symbol]
      omega

theorem Stands.importList_eq (names : Names) {items : List Item}
    (hitems : names.items? = some items) (h : Stands text c offset (names.pieces ++ ps))
    (hend : seen .line ps = .lineEnd) :
    ∃ read c', importList c = some (read, c') ∧ List.Forall₂ (Means text) items read ∧
      Stands text c' (offset + (charsOf names.pieces).length) ps := by
  cases names with
  | wildcard => cases hitems
  | line i more =>
    obtain rfl := Option.some.inj hitems
    have noParens : seen .unfinished (linePieces i more ++ ps) ≠ .symbol "(" := by
      simp [linePieces, seen_item]
    obtain ⟨read, c₁, line, meant, h₁⟩ := Stands.importLine_eq .unfinished i more h hend
    refine ⟨read, c₁, ?_, meant, h₁⟩
    rw [importList, bind_of_some (Stands.noSymbol h noParens), if_neg (by simp),
      bind_of_some (bound_eq c), line]
  | parens i more comma closing =>
    obtain rfl := Option.some.inj hitems
    generalize hothers : more.map (fun i => (i.1.chars, i.2)) = others
    have meant_others : more.map Prod.snd = others.map Prod.snd := by
      rw [← hothers, List.map_map]
      rfl
    have pieces : (Names.parens i more comma closing).pieces = .symbol [' '] "(" ::
        (i.2.pieces i.1.chars ++ (morePieces others ++ closePieces comma closing.chars)) := by
      rw [← hothers]
      rfl
    rw [pieces, List.cons_append, List.append_assoc] at h
    obtain ⟨c₁, opened, h₁⟩ := h.acceptSymbol_eq (m := .unfinished) (by simp)
    obtain ⟨item, c₂, first, means, h₂⟩ :=
      h₁.importItem_eq .unfinished i.2 (by simp) (seen_morePieces others comma closing.chars)
    have enough : others.length < c₂.bound := by
      have items := length_le_morePieces others
      have room := h₂.room
      simp only [List.length_append] at room
      omega
    obtain ⟨read, c₃, more, meant, h₃⟩ := h₂.moreItems_eq others comma closing.chars c₂.bound enough
    refine ⟨item :: read, c₃, ?_, .cons means (meant_others ▸ meant), h₃.at ?_⟩
    · rw [importList, bind_of_some opened, if_pos rfl, bind_of_some first,
        bind_of_some (bound_eq c₂), bind_of_some more]
      rfl
    · simp [pieces, chars_symbol]
      omega

/-! Statements. -/

def dotTokens : List Token := [.symbol ".", .symbol "..."]

theorem mem_dotTokens {t : Token} :
    (t == .symbol "." || t == .symbol "...") = true ↔ t ∈ dotTokens := by
  simp [dotTokens]

theorem token_dotPieces (gap : List Char) (n : Nat) :
    ∀ p ∈ dotPieces gap n, p.token ∈ dotTokens := by
  fun_induction dotPieces gap n with
  | case1 => simp
  | case2 | case3 => simp [Piece.token, dotTokens]
  | case4 gap n ih => exact List.forall_mem_cons.mpr ⟨by simp [Piece.token, dotTokens], ih⟩

theorem dotPieces_pos (gap : List Char) {n : Nat} (h : 0 < n) :
    ∃ s more, dotPieces gap n = .symbol gap s :: more := by
  fun_cases dotPieces gap n with
  | case1 => cases h
  | case2 | case3 | case4 => exact ⟨_, _, rfl⟩

theorem Stands.importDots_eq {dots : List Piece} (hdots : ∀ p ∈ dots, p.token ∈ dotTokens) (n : Nat)
    (hn : dots.length < n) (h : Stands text c offset (dots ++ ps))
    (hnext : seen .unfinished ps ∉ dotTokens) :
    ∃ c', importDots n c = some ((), c') ∧ Stands text c' (offset + (charsOf dots).length) ps := by
  obtain ⟨n, rfl⟩ : ∃ k, n = k + 1 := ⟨n - 1, by omega⟩
  induction dots generalizing n c offset with
  | nil =>
    refine ⟨c, ?_, h⟩
    rw [importDots, bind_of_some (h.look_eq rfl), List.nil_append,
      if_neg (mt mem_dotTokens.mp hnext)]
    rfl
  | cons p dots ih =>
    obtain ⟨n, rfl⟩ : ∃ k, n = k + 1 := ⟨n - 1, by simp at hn; omega⟩
    obtain ⟨dot, others⟩ := List.forall_mem_cons.mp hdots
    have next : seen .unfinished (p :: (dots ++ ps)) = p.token := seen_cons (by simp) _
    obtain ⟨l, c₁, taken, _, h₁⟩ := h.advance_eq next
    obtain ⟨c₂, rest, h₂⟩ := ih others h₁ n (by simpa using hn)
    refine ⟨c₂, ?_, h₂.at ?_⟩
    · rw [importDots, bind_of_some (h.look_eq next), if_pos (mem_dotTokens.mpr dot),
        bind_of_some taken, rest]
    · rw [charsOf_cons, List.length_append, Nat.add_assoc]

theorem level_dots (dots : Nat) :
    unitLength (String.ofList ((List.replicate dots '.').filter fun c => !isBlank c)) = dots := by
  have kept : (List.replicate dots '.').filter (fun c => !isBlank c) = List.replicate dots '.' := by
    rw [List.filter_replicate_of_pos (by decide)]
  have one : unitsOf '.' = [46] := by decide
  rw [kept, unitLength, units, String.toList_ofList, List.flatMap_replicate, one]
  simp

/-- The span of the dots of a relative import, which gives its level. -/
theorem Stands.dots_eq {dots : Nat} (hpos : 0 < dots) {gap : List Char}
    (h : Stands text c offset (dotPieces gap dots ++ ps))
    (hnext : seen .unfinished ps ∉ dotTokens) :
    ∃ s span c', seen .unfinished (dotPieces gap dots ++ ps) = .symbol s ∧ .symbol s ∈ dotTokens ∧
      startOffset .unfinished c = some (span.start, c) ∧ importDots c.bound c = some ((), c') ∧
      (SourceText.ofChars text).level (some span) = dots ∧ Stands text c' span.stop ps ∧
      span.stop = offset + (charsOf (dotPieces gap dots)).length := by
  have enough : (dotPieces gap dots).length < c.bound := by
    have room := h.room
    rw [List.length_append] at room
    omega
  have chars : charsOf (dotPieces gap dots) = gap ++ List.replicate dots '.' := by
    rw [charsOf_dots, if_neg (Nat.pos_iff_ne_zero.mp hpos)]
  have tokens := token_dotPieces gap dots
  obtain ⟨c₁, counted, h₁⟩ := h.importDots_eq tokens c.bound enough hnext
  have level : (SourceText.ofChars text).level
      (some ⟨offset + gap.length, offset + (charsOf (dotPieces gap dots)).length⟩) = dots := by
    rw [SourceText.level, h.part chars]
    exact level_dots dots
  obtain ⟨s, others, pieces⟩ := dotPieces_pos gap hpos
  rw [pieces] at h tokens
  refine ⟨s, ⟨_, _⟩, c₁, ?_, tokens _ List.mem_cons_self, h.startOffset_eq, counted, level, h₁, rfl⟩
  rw [pieces]
  exact seen_cons (by simp) _

def membersAfter (dots source : Option Span) : Parser Stmt := do
  expectWord .unfinished "import"
  if ← acceptSymbol .unfinished "*" then return .importsFrom dots source none
  else return .importsFrom dots source (some (← importList))

theorem Stands.membersAfter_eq (names : Names) (dots source : Option Span)
    (h : Stands text c offset (.word [' '] "import" :: (names.pieces ++ ps)))
    (hend : seen .line ps = .lineEnd) :
    ∃ items c', membersAfter dots source c = some (.importsFrom dots source items, c') ∧
      Option.Rel (List.Forall₂ (Means text)) names.items? items ∧
      Stands text c' (offset + (charsOf (.word [' '] "import" :: names.pieces)).length) ps := by
  obtain ⟨c₁, word, h₁⟩ := h.expectWord_eq (m := .unfinished) (by simp)
  cases hitems : names.items? with
  | none =>
    obtain rfl : names = .wildcard := by cases names <;> simp_all [Names.items?]
    obtain ⟨c₂, star, h₂⟩ := Stands.acceptSymbol_eq (m := .unfinished) h₁ (by simp)
    refine ⟨none, c₂, ?_, .none, h₂.at (by simp [Names.pieces, chars_word, chars_symbol])⟩
    rw [membersAfter, bind_of_some word, bind_of_some star]
    rfl
  | some items =>
    have noStar : seen .unfinished (names.pieces ++ ps) ≠ .symbol "*" := by
      cases names with
      | wildcard => cases hitems
      | line => simp [Names.pieces, linePieces, seen_item]
      | parens => simp [Names.pieces, seen, Piece.token]
    obtain ⟨read, c₂, list, meant, h₂⟩ := h₁.importList_eq names hitems hend
    refine ⟨some read, c₂, ?_, .some meant, h₂.at (by simp [chars_word]; omega)⟩
    rw [membersAfter, bind_of_some word, bind_of_some (h₁.noSymbol noStar), if_neg (by simp),
      bind_of_some list]
    rfl

def moduleAfter (dots : Option Span) : Parser Stmt := do
  let source ←
    if dots.isSome && (← look .unfinished) == .word "import" then pure none
    else pure (some (← dottedName .unfinished .unfinished))
  membersAfter dots source

theorem Stands.moduleAfter_eq (module : Option Dotted) {gap : List Char} (names : Names)
    (dots : Option Span) (hdots : module = none → dots.isSome = true)
    (h : Stands text c offset
      (module.elim [] (Dotted.pieces gap) ++ .word [' '] "import" :: (names.pieces ++ ps)))
    (hend : seen .line ps = .lineEnd) :
    ∃ source items c', moduleAfter dots c = some (.importsFrom dots source items, c') ∧
      source.map (SourceText.ofChars text).text = module.map Dotted.text ∧
      Option.Rel (List.Forall₂ (Means text)) names.items? items ∧
      Stands text c' (offset + (charsOf (module.elim [] (Dotted.pieces gap) ++
        .word [' '] "import" :: names.pieces)).length) ps := by
  have word : seen .unfinished (.word [' '] "import" :: (names.pieces ++ ps)) = .word "import" :=
    seen_cons (by simp) _
  cases module with
  | none =>
    obtain ⟨items, c₁, after, meant, h₁⟩ := Stands.membersAfter_eq names dots none h hend
    refine ⟨none, items, c₁, ?_, rfl, meant, h₁⟩
    rw [moduleAfter, bind_of_some (h.look_eq word), hdots rfl]
    exact after
  | some module =>
    have name : seen .unfinished (module.pieces gap ++ .word [' '] "import" ::
        (names.pieces ++ ps)) = .word module.first.text := seen_cons (by simp) _
    have ordinary : module.first.text ≠ "import" := fun heq =>
      module.first.ordinary (heq ▸ by decide)
    have noDot : seen .unfinished (.word [' '] "import" :: (names.pieces ++ ps)) ≠ .symbol "." := by
      rw [word]
      simp
    obtain ⟨span, c₁, read, spelled, h₁⟩ :=
      Stands.dottedName_eq .unfinished module h (by simp) noDot
    obtain ⟨items, c₂, after, meant, h₂⟩ := h₁.membersAfter_eq names dots (some span) hend
    refine ⟨some span, items, c₂, ?_, congrArg some spelled, meant, h₂.at ?_⟩
    · rw [moduleAfter, bind_of_some (h.look_eq name)]
      dsimp only
      rw [if_neg (by simp [ordinary]), bind_of_some read, pure_bind, after]
    · rw [Option.elim_some, charsOf_append, List.length_append, Nat.add_assoc]

theorem Stands.importFrom_eq (origin : Provenance) (names : Names) {gap : List Char}
    (h : Stands text c offset ((Statement.members origin names).pieces gap ++ ps))
    (hend : seen .line ps = .lineEnd) :
    ∃ dots source items c', importFrom c = some (.importsFrom dots source items, c') ∧
      (SourceText.ofChars text).level dots = origin.level ∧
      source.map (SourceText.ofChars text).text = origin.module? ∧
      Option.Rel (List.Forall₂ (Means text)) names.items? items ∧
      Stands text c' (offset + (charsOf ((Statement.members origin names).pieces gap)).length)
        ps := by
  have pieces : (Statement.members origin names).pieces gap ++ ps = .word gap "from" ::
      (origin.pieces ++ .word [' '] "import" :: (names.pieces ++ ps)) := by
    simp [Statement.pieces]
  rw [pieces] at h
  obtain ⟨c₁, started, h₁⟩ := h.expectWord_eq (m := .bracket) (by simp)
  cases origin with
  | absolute module ordinary =>
    have name : seen .unfinished (module.pieces [' '] ++ .word [' '] "import" ::
        (names.pieces ++ ps)) = .word module.first.text := seen_cons (by simp) _
    have noFuture : acceptWord .unfinished "__future__" c₁ = some (false, c₁) :=
      h₁.noWord fun heq => ordinary (Token.word.inj (name.symm.trans heq))
    have noDots : ¬(Token.word module.first.text == .symbol "." ||
        Token.word module.first.text == .symbol "...") = true := by simp
    obtain ⟨source, items, c₂, after, spelled, meant, h₂⟩ :=
      Stands.moduleAfter_eq (some module) names none (by simp) h₁ hend
    refine ⟨none, source, items, c₂, ?_, rfl, spelled, meant, h₂.at ?_⟩
    · rw [importFrom, bind_of_some started, bind_of_some noFuture, if_neg (by simp),
        bind_of_some (Stands.startOffset_eq h₁), bind_of_some (h₁.look_eq name)]
      dsimp only
      rw [if_neg noDots, pure_bind]
      exact after
    · simp [Statement.pieces, Provenance.pieces, chars_word]
      omega
  | relative dots positive module =>
    rw [Provenance.pieces, List.append_assoc] at h₁
    have next : seen .unfinished (module.elim [] (Dotted.pieces []) ++
        .word [' '] "import" :: (names.pieces ++ ps)) ∉ dotTokens := by
      cases module <;> simp [seen, Piece.token, Dotted.pieces, dotTokens]
    obtain ⟨s, span, c₂, symbol, dot, start, counted, level, h₂, stop⟩ := h₁.dots_eq positive next
    have noFuture : acceptWord .unfinished "__future__" c₁ = some (false, c₁) :=
      h₁.noWord (by rw [symbol]; simp)
    obtain ⟨source, items, c₃, after, spelled, meant, h₃⟩ :=
      h₂.moduleAfter_eq module names (some span) (fun _ => rfl) hend
    refine ⟨some span, source, items, c₃, ?_, level, spelled, meant, h₃.at ?_⟩
    · rw [importFrom, bind_of_some started, bind_of_some noFuture, if_neg (by simp),
        bind_of_some start, bind_of_some (h₁.look_eq symbol)]
      dsimp only
      rw [if_pos (mem_dotTokens.mpr dot), bind_of_some (bound_eq c₁), bind_of_some counted,
        bind_of_some h₂.lastStop_eq, pure_bind]
      exact after
    · simp [stop, Statement.pieces, Provenance.pieces, chars_word]
      omega

/-- What items stand for does not depend on where they are in the text. -/
theorem map_means {items : List Item} {read : List ImportItem}
    (h : List.Forall₂ (Means text) items read) (f : String → String → Import) :
    (read.map fun i => f (i.boundAs.getD ((SourceText.ofChars text).text i.path))
        ((SourceText.ofChars text).text i.path)) =
      items.map fun i => f i.boundAs i.path.text := by
  induction h with
  | nil => rfl
  | @cons i _ _ _ means _ ih =>
    have bound : (i.given.map Name.text).getD i.path.text = i.boundAs := by
      rw [Item.boundAs]
      cases i.given <;> rfl
    rw [List.map_cons, List.map_cons, ih, means.1, means.2, bound]

theorem importsOf_members {origin : Provenance} {names : Names} {dots source : Option Span}
    {items : Option (List ImportItem)}
    (hlevel : (SourceText.ofChars text).level dots = origin.level)
    (hmodule : source.map (SourceText.ofChars text).text = origin.module?)
    (hitems : Option.Rel (List.Forall₂ (Means text)) names.items? items) :
    (SourceText.ofChars text).importsOf (.importsFrom dots source items) =
      names.imports origin := by
  rw [Names.imports]
  generalize names.items? = written at hitems
  cases hitems with
  | none => simp only [SourceText.importsOf, hlevel, hmodule]
  | some meant =>
    simp only [SourceText.importsOf, hlevel, hmodule]
    exact map_means meant fun bound name => ⟨bound, origin.module?, name, origin.level, .member⟩

theorem Stands.simpleStatement_eq (nested : Nested) (s : Statement) {gap : List Char}
    (h : Stands text c offset (s.pieces gap ++ ps)) (hend : seen .line ps = .lineEnd) :
    ∃ stmt c', simpleStatement nested c = some (stmt, c') ∧
      (SourceText.ofChars text).importsOf stmt = s.imports ∧
      Stands text c' (offset + (charsOf (s.pieces gap)).length) ps := by
  cases s with
  | modules i more =>
    have word : seen .bracket ((Statement.modules i more).pieces gap ++ ps) = .word "import" :=
      seen_cons (by simp) _
    obtain ⟨l, c₁, skipped, _, h₁⟩ := Stands.advance_eq (m := .bracket) h word
    obtain ⟨items, c₂, read, meant, h₂⟩ :=
      Stands.importLine_eq .unfinished i more h₁ hend
    refine ⟨.imports items, c₂, ?_, ?_, h₂.at ?_⟩
    · rw [simpleStatement, bind_of_some (h.look_eq word)]
      change ((advance .bracket >>= fun _ => pure ()) >>= fun _ => bound >>= fun n =>
        importLine .unfinished n >>= fun items => pure (Stmt.imports items)) c = _
      rw [bind_assoc, bind_of_some skipped, pure_bind, bind_of_some (bound_eq c₁),
        bind_of_some read]
      rfl
    · exact map_means meant fun bound name => ⟨bound, some name, name, 0, .module⟩
    · simp [Statement.pieces]
      omega
  | members origin names =>
    have word : seen .bracket ((Statement.members origin names).pieces gap ++ ps) = .word "from" :=
      seen_cons (by simp) _
    obtain ⟨dots, source, items, c₁, read, level, module, meant, h₁⟩ :=
      h.importFrom_eq origin names hend
    refine ⟨.importsFrom dots source items, c₁, ?_, importsOf_members level module meant, h₁⟩
    rw [simpleStatement, bind_of_some (h.look_eq word)]
    exact read

/-! Blocks. -/

theorem Stands.simpleLine_eq (nested : Nested) (s : Statement) {gap : List Char} (n : Nat)
    (before : List Stmt) (h : Stands text c offset (s.pieces gap ++ ps))
    (hend : seen .line ps = .lineEnd) :
    ∃ stmt c', simpleLine nested (n + 1) before c = .ok ((stmt :: before).reverse, c') ∧
      (SourceText.ofChars text).importsOf stmt = s.imports ∧
      Stands text c' (offset + (charsOf (s.pieces gap)).length) ps := by
  obtain ⟨start, started⟩ := here_eq c
  obtain ⟨stmt, c₁, read, imports, h₁⟩ := h.simpleStatement_eq nested s hend
  refine ⟨stmt, c₁, ?_, imports, h₁⟩
  rw [simpleLine, bind_of_ok started, bind_of_ok (from_eq start read)]
  have ended {f : Token → Parser Bool} (hf : f .lineEnd c₁ = some (false, c₁)) :
      (look .line >>= f) c₁ = some (false, c₁) := by
    rw [bind_of_some (h₁.look_eq hend), hf]
  rw [bind_of_ok (from_eq start (ended rfl)), if_neg (by simp), bind_of_ok (stepBound_eq c₁),
    bind_of_ok (h₁.trailing_eq _)]
  rfl

theorem seen_statement (s : Statement) (gap : List Char) (ps : List Piece) :
    seen .bracket (s.pieces gap ++ ps) = .word "import" ∨
      seen .bracket (s.pieces gap ++ ps) = .word "from" := by
  cases s with
  | modules => exact .inl (seen_cons (by simp) _)
  | members => exact .inr (seen_cons (by simp) _)

theorem Stands.statement_eq (nested : Nested) (s : Statement) {gap : List Char} (n : Nat)
    (h : Stands text c offset (s.pieces gap ++ ps)) (hend : seen .line ps = .lineEnd) :
    ∃ stmt c', statement nested (n + 1) c = .ok ([stmt], c') ∧
      (SourceText.ofChars text).importsOf stmt = s.imports ∧
      Stands text c' (offset + (charsOf (s.pieces gap)).length) ps := by
  obtain ⟨start, started⟩ := here_eq c
  obtain ⟨l, rest, heq, token, _⟩ := h.head_eq
  obtain ⟨b, bound⟩ : ∃ b, c.bound = b + 1 := ⟨c.bound - 1, by have := h.room; omega⟩
  obtain ⟨stmt, c₁, line, imports, h₁⟩ := h.simpleLine_eq nested s b [] hend
  refine ⟨stmt, c₁, ?_, imports, h₁⟩
  rw [statement, statementOf, bind_of_ok (get_eq c), bind_of_ok started]
  simp only [heq, bound]
  rcases seen_statement s gap ps with word | word <;>
  · rw [token, word]
    exact line

theorem seen_piecesOf (ss : List Statement) : seen .line (piecesOf ['\n'] ss) = .lineEnd := by
  rcases ss with _ | ⟨_ | _, ss⟩ <;> simp [piecesOf, Statement.pieces, seen, Piece.gap]

theorem Stands.blockItems_eq (nested : Nested) (k : Nat) (ss : List Statement) {gap : List Char}
    (n : Nat) (hn : ss.length < n) (before : List Stmt)
    (h : Stands text c offset (piecesOf gap ss)) :
    ∃ body c', blockItems (statement nested (k + 1)) n before c = .ok (before.reverse ++ body, c') ∧
      body.flatMap (SourceText.ofChars text).importsOf = ss.flatMap Statement.imports := by
  obtain ⟨n, rfl⟩ : ∃ k, n = k + 1 := ⟨n - 1, by omega⟩
  induction ss generalizing n before c offset gap with
  | nil =>
    obtain ⟨l, rest, heq, token, _, inside⟩ := h.head_eq
    refine ⟨[], c, ?_, rfl⟩
    rw [blockItems, bind_of_ok (get_eq c)]
    simp only [heq, inside, token]
    rw [List.append_nil]
    rfl
  | cons s ss ih =>
    obtain ⟨l, rest, heq, token, _, inside⟩ := h.head_eq
    obtain ⟨stmt, c₁, read, imports, h₁⟩ := h.statement_eq nested s k (seen_piecesOf ss)
    obtain ⟨n, rfl⟩ : ∃ k, n = k + 1 := ⟨n - 1, by simp at hn; omega⟩
    obtain ⟨body, c₂, others, more⟩ := ih (stmt :: before) h₁ n (by simpa using hn)
    refine ⟨stmt :: body, c₂, ?_, ?_⟩
    · have step : (statement nested (k + 1) >>= fun s =>
          blockItems (statement nested (k + 1)) (n + 1) (s.reverse ++ before)) c =
            .ok (before.reverse ++ stmt :: body, c₂) := by
        rw [bind_of_ok read]
        simpa using others
      rw [blockItems, bind_of_ok (get_eq c)]
      simp only [heq, inside]
      rcases seen_statement s gap (piecesOf ['\n'] ss) with word | word <;>
      · rw [token, piecesOf, word]
        exact step
    · rw [List.flatMap_cons, List.flatMap_cons, imports, more]

/-- The cursor at the start of printed statements. -/
theorem stands_print (ss : List Statement) :
    ∃ ls, lex (print ss).toList = ls ∧
      Stands (print ss).toList ⟨ls, 0, 0, ls.length + 1⟩ 0 (piecesOf [] ss) := by
  obtain ⟨ls, last, rest, text, lexemes, lexed, token, breaks⟩ := lex_print ss
  refine ⟨ls ++ [last], lexemes, rfl, rfl, ?_, ⟨ls, last, rfl, lexed, token, breaks⟩, rest, text⟩
  rw [List.length_append, lexed.length]
  exact Nat.lt_succ_of_lt (Nat.lt_succ_self _)

theorem length_le_piecesOf (gap : List Char) (ss : List Statement) :
    ss.length ≤ (piecesOf gap ss).length := by
  induction ss generalizing gap with
  | nil => exact Nat.zero_le _
  | cons s ss ih =>
    have others := ih ['\n']
    have first : 0 < (s.pieces gap).length := by cases s <;> exact Nat.succ_pos _
    rw [piecesOf, List.length_append, List.length_cons]
    omega

/-- Printed import statements are read, whatever they are: the imports of the file are theirs, one
for each name that they bind and one for each wildcard, in order. -/
theorem imports_read_back (path : String) (ss : List Statement) :
    ∃ source, SourceFile.parse path (print ss) = .ok source ∧
      source.imports = ss.flatMap Statement.imports := by
  obtain ⟨ls, lexemes, stands⟩ := stands_print ss
  have enough : ss.length < ls.length + 1 :=
    Nat.lt_of_le_of_lt (length_le_piecesOf [] ss) stands.room
  obtain ⟨body, _, read, imports⟩ :=
    stands.blockItems_eq (expression (ls.length + 1)) ls.length ss _ enough []
  refine ⟨⟨path, SourceText.ofChars (print ss).toList, body⟩, ?_, imports⟩
  have parsed : statements (lex (print ss).toList) = .ok body := by
    rw [lexemes, statements]
    simp only [read]
    rfl
  simp only [SourceFile.parse, parsed]

set_option maxRecDepth 100000 in
/-- Directly after `from`, the name `__future__` is a word of the grammar, so that no module can
have it as its first name. -/
theorem future_package_unread :
    SourceFile.parse "a.py" "from __future__.x import y\n" = .error ⟨"a.py", .syntaxError 1⟩ := by
  have fault : (SourceFile.parse "a.py" "from __future__.x import y\n").map (fun _ => ()) =
      .error ⟨"a.py", .syntaxError 1⟩ := by decide +kernel
  cases parsed : SourceFile.parse "a.py" "from __future__.x import y\n" with
  | ok source =>
    rw [parsed] at fault
    cases fault
  | error e =>
    rw [parsed] at fault
    cases fault
    rfl

end

end RepoAtlas.Python
