import RepoAtlas.Component.OfFile
import RepoAtlas.Proofs.Python.SourceText
import RepoAtlas.Proofs.Python.Spans

/-!
Positions of components. The lines of a component are those that its source code takes up in the
text of the file, its outline ends on one of them, and the methods of a class lie on the lines of
the class.
-/
namespace RepoAtlas.Python

/-! Definitions of a body that lies between two offsets. -/

structure Definition.Within (lo hi : Nat) (d : Definition) : Prop where
  start : lo ≤ d.header.span.start
  header : d.header.span.start ≤ d.header.stop
  body : d.header.stop ≤ d.header.span.stop
  stop : d.header.span.stop ≤ hi
  inner : AllWithin d.header.span.start d.header.span.stop d.body

theorem AllWithin.definitionsOf {lo hi : Nat} {ss : List Stmt} (h : AllWithin lo hi ss)
    {d : Definition} (hd : d ∈ definitionsOf ss) : d.Within lo hi := by
  obtain ⟨s, hs, hdef⟩ := List.mem_filterMap.mp hd
  cases h s hs with
  | plain plain =>
    rw [plain] at hdef
    cases hdef
  | definition start header stop last body =>
    obtain rfl := Option.some.inj hdef
    exact ⟨start, header, stop, last, body⟩

theorem Definition.Within.methods {lo hi : Nat} {d m : Definition} (h : d.Within lo hi)
    (hm : m ∈ d.methods) : m.Within d.header.span.start d.header.span.stop :=
  h.inner.definitionsOf (List.mem_filter.mp hm).1

/-- The definitions of a text lie inside it. -/
theorem parse_within {path text : String} {source : SourceFile}
    (h : SourceFile.parse path text = .ok source) :
    source.text = SourceText.ofChars text.toList ∧
      ∀ d ∈ source.definitions, d.Within 0 text.toList.length := by
  simp only [SourceFile.parse] at h
  split at h
  · rename_i body hbody
    obtain rfl := Except.ok.inj h
    exact ⟨rfl, fun d hd => (statements_within (lex_ordered _) hbody).definitionsOf hd⟩
  · cases h

end RepoAtlas.Python

namespace RepoAtlas.Component
open RepoAtlas.Python

structure Placed (text : String) (c : Component) : Prop where
  /-- The source code stands in the text behind the lines before the first line. -/
  source : ∃ before after, text = before ++ c.sourceCode ++ after ∧
    c.startLine = lineBreaks before.toList + 1
  /-- It ends on the last line. -/
  lines : c.endLine = c.startLine + lineBreaks c.sourceCode.toList
  outline : c.startLine ≤ c.headerEndLine ∧ c.headerEndLine ≤ c.endLine

structure Encloses (c m : Component) : Prop where
  own : c.kind = .classDef
  kind : m.kind = .method
  id : ∃ name, m.id = c.id ++ "." ++ name
  start : c.startLine ≤ m.startLine
  stop : m.endLine ≤ c.endLine

/-- Offsets of a text are on lines in the same order. -/
theorem line_le (cs : List Char) {i j : Nat} (h : i ≤ j) (hj : j ≤ cs.length) :
    (SourceText.ofChars cs).line i ≤ (SourceText.ofChars cs).line j := by
  rw [SourceText.line_ofChars (Nat.le_trans h hj), SourceText.line_ofChars hj]
  exact Nat.succ_le_succ (lineBreaks_take_le _ h)

section
variable {text : String} {lo hi : Nat} {d : Definition}

theorem placed_ofDefinition (h : d.Within lo hi) (hhi : hi ≤ text.toList.length) (site : Site)
    (id : String) (kind : Kind) {headerEnd : Nat}
    (hstart : startLineOf (.ofChars text.toList) d ≤ headerEnd)
    (hstop : headerEnd ≤ endLineOf (.ofChars text.toList) d) :
    (ofDefinition site (.ofChars text.toList) id kind headerEnd d).Placed text := by
  have le : d.header.span.start ≤ d.header.span.stop := Nat.le_trans h.header h.body
  have stop_le : d.header.span.stop ≤ text.toList.length := Nat.le_trans h.stop hhi
  have start_le := Nat.le_trans le stop_le
  have code : (ofDefinition site (.ofChars text.toList) id kind headerEnd d).sourceCode.toList =
      (text.toList.drop d.header.span.start).take (d.header.span.stop - d.header.span.start) := by
    simp [ofDefinition, SourceText.text, SourceText.slice_ofChars]
  have upTo : text.toList.take d.header.span.stop = text.toList.take d.header.span.start ++
      (text.toList.drop d.header.span.start).take (d.header.span.stop - d.header.span.start) := by
    rw [← List.take_add, Nat.add_sub_of_le le]
  constructor
  · refine ⟨.ofList (text.toList.take d.header.span.start),
      .ofList (text.toList.drop d.header.span.stop), ?_, ?_⟩
    · apply String.toList_inj.mp
      rw [String.toList_append, String.toList_append, code, String.toList_ofList,
        String.toList_ofList, ← upTo, List.take_append_drop]
    · rw [String.toList_ofList]
      exact SourceText.line_ofChars start_le
  · rw [code]
    change SourceText.line _ _ = SourceText.line _ _ + _
    rw [SourceText.line_ofChars start_le, SourceText.line_ofChars stop_le, upTo, lineBreaks_append]
    omega
  · exact ⟨hstart, hstop⟩

theorem lines_in_order (h : d.Within lo hi) (hhi : hi ≤ text.toList.length) :
    (SourceText.ofChars text.toList).line lo ≤ startLineOf (.ofChars text.toList) d ∧
      startLineOf (.ofChars text.toList) d ≤ headerLineOf (.ofChars text.toList) d ∧
      headerLineOf (.ofChars text.toList) d ≤ endLineOf (.ofChars text.toList) d ∧
      endLineOf (.ofChars text.toList) d ≤ (SourceText.ofChars text.toList).line hi := by
  have := h.start
  have := h.header
  have := h.body
  have := h.stop
  exact ⟨line_le _ (by omega) (by omega), line_le _ (by omega) (by omega),
    line_le _ (by omega) (by omega), line_le _ (by omega) hhi⟩

theorem outlineEnd_lines (h : d.Within lo hi) (hhi : hi ≤ text.toList.length) :
    startLineOf (.ofChars text.toList) d ≤ outlineEnd (.ofChars text.toList) d ∧
      outlineEnd (.ofChars text.toList) d ≤ endLineOf (.ofChars text.toList) d := by
  have method {m : Definition} (hm : m ∈ d.methods) :=
    lines_in_order (h.methods hm) (Nat.le_trans h.stop hhi)
  rw [outlineEnd]
  split
  · rename_i m hm
    obtain ⟨start, header, body, stop⟩ := method (List.mem_of_find?_eq_some hm)
    exact ⟨Nat.le_trans start (Nat.le_trans header body), stop⟩
  · split
    · rename_i m hm
      obtain ⟨start, header, body, stop⟩ := method (List.mem_of_getLast? hm)
      exact ⟨start, Nat.le_trans header (Nat.le_trans body stop)⟩
    · obtain ⟨_, header, body, _⟩ := lines_in_order h hhi
      exact ⟨header, body⟩

theorem ofTopLevel_placed (h : d.Within lo hi) (hhi : hi ≤ text.toList.length) (site : Site)
    {c : Component} (hc : c ∈ ofTopLevel site (.ofChars text.toList) d) : c.Placed text := by
  rw [ofTopLevel] at hc
  split at hc
  · obtain ⟨_, header, body, _⟩ := lines_in_order h hhi
    rw [List.mem_singleton.mp hc]
    exact placed_ofDefinition h hhi site _ _ header body
  · rcases List.mem_cons.mp hc with rfl | hc
    · obtain ⟨start, stop⟩ := outlineEnd_lines h hhi
      exact placed_ofDefinition h hhi site _ _ start stop
    · obtain ⟨m, hm, rfl⟩ := List.mem_map.mp hc
      have inner := h.methods hm
      have inner_le := Nat.le_trans h.stop hhi
      obtain ⟨_, header, body, _⟩ := lines_in_order inner inner_le
      exact placed_ofDefinition inner inner_le site _ _ header body

end

/-- Functions and classes, each class followed by the methods on its lines. -/
inductive Grouped : List Component → Prop where
  | nil : Grouped []
  | group {own : Component} {members rest : List Component} : own.kind ≠ .method →
      (∀ m ∈ members, own.Encloses m) → Grouped rest → Grouped (own :: members ++ rest)

theorem ofTopLevel_grouped {text : String} {lo hi : Nat} {d : Definition} (h : d.Within lo hi)
    (hhi : hi ≤ text.toList.length) (site : Site) {rest : List Component} (hrest : Grouped rest) :
    Grouped (ofTopLevel site (.ofChars text.toList) d ++ rest) := by
  rw [ofTopLevel]
  split
  · exact .group (by simp [ofDefinition]) (by simp) hrest
  · refine .group (by simp [ofDefinition]) (fun c hc => ?_) hrest
    obtain ⟨m, hm, rfl⟩ := List.mem_map.mp hc
    obtain ⟨start, _, _, stop⟩ := lines_in_order (h.methods hm) (Nat.le_trans h.stop hhi)
    exact ⟨rfl, rfl, ⟨m.name, rfl⟩, start, stop⟩

/-- The components of a text that can be read have places that fit it, and the methods of a class
lie on its lines. -/
theorem positions_match_text {path text : String} {source : SourceFile} (site : Site)
    (h : SourceFile.parse path text = .ok source) :
    (∀ c ∈ ofFile site source, c.Placed text) ∧ Grouped (ofFile site source) := by
  obtain ⟨same, within⟩ := parse_within h
  constructor
  · intro c hc
    obtain ⟨d, hd, hc⟩ := List.mem_flatMap.mp hc
    rw [same] at hc
    exact ofTopLevel_placed (within d hd) (Nat.le_refl _) site hc
  · rw [ofFile, same]
    -- The groups are put together from the last definition on.
    generalize source.definitions = ds at within
    induction ds with
    | nil => exact .nil
    | cons d ds ih =>
      obtain ⟨first, others⟩ := List.forall_mem_cons.mp within
      exact ofTopLevel_grouped first (Nat.le_refl _) site (ih others)

/-- A decorated class with a header of two lines, a literal of two lines, and a constructor that is
not its first method and ends in a comment. -/
def layered : String :=
  "# notes\n@seen\nclass A(B,\n    C):\n  x = \"\"\"1\n2\"\"\"\n\n  def f(self): pass # 3\n\n" ++
    "  def __init__(self,\n      y):\n    self.y = y\n\n    # end\n\ndef g(): return A\n"

set_option maxRecDepth 100000 in
theorem layered_positions_match : ∃ source, SourceFile.parse "a.py" layered = .ok source ∧
    ((ofFile ⟨"/a.py", "a.py", "a"⟩ source).map fun c =>
        (c.id, c.startLine, c.headerEndLine, c.endLine)) =
      [("a.A", 2, 14, 14), ("a.A.f", 8, 8, 8), ("a.A.__init__", 10, 11, 14), ("a.g", 16, 16, 16)] ∧
    (∀ c ∈ ofFile ⟨"/a.py", "a.py", "a"⟩ source, c.Placed layered) ∧
    Grouped (ofFile ⟨"/a.py", "a.py", "a"⟩ source) := by
  have lines : (SourceFile.parse "a.py" layered).toOption.map (fun source =>
      (ofFile ⟨"/a.py", "a.py", "a"⟩ source).map fun c =>
        (c.id, c.startLine, c.headerEndLine, c.endLine)) =
      some [("a.A", 2, 14, 14), ("a.A.f", 8, 8, 8), ("a.A.__init__", 10, 11, 14),
        ("a.g", 16, 16, 16)] := by
    decide +kernel
  cases parsed : SourceFile.parse "a.py" layered with
  | error e =>
    rw [parsed] at lines
    cases lines
  | ok source =>
    rw [parsed] at lines
    exact ⟨source, rfl, Option.some.inj lines, positions_match_text _ parsed⟩

end RepoAtlas.Component
