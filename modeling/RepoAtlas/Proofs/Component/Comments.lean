import RepoAtlas.Proofs.Component.Signatures
import RepoAtlas.Proofs.Python.Bare

/-!
Comments and signatures. A signature shows the type parameters and each type, default and argument
as they stand in the text, so that a comment inside one of them is shown as well. No other comment
of a header is.
-/
namespace RepoAtlas.Python
open RepoAtlas.Text Written

namespace Written

/-! What a signature is made of. -/

/-- No comment stands between some tokens. -/
def Quiet (ps : List Printed) : Prop := ∀ p ∈ ps.tail, ∀ x ∈ p.filler, x.isComment = false

/-- A part of a signature: a text of its own, or tokens as they stand in the file. -/
inductive Segment where
  | fixed (text : String)
  | value (ps : List Printed)

namespace Segment

def text : Segment → String
  | .fixed text => text
  | .value ps => oneLineOf ps

def bare : Segment → Segment
  | .fixed text => .fixed text
  | .value ps => .value (ps.map Printed.bare)

def Silent : Segment → Prop
  | .fixed _ => True
  | .value ps => Quiet ps

end Segment

def render : List Segment → String
  | [] => ""
  | s :: ss => s.text ++ render ss

def separated : List (List Segment) → List Segment
  | [] => []
  | [ss] => ss
  | ss :: next :: others => ss ++ .fixed ", " :: separated (next :: others)

theorem render_append (ss ts : List Segment) : render (ss ++ ts) = render ss ++ render ts := by
  induction ss with
  | nil => exact String.empty_append.symm
  | cons s ss ih => rw [List.cons_append, render, render, ih, String.append_assoc]

theorem render_separated (sss : List (List Segment)) :
    render (separated sss) = joinWith ", " (sss.map render) := by
  fun_induction separated sss with
  | case1 => rfl
  | case2 ss => exact String.intercalate_singleton.symm
  | case3 ss next others ih =>
    rw [render_append, render, ih]
    simp only [Segment.text, List.map_cons, joinWith, String.intercalate_cons_cons,
      String.append_assoc]

theorem separated_bare (sss : List (List Segment)) :
    separated (sss.map (List.map Segment.bare)) = (separated sss).map Segment.bare := by
  fun_induction separated sss with
  | case1 => rfl
  | case2 ss => rfl
  | case3 ss next others ih =>
    change separated (ss.map Segment.bare :: next.map Segment.bare ::
      others.map (List.map Segment.bare)) = _
    rw [separated, List.map_append, List.map_cons, ← ih]
    rfl

theorem silent_separated (sss : List (List Segment)) :
    (∀ s ∈ separated sss, s.Silent) ↔ ∀ ss ∈ sss, ∀ s ∈ ss, s.Silent := by
  fun_induction separated sss with
  | case1 => simp
  | case2 ss => simp
  | case3 ss next others ih =>
    simp only [List.forall_mem_append, List.forall_mem_cons, ih]
    exact and_congr_right fun _ => and_iff_right trivial

/-! The sign that starts a comment. It may stand in a literal as well, so that it is counted. -/

def marks (cs : List Char) : Nat := cs.count '#'

theorem marks_append (cs ds : List Char) : marks (cs ++ ds) = marks cs + marks ds :=
  List.count_append

theorem marks_blank {c : Char} (white : isGapChar c = true) : marks [c] = 0 := by
  rw [marks, List.count_eq_zero, List.mem_singleton]
  rintro rfl
  cases white

theorem marks_bare (f : Filler) : marks f.bare.chars = 0 := by
  induction f with
  | nil => rfl
  | cons x f ih =>
    have first : marks x.bare.chars = 0 := by
      cases x with
      | blank c white => exact marks_blank white
      | comment text line => rfl
    have split : marks (Filler.bare (x :: f)).chars =
        marks x.bare.chars + marks (Filler.bare f).chars :=
      marks_append _ _
    rw [split, first, ih]

theorem marks_filler (f : Filler) : marks f.chars = 0 ↔ ∀ x ∈ f, x.isComment = false := by
  induction f with
  | nil => exact iff_of_true rfl (List.forall_mem_nil _)
  | cons x f ih =>
    have first : marks x.chars = 0 ↔ x.isComment = false := by
      cases x with
      | blank c white => exact iff_of_true (marks_blank white) rfl
      | comment text line => simp [marks, Fill.chars, Fill.isComment]
    have split : marks (Filler.chars (x :: f)) = marks x.chars + marks (Filler.chars f) :=
      marks_append _ _
    rw [split, Nat.add_eq_zero_iff, first, ih, List.forall_mem_cons]

theorem marks_flatMap {α : Type} (f : α → List Char) (as : List α) :
    marks (as.flatMap f) = 0 ↔ ∀ a ∈ as, marks (f a) = 0 := by
  simp only [marks, List.count_eq_zero, List.mem_flatMap, not_exists, not_and]

def gaps (ps : List Printed) : List Char := ps.flatMap fun p => p.filler.chars

theorem marks_gaps (ps : List Printed) : marks (gaps ps.tail) = 0 ↔ Quiet ps :=
  (marks_flatMap _ _).trans (forall₂_congr fun p _ => marks_filler p.filler)

theorem marks_textOf (ps : List Printed) :
    marks (textOf ps) = marks (textOf (ps.map Printed.bare)) + marks (gaps ps) := by
  induction ps with
  | nil => rfl
  | cons p ps ih =>
    have silent : marks p.bare.filler.chars = 0 := marks_bare p.filler
    have same : p.bare.spelling = p.spelling := rfl
    have split : gaps (p :: ps) = p.filler.chars ++ gaps ps := List.flatMap_cons
    simp only [List.map_cons, textOf_cons, Printed.chars, split, marks_append, silent, same, ih]
    omega

/-- Taking comments away takes away their signs and no other. -/
theorem marks_oneLineOf (ps : List Printed) : marks (oneLineOf ps).toList =
    marks (oneLineOf (ps.map Printed.bare)).toList + marks (gaps ps.tail) := by
  have collapsed (ps : List Printed) : marks (oneLineOf ps).toList = marks (bodyOf ps) := by
    rw [oneLineOf, String.toList_ofList]
    exact count_collapseChars (by decide) _
  rw [collapsed, collapsed]
  cases ps with
  | nil => rfl
  | cons p ps =>
    rw [List.map_cons, bodyOf, bodyOf, marks_append, marks_append, marks_textOf ps, Nat.add_assoc]
    rfl

theorem oneLineOf_bare {ps : List Printed} (h : Quiet ps) :
    oneLineOf (ps.map Printed.bare) = oneLineOf ps := by
  cases ps with
  | nil => rfl
  | cons p ps =>
    have same : ps.map Printed.bare = ps := by
      refine (List.map_congr_left fun q hq => ?_).trans (List.map_id ps)
      exact congrArg (Printed.mk · q.spelling) (Filler.bare_of_silent (h q hq))
    rw [List.map_cons, same]
    rfl

def Segment.gaps : Segment → List Char
  | .fixed _ => []
  | .value ps => Written.gaps ps.tail

theorem Segment.marks_gaps (s : Segment) : marks s.gaps = 0 ↔ s.Silent := by
  cases s with
  | fixed text => exact iff_of_true rfl trivial
  | value ps => exact Written.marks_gaps ps

theorem marks_render (ss : List Segment) : marks (render ss).toList =
    marks (render (ss.map Segment.bare)).toList + marks (ss.flatMap Segment.gaps) := by
  induction ss with
  | nil => rfl
  | cons s ss ih =>
    have first : marks s.text.toList = marks s.bare.text.toList + marks s.gaps := by
      cases s with
      | fixed text => rfl
      | value ps => exact marks_oneLineOf ps
    rw [List.map_cons, List.flatMap_cons, render, render, String.toList_append,
      String.toList_append, marks_append, marks_append, marks_append, first, ih]
    omega

/-- What is shown stays the same without comments exactly if no comment is shown. -/
theorem render_bare_iff (ss : List Segment) :
    render (ss.map Segment.bare) = render ss ↔ ∀ s ∈ ss, s.Silent := by
  constructor
  · intro same
    have count := marks_render ss
    rw [same, Nat.left_eq_add, marks_flatMap] at count
    exact fun s hs => s.marks_gaps.mp (count s hs)
  · intro silent
    induction ss with
    | nil => rfl
    | cons s ss ih =>
      obtain ⟨first, others⟩ := List.forall_mem_cons.mp silent
      have shown : s.bare.text = s.text := by
        cases s with
        | fixed text => rfl
        | value ps => exact oneLineOf_bare first
      rw [List.map_cons, render, render, shown, ih others]

/-! The parts of signatures. -/

def valuesOf (v : Option (Filler × Phrase)) : List (List Printed) :=
  v.toList.map fun v => v.2.pieces

def typeValues (t : Option (Writable.Types Phrase)) : List (List Printed) :=
  t.toList.map Generic.pieces

def Parameter.values : Parameter Phrase → List (List Printed)
  | .named _ _ type value => valuesOf type ++ valuesOf value
  | .splat _ _ _ _ type => valuesOf type
  | _ => []

def Function.values (f : Function Phrase) : List (List Printed) :=
  typeValues f.types ++ f.params.items.flatMap Parameter.values ++ valuesOf f.returns

def Class.items (c : Class Phrase) : List (Argument Phrase) :=
  (c.arguments.map fun a => a.2.items).getD []

def Class.values (c : Class Phrase) : List (List Printed) :=
  typeValues c.types ++ c.items.map Argument.pieces

/-- The tokens of the type parameters and of each type, default and argument in the headers of a
definition. -/
def Definition.values : Definition Phrase → List (List Printed)
  | .function f => f.values
  | .classDef c => c.values ++ c.methods.functions.flatMap Function.values

def ledSegments (lead : String) (v : Option (Filler × Phrase)) : List Segment :=
  v.elim [] fun v => [.fixed lead, .value v.2.pieces]

def typeSegments (t : Option (Writable.Types Phrase)) : List Segment :=
  (typeValues t).map .value

def Parameter.segments : Parameter Phrase → List Segment
  | .named _ name type value =>
    .fixed name.text ::
      (ledSegments ": " type ++ ledSegments (if type.isSome then " = " else "=") value)
  | .splat _ double _ name type =>
    .fixed ((if double then "**" else "*") ++ name.text) :: ledSegments ": " type
  | .keywordOnly _ => [.fixed "*"]
  | .positionalOnly _ => [.fixed "/"]

def Function.segments (f : Function Phrase) : List Segment :=
  .fixed (f.heading lineOf).front :: (typeSegments f.types ++ .fixed "(" ::
    (separated (f.params.items.map Parameter.segments) ++ .fixed ")" ::
      ledSegments " -> " f.returns))

def argumentSegments (as : List (Argument Phrase)) : List Segment :=
  if as.isEmpty then []
  else .fixed "(" :: (separated (as.map fun a => [.value a.pieces]) ++ [.fixed ")"])

def Class.segments (c : Class Phrase) : List Segment :=
  .fixed ("class " ++ c.name.text) :: (typeSegments c.types ++ argumentSegments c.items)

theorem render_ledSegments (lead : String) (v : Option (Filler × Phrase)) :
    render (ledSegments lead v) = (v.map fun v => lineOf v.2).elim "" (lead ++ ·) := by
  cases v with
  | none => rfl
  | some v => exact congrArg (lead ++ ·) String.append_empty

theorem ledSegments_bare (lead : String) (v : Option (Filler × Phrase)) :
    ledSegments lead (v.map bareValue) = (ledSegments lead v).map Segment.bare := by
  cases v with
  | none => rfl
  | some v => exact congrArg (fun ps => [Segment.fixed lead, .value ps]) v.2.pieces_bare

theorem silent_ledSegments (lead : String) (v : Option (Filler × Phrase)) :
    (∀ s ∈ ledSegments lead v, s.Silent) ↔ ∀ ps ∈ valuesOf v, Quiet ps := by
  cases v <;> simp [ledSegments, valuesOf, Segment.Silent]

theorem render_typeSegments (t : Option (Writable.Types Phrase)) :
    render (typeSegments t) = oneLineOf (typesOf t) := by
  cases t with
  | none => rfl
  | some t => exact String.append_empty

theorem typeSegments_bare (t : Option (Writable.Types Phrase)) :
    typeSegments (bareTypes t) = (typeSegments t).map Segment.bare := by
  cases t with
  | none => rfl
  | some t => exact congrArg (fun ps => [Segment.value ps]) (TypeParameters.pieces_bare t)

theorem silent_typeSegments (t : Option (Writable.Types Phrase)) :
    (∀ s ∈ typeSegments t, s.Silent) ↔ ∀ ps ∈ typeValues t, Quiet ps := by
  rw [typeSegments, List.forall_mem_map]
  rfl

theorem Parameter.render_segments (p : Parameter Phrase) :
    render p.segments = (p.entry lineOf).text := by
  cases p with
  | named gap name type value =>
    rw [segments, render, render_append, render_ledSegments, render_ledSegments]
    cases type <;> cases value <;>
      simp [Segment.text, entry, Entry.text, String.append_assoc]
  | splat gap double inner name type =>
    rw [segments, render, render_ledSegments]
    cases double <;> cases type <;> rfl
  | keywordOnly gap => rfl
  | positionalOnly gap => rfl

theorem Parameter.segments_bare (p : Parameter Phrase) :
    p.bare.segments = p.segments.map Segment.bare := by
  cases p with
  | named gap name type value =>
    simp only [bare, segments, List.map_cons, List.map_append, ledSegments_bare, Option.isSome_map]
    rfl
  | splat gap double inner name type =>
    simp only [bare, segments, List.map_cons, ledSegments_bare]
    rfl
  | keywordOnly gap => rfl
  | positionalOnly gap => rfl

theorem Parameter.silent_segments (p : Parameter Phrase) :
    (∀ s ∈ p.segments, s.Silent) ↔ ∀ ps ∈ p.values, Quiet ps := by
  cases p with
  | named gap name type value =>
    rw [segments, values, List.forall_mem_cons, List.forall_mem_append, List.forall_mem_append,
      silent_ledSegments, silent_ledSegments]
    exact and_iff_right trivial
  | splat gap double inner name type =>
    rw [segments, values, List.forall_mem_cons, silent_ledSegments]
    exact and_iff_right trivial
  | keywordOnly gap => simp [segments, values, Segment.Silent]
  | positionalOnly gap => simp [segments, values, Segment.Silent]

theorem Function.render_segments (f : Function Phrase) : render f.segments = f.signature := by
  have entries : (f.params.items.map Parameter.segments).map render =
      (f.params.items.map (Parameter.entry lineOf)).map Entry.text := by
    rw [List.map_map, List.map_map]
    exact List.map_congr_left fun p _ => p.render_segments
  rw [segments, render, render_append, render, render_append, render, render_typeSegments,
    render_separated, entries, render_ledSegments]
  simp only [Segment.text, signature, Heading.back, heading, String.append_assoc]

theorem Function.segments_bare (f : Function Phrase) :
    f.bare.segments = f.segments.map Segment.bare := by
  have params : f.bare.params.items.map Parameter.segments =
      (f.params.items.map Parameter.segments).map (List.map Segment.bare) := by
    rw [Function.bare, Listing.items_bare, List.map_map, List.map_map]
    exact List.map_congr_left fun p _ => p.segments_bare
  rw [segments, segments, params, separated_bare]
  simp only [List.map_cons, List.map_append, ← typeSegments_bare, ← ledSegments_bare]
  rfl

theorem Function.silent_segments (f : Function Phrase) :
    (∀ s ∈ f.segments, s.Silent) ↔ ∀ ps ∈ f.values, Quiet ps := by
  have params : (∀ s ∈ separated (f.params.items.map Parameter.segments), s.Silent) ↔
      ∀ ps ∈ f.params.items.flatMap Parameter.values, Quiet ps := by
    rw [silent_separated, List.forall_mem_map, List.forall_mem_flatMap]
    exact forall₂_congr fun p _ => p.silent_segments
  have fixed (text : String) : (Segment.fixed text).Silent := trivial
  simp only [segments, values, List.forall_mem_cons, List.forall_mem_append, silent_typeSegments,
    params, silent_ledSegments, fixed, true_and, and_assoc]

theorem render_argumentSegments (as : List (Argument Phrase)) :
    render (argumentSegments as) =
      if (as.map fun a => oneLineOf a.pieces).isEmpty then ""
      else "(" ++ joinWith ", " (as.map fun a => oneLineOf a.pieces) ++ ")" := by
  have lines : (as.map fun a => [Segment.value a.pieces]).map render =
      as.map fun a => oneLineOf a.pieces := by
    rw [List.map_map]
    exact List.map_congr_left fun a _ => String.append_empty
  rw [argumentSegments, List.isEmpty_map]
  split
  · rfl
  · rw [render, render_append, render_separated, lines, String.append_assoc]
    rfl

theorem argumentSegments_bare (as : List (Argument Phrase)) :
    argumentSegments (as.map Argument.bare) = (argumentSegments as).map Segment.bare := by
  have values : (as.map Argument.bare).map (fun a => [Segment.value a.pieces]) =
      (as.map fun a => [Segment.value a.pieces]).map (List.map Segment.bare) := by
    rw [List.map_map, List.map_map]
    exact List.map_congr_left fun a _ => congrArg (fun ps => [Segment.value ps]) a.pieces_bare
  rw [argumentSegments, argumentSegments, values, separated_bare, List.isEmpty_map]
  split
  · rfl
  · rw [List.map_cons, List.map_append]
    rfl

theorem silent_argumentSegments (as : List (Argument Phrase)) :
    (∀ s ∈ argumentSegments as, s.Silent) ↔ ∀ ps ∈ as.map Argument.pieces, Quiet ps := by
  have values : (∀ s ∈ separated (as.map fun a => [Segment.value a.pieces]), s.Silent) ↔
      ∀ ps ∈ as.map Argument.pieces, Quiet ps := by
    rw [silent_separated, List.forall_mem_map, List.forall_mem_map]
    exact forall₂_congr fun a _ => List.forall_mem_singleton
  cases as with
  | nil => exact iff_of_true (List.forall_mem_nil _) (List.forall_mem_nil _)
  | cons a as =>
    rw [argumentSegments, List.isEmpty_cons, if_neg (by simp), List.forall_mem_cons,
      List.forall_mem_append, values, List.forall_mem_singleton]
    exact (and_iff_right trivial).trans (and_iff_left trivial)

theorem Class.render_segments (c : Class Phrase) : render c.segments = c.signature := by
  have lines : (c.arguments.map fun a => a.2.items.map fun a => oneLineOf a.pieces).getD [] =
      c.items.map fun a => oneLineOf a.pieces := by
    rw [items]
    cases c.arguments <;> rfl
  simp only [segments, signature, lines, render, render_append, render_typeSegments,
    render_argumentSegments, Segment.text, String.append_assoc]

theorem Class.segments_bare (c : Class Phrase) : c.bare.segments = c.segments.map Segment.bare := by
  have items : c.bare.items = c.items.map Argument.bare := by
    rw [Class.items, Class.items, Class.bare]
    cases c.arguments with
    | none => rfl
    | some list => exact list.2.items_bare Argument.bare
  rw [segments, segments, items, argumentSegments_bare]
  simp only [List.map_cons, List.map_append, ← typeSegments_bare]
  rfl

theorem Class.silent_segments (c : Class Phrase) :
    (∀ s ∈ c.segments, s.Silent) ↔ ∀ ps ∈ c.values, Quiet ps := by
  rw [segments, values, List.forall_mem_cons, List.forall_mem_append, List.forall_mem_append,
    silent_typeSegments, silent_argumentSegments]
  exact and_iff_right trivial

end Written

end RepoAtlas.Python

namespace RepoAtlas.Component
open RepoAtlas.Python RepoAtlas.Python.Written

def outlineSegments : Written.Definition Phrase → List (Kind × List Segment)
  | .function f => [(.function, f.segments)]
  | .classDef c =>
    (.classDef, c.segments) :: c.methods.functions.map fun f => (.method, f.segments)

theorem outlineOf_eq (w : Written.Definition Phrase) :
    outlineOf w = (outlineSegments w).map fun c => (c.1, render c.2) := by
  cases w with
  | function f => rw [outlineOf, outlineSegments, List.map_singleton, f.render_segments]
  | classDef c =>
    rw [outlineOf, outlineSegments, List.map_cons, c.render_segments, List.map_map]
    exact congrArg _ (List.map_congr_left fun f _ => congrArg _ f.render_segments.symm)

theorem outlineSegments_bare (w : Written.Definition Phrase) :
    outlineSegments w.bare = (outlineSegments w).map fun c => (c.1, c.2.map Segment.bare) := by
  cases w with
  | function f =>
    rw [Written.Definition.bare, outlineSegments, outlineSegments, f.segments_bare,
      List.map_singleton]
  | classDef c =>
    have methods : c.bare.methods.functions = c.methods.functions.map Function.bare :=
      c.methods.functions_bare
    rw [Written.Definition.bare, outlineSegments, outlineSegments, c.segments_bare, methods,
      List.map_cons, List.map_map, List.map_map]
    exact congrArg _ (List.map_congr_left fun f _ => congrArg _ f.segments_bare)

theorem outlineSegments_silent (w : Written.Definition Phrase) :
    (∀ c ∈ outlineSegments w, ∀ s ∈ c.2, s.Silent) ↔ ∀ ps ∈ w.values, Quiet ps := by
  cases w with
  | function f =>
    rw [outlineSegments, List.forall_mem_singleton]
    exact f.silent_segments
  | classDef c =>
    rw [outlineSegments, List.forall_mem_cons, Written.Definition.values, List.forall_mem_append,
      c.silent_segments, List.forall_mem_map, List.forall_mem_flatMap]
    exact and_congr_right fun _ => forall₂_congr fun f _ => f.silent_segments

/-- Comments are shown in signatures exactly if they stand inside type parameters, a type, a default
or an argument. For every file of functions and classes with methods, taking away all comments of
the headers, up to the line breaks that end them, gives a file with the same signatures if and only
if no comment stands between the tokens of one of these. -/
theorem signatures_bare_iff (site : Site) (path : String) (ws : List (Written.Definition Phrase)) :
    ∃ source bare,
      SourceFile.parse path (String.ofList (textOf (tokensOf ws) ++ ['\n'])) = .ok source ∧
      SourceFile.parse path (String.ofList (textOf ((tokensOf ws).map Printed.bare) ++ ['\n'])) =
        .ok bare ∧
      ((ofFile site bare).map (fun c => (c.kind, c.signature)) =
          (ofFile site source).map (fun c => (c.kind, c.signature)) ↔
        ∀ w ∈ ws, ∀ ps ∈ w.values, Quiet ps) := by
  obtain ⟨source, parsed, outline⟩ := ofFile_outline site path ws
  obtain ⟨bare, parsed', outline'⟩ := ofFile_outline site path (ws.map Written.Definition.bare)
  rw [fileOf, tokensOf_bare] at parsed'
  refine ⟨source, bare, parsed, parsed', ?_⟩
  have whole : ws.flatMap outlineOf =
      (ws.flatMap outlineSegments).map fun c => (c.1, render c.2) := by
    rw [List.map_flatMap]
    exact List.flatMap_congr fun w _ => outlineOf_eq w
  have stripped : (ws.map Written.Definition.bare).flatMap outlineOf =
      (ws.flatMap outlineSegments).map fun c => (c.1, render (c.2.map Segment.bare)) := by
    rw [List.flatMap_map, List.map_flatMap]
    refine List.flatMap_congr fun w _ => ?_
    rw [outlineOf_eq, outlineSegments_bare, List.map_map]
    rfl
  rw [outline, outline', whole, stripped, List.map_inj_left, List.forall_mem_flatMap]
  refine forall₂_congr fun w _ => ?_
  rw [← outlineSegments_silent]
  refine forall₂_congr fun c _ => ?_
  rw [Prod.mk.injEq, render_bare_iff]
  exact and_iff_right rfl

set_option maxRecDepth 100000 in
/-- A comment inside a default is shown. Without it the signature is another one. -/
theorem nested_comment_shown :
    (SourceFile.parse "a.py" "def f(a=[1, # x\n2]): pass\n").toOption.map
        (fun source => (ofFile ⟨"/a.py", "a.py", "a"⟩ source).map Component.signature) =
      some ["def f(a=[1, # x 2])"] ∧
    (SourceFile.parse "a.py" "def f(a=[1, \n2]): pass\n").toOption.map
        (fun source => (ofFile ⟨"/a.py", "a.py", "a"⟩ source).map Component.signature) =
      some ["def f(a=[1, 2])"] := by
  decide +kernel

end RepoAtlas.Component
