import RepoAtlas.Proofs.Python.Files
import RepoAtlas.Proofs.Python.TypeParameters

/-!
Signatures of components. They depend on what a header says and not on how it is laid out.
-/
namespace RepoAtlas.Component
open RepoAtlas.Python RepoAtlas.Python.Written

section
variable {V : Type} [Writable V] {text : List Char}

def outlineOf : Written.Definition V → List (Kind × String)
  | .function f => [(.function, f.signature)]
  | .classDef w =>
    (.classDef, w.signature) :: w.methods.functions.map fun f => (.method, f.signature)

/-- Definitions that stand for functions are functions with their signatures. -/
theorem renders_all {fs : List (Function V)} {ds : List Python.Definition}
    (h : List.Forall₂ (Renders text) fs ds) :
    (∀ d ∈ ds, d.kind = .function) ∧
      ds.map (fun d => (Kind.method, (SourceText.ofChars text).signature d.header)) =
        fs.map fun f => (Kind.method, f.signature) := by
  induction h with
  | nil => exact ⟨List.forall_mem_nil _, rfl⟩
  | cons first _ ih =>
    refine ⟨List.forall_mem_cons.mpr ⟨first.1, ih.1⟩, ?_⟩
    rw [List.map_cons, List.map_cons, first.2, ih.2]

theorem ofTopLevel_outline (site : Site) {w : Written.Definition V} {d : Python.Definition}
    (h : Outlines text w d) :
    (ofTopLevel site (SourceText.ofChars text) d).map (fun c => (c.kind, c.signature)) =
      outlineOf w := by
  cases w with
  | function f =>
    obtain ⟨kind, signature⟩ := h
    simp only [ofTopLevel, kind, List.map_singleton, ofDefinition, signature, outlineOf]
  | classDef w =>
    obtain ⟨kind, signature, methods⟩ := h
    obtain ⟨functions, signatures⟩ := renders_all methods
    have all : d.methods = definitionsOf d.body :=
      List.filter_eq_self.mpr fun m hm => beq_iff_eq.mpr (functions m hm)
    simp only [ofTopLevel, kind, List.map_cons, List.map_map, ofDefinition, signature, outlineOf,
      all]
    exact congrArg _ signatures

theorem flatMap_outline (site : Site) {ws : List (Written.Definition V)}
    {ds : List Python.Definition} (h : List.Forall₂ (Outlines text) ws ds) :
    (ds.flatMap (ofTopLevel site (SourceText.ofChars text))).map (fun c => (c.kind, c.signature)) =
      ws.flatMap outlineOf := by
  induction h with
  | nil => rfl
  | cons first _ ih =>
    rw [List.flatMap_cons, List.flatMap_cons, List.map_append, ih, ofTopLevel_outline site first]

/-- The components of a file of definitions are those that were written, with their signatures. -/
theorem ofFile_outline (site : Site) (path : String) (ws : List (Written.Definition V)) :
    ∃ source, SourceFile.parse path (fileOf ws) = .ok source ∧
      (ofFile site source).map (fun c => (c.kind, c.signature)) = ws.flatMap outlineOf := by
  obtain ⟨source, parsed, text, outlines⟩ := parse_fileOf path ws
  refine ⟨source, parsed, ?_⟩
  rw [ofFile, text]
  exact flatMap_outline site outlines

theorem outlineOf_functions (ws : List (Written.Definition V)) :
    ((ws.flatMap outlineOf).filter fun c => c.1 != .classDef).map Prod.snd =
      (ws.flatMap Written.Definition.functions).map Function.signature := by
  induction ws with
  | nil => rfl
  | cons w ws ih =>
    rw [List.flatMap_cons, List.flatMap_cons, List.filter_append, List.map_append, List.map_append,
      ih]
    congr 1
    cases w with
    | function f => rfl
    | classDef w =>
      rw [outlineOf, List.filter_cons_of_neg (by simp), List.filter_eq_self.mpr (by simp),
        List.map_map]
      rfl

end

/-- With values of one token there are no type parameters. -/
theorem signature_atom (f : Function Atom) : f.signature = (f.heading Atom.text).signature := by
  have rendered : Atom.text = lineOf := funext fun a => (lineOf_atom a).symm
  have none : f.types = none := by
    cases f.types with
    | none => rfl
    | some t => exact (show Empty from t).elim
  rw [Function.signature, none, rendered, Heading.signature]
  exact congrArg (· ++ _) String.append_empty

example :
    Heading.signature
      ⟨true, "f", [.named "a" none none, .positionalOnly, .named "b" (some "int") (some "1"),
      .keywordOnly, .named "c" none (some "2"), .splat true "d" (some "T")], some "str"⟩ =
    "async def f(a, /, b: int = 1, *, c=2, **d: T) -> str" := by
  decide

end RepoAtlas.Component
