import Mathlib.Tactic.Common
import RepoAtlas.Proofs.Table
import RepoAtlas.Python.Cache

/-!
Histories of a cache. Files are asked for, put in and marked as failed in any order while the tree
beside the cache changes at will. What was first entered for a path stays, and a failure is reported
only by the request that enters it.
-/
namespace RepoAtlas.Python
open RepoAtlas.Text

inductive Fault (tree : FileTree) (path : String) : LoadError → Prop where
  | unreadable {e : FileTree.ReadError} : tree.read path = .error e →
        Fault tree path (.unreadable path e)
  | undecodable {bytes : ByteArray} : tree.read path = .ok bytes → Utf8.decode? bytes = none →
      Fault tree path (.unparsable ⟨path, .notUtf8⟩)
  | unparsable {bytes : ByteArray} {text : String} {e : ParseError} : tree.read path = .ok bytes →
      Utf8.decode? bytes = some text → SourceFile.parse path text = .error e →
      Fault tree path (.unparsable e)

theorem load_eq_error_iff {tree : FileTree} {path : String} {e : LoadError} :
    load tree path = .error e ↔ Fault tree path e := by
  constructor
  · intro failed
    rw [load] at failed
    cases read : tree.read path with
    | error reason =>
      rw [read] at failed
      cases failed
      exact .unreadable read
    | ok bytes =>
      rw [read] at failed
      simp only [SourceFile.ofBytes] at failed
      cases decoded : Utf8.decode? bytes with
      | none =>
        rw [decoded] at failed
        cases failed
        exact .undecodable read decoded
      | some text =>
        rw [decoded] at failed
        simp only at failed
        cases parsed : SourceFile.parse path text with
        | error reason =>
          rw [parsed] at failed
          cases failed
          exact .unparsable read decoded parsed
        | ok source =>
          rw [parsed] at failed
          cases failed
  · rintro (read | ⟨read, decoded⟩ | ⟨read, decoded, parsed⟩)
    · simp [load, read]
    · simp [load, read, SourceFile.ofBytes, decoded]
    · simp [load, read, SourceFile.ofBytes, decoded, parsed]

namespace Cache

theorem get?_add (c : Cache) (path p : String) (entry : Option SourceFile) :
    (c.add path entry).entries.get? p =
      (c.entries.get? p).or (if path = p then some entry else none) := by
  rw [add, has, Table.contains]
  by_cases same : path = p
  · subst same
    cases held : c.entries.get? path with
    | none => simp [Table.get?_insert]
    | some old => simp [held]
  · rw [if_neg same, Option.or_none]
    split
    · rfl
    · rw [Table.get?_insert, if_neg (Ne.symm same)]

structure Store where
  cache : Cache
  tree : FileTree

inductive Action where
  | has (path : String)
  | get (path : String)
  | insert (file : SourceFile)
  | markFailed (path : String)
  /-- Files are written, replaced or removed: another tree takes the place of the tree. -/
  | change (tree : FileTree)

namespace Action

def target? : Action → Option String
  | .get path | .markFailed path => some path
  | .insert file => some file.path
  | .has _ | .change _ => none

@[simp] theorem target?_get (path : String) : (get path).target? = some path := rfl

def entry (tree : FileTree) : Action → Option SourceFile
  | .get path => (load tree path).toOption
  | .insert file => some file
  | _ => none

end Action

namespace Store

def held? (s : Store) (path : String) : Option (Option SourceFile) := s.cache.entries.get? path

def answer (s : Store) (path : String) : Option SourceFile := s.cache.view s.tree path

def act (s : Store) : Action → Store
  | .has _ => s
  | .get path => { s with cache := s.cache.touch s.tree path }
  | .insert file => { s with cache := s.cache.insert file }
  | .markFailed path => { s with cache := s.cache.markFailed path }
  | .change tree => { s with tree := tree }

def report? (s : Store) : Action → Option (String × LoadError)
  | .get path => (s.cache.failure? s.tree path).map fun e => (path, e)
  | _ => none

def reports (s : Store) : List Action → List (String × LoadError)
  | [] => []
  | a :: rest => (s.report? a).toList ++ (s.act a).reports rest

def after (tree : FileTree) (history : List Action) : Store := history.foldl act ⟨.empty, tree⟩

variable {s : Store} {a : Action} {path : String}

/-- What one action does to the entry of a path: nothing, if there is one. -/
theorem held?_act (s : Store) (a : Action) (path : String) :
    (s.act a).held? path =
      (s.held? path).or (if a.target? = some path then some (a.entry s.tree) else none) := by
  cases a with
  | has p => simp [act, Action.target?]
  | change tree => simp [act, Action.target?, held?]
  | insert file => simp [act, held?, insert, get?_add, Action.target?, Action.entry]
  | markFailed p => simp [act, held?, markFailed, get?_add, Action.target?, Action.entry]
  | get p =>
    simp only [act, held?, touch, get?_add, Action.target?, Action.entry, view, Option.some.injEq]
    by_cases same : p = path
    · subst same
      cases held : s.cache.entries.get? p with
      | none => simp
      | some old => simp
    · simp [same]

theorem held?_foldl_of_some {entry : Option SourceFile} (history : List Action)
    (held : s.held? path = some entry) : (history.foldl act s).held? path = some entry := by
  induction history generalizing s with
  | nil => exact held
  | cons a rest ih =>
    apply ih
    rw [held?_act, held, Option.some_or]

theorem isSome_held?_foldl (history : List Action) :
    ((history.foldl act s).held? path).isSome ↔
      (s.held? path).isSome ∨ ∃ a ∈ history, a.target? = some path := by
  induction history generalizing s with
  | nil => simp
  | cons a rest ih =>
    rw [List.foldl_cons, ih, held?_act, List.exists_mem_cons_iff, ← or_assoc]
    apply or_congr_left
    by_cases own : a.target? = some path
    · simp [own]
    · simp [own]

theorem has_iff : s.cache.has path = true ↔ (s.held? path).isSome := Iff.rfl

theorem answer_of_some {entry : Option SourceFile} (held : s.held? path = some entry) :
    s.answer path = entry := by
  rw [answer, view, show s.cache.entries.get? path = some entry from held]

theorem failure?_eq_some_iff {e : LoadError} :
    s.cache.failure? s.tree path = some e ↔
      s.held? path = none ∧ s.tree.exists? path = true ∧ Fault s.tree path e := by
  rw [failure?, has, Table.contains, ← load_eq_error_iff, ← held?]
  cases s.held? path with
  | some entry => simp
  | none =>
    cases s.tree.exists? path with
    | false => simp
    | true => cases load s.tree path <;> simp

theorem report?_eq_some_iff {e : LoadError} :
    s.report? a = some (path, e) ↔
      a = .get path ∧ s.held? path = none ∧ s.tree.exists? path = true ∧ Fault s.tree path e := by
  cases a with
  | get p =>
    rw [report?, Option.map_eq_some_iff]
    constructor
    · rintro ⟨e', failed, heq⟩
      obtain ⟨rfl, rfl⟩ := Prod.mk.inj heq
      exact ⟨rfl, failure?_eq_some_iff.mp failed⟩
    · rintro ⟨heq, failed⟩
      cases heq
      exact ⟨e, failure?_eq_some_iff.mpr failed, rfl⟩
  | has p => simp [report?]
  | insert file => simp [report?]
  | markFailed p => simp [report?]
  | change tree => simp [report?]

/-- A report comes from the request before which there was no entry. -/
theorem mem_reports_iff {e : LoadError} {history : List Action} :
    (path, e) ∈ s.reports history ↔ ∃ before later, history = before ++ .get path :: later ∧
      (before.foldl act s).held? path = none ∧ (before.foldl act s).tree.exists? path = true ∧
      Fault (before.foldl act s).tree path e := by
  induction history generalizing s with
  | nil => simp [reports]
  | cons a rest ih =>
    rw [reports, List.mem_append, Option.mem_toList, report?_eq_some_iff, ih]
    constructor
    · rintro (⟨rfl, now⟩ | ⟨before, later, rfl, then_⟩)
      · exact ⟨[], rest, rfl, now⟩
      · exact ⟨a :: before, later, rfl, then_⟩
    · rintro ⟨before, later, heq, there⟩
      cases before with
      | nil =>
        cases heq
        exact .inl ⟨rfl, there⟩
      | cons b before =>
        cases heq
        exact .inr ⟨before, later, rfl, there⟩

theorem reports_of_some {entry : Option SourceFile} (held : s.held? path = some entry)
    (history : List Action) : ∀ r ∈ s.reports history, r.1 ≠ path := by
  rintro ⟨p, e⟩ reported rfl
  obtain ⟨before, _, _, missing, _⟩ := mem_reports_iff.mp reported
  rw [held?_foldl_of_some before held] at missing
  cases missing

theorem length_reports_le (history : List Action) (path : String) :
    ((s.reports history).filter fun r => r.1 == path).length ≤ 1 := by
  induction history generalizing s with
  | nil => simp [reports]
  | cons a rest ih =>
    rw [reports, List.filter_append]
    cases first : s.report? a with
    | none => simpa using ih
    | some r =>
      by_cases own : r.1 = path
      · -- the report comes with an entry, after which nothing is reported
        obtain ⟨p, e⟩ := r
        subst own
        obtain ⟨rfl, missing, _, _⟩ := report?_eq_some_iff.mp first
        have held : (s.act (.get p)).held? p = some (Action.entry s.tree (.get p)) := by
          rw [held?_act, missing, Option.none_or, if_pos (Action.target?_get p)]
        have silent : ((s.act (.get p)).reports rest).filter (fun r => r.1 == p) = [] := by
          apply List.filter_eq_nil_iff.mpr
          intro r reported same
          exact reports_of_some held rest r reported (beq_iff_eq.mp same)
        simp [silent]
      · simpa [own] using ih

end Store

open Store

/-- What a history of a cache that starts empty comes to. -/
structure AppendOnly (tree : FileTree) (history : List Action) : Prop where
  /-- What was entered at any time is still there, and it is what asking gives. -/
  kept : ∀ before later path entry, history = before ++ later →
    (after tree before).held? path = some entry →
    (after tree history).held? path = some entry ∧ (after tree history).answer path = entry
  /-- The entry is that of the first action that names the path. -/
  first : ∀ before a later path, history = before ++ a :: later → a.target? = some path →
    (∀ b ∈ before, b.target? ≠ some path) →
    (after tree history).held? path = some (a.entry (after tree before).tree)
  /-- Asking gives the entry that is there from then on. -/
  answered : ∀ path, ((after tree history).act (.get path)).held? path =
    some ((after tree history).answer path)
  has : ∀ path, (after tree history).cache.has path = true ↔
    ∃ a ∈ history, a.target? = some path
  once : ∀ path, ((Store.reports ⟨.empty, tree⟩ history).filter fun r => r.1 == path).length ≤ 1
  /-- A failure is reported by the first action that names the path, if that asks for the file, the
  file is there and something is wrong with it. -/
  reported : ∀ path e, (path, e) ∈ Store.reports ⟨.empty, tree⟩ history ↔
    ∃ before later, history = before ++ .get path :: later ∧
      (∀ b ∈ before, b.target? ≠ some path) ∧ (after tree before).tree.exists? path = true ∧
      Fault (after tree before).tree path e

theorem held?_after_eq_none_iff {tree : FileTree} {history : List Action} {path : String} :
    (after tree history).held? path = none ↔ ∀ a ∈ history, a.target? ≠ some path := by
  have empty : Store.held? ⟨.empty, tree⟩ path = none := rfl
  rw [← Option.not_isSome_iff_eq_none, after, isSome_held?_foldl, empty]
  simp

/-- Whatever is asked for, put in or marked, and whatever happens to the files meanwhile, a cache
only grows, and it reports a failure once. -/
theorem every_history_appends (tree : FileTree) (history : List Action) :
    AppendOnly tree history where
  kept := by
    rintro before later path entry rfl held
    have still : (after tree (before ++ later)).held? path = some entry := by
      rw [after, List.foldl_append]
      exact held?_foldl_of_some later held
    exact ⟨still, answer_of_some still⟩
  first := by
    rintro before a later path rfl own untouched
    rw [after, List.foldl_append, List.foldl_cons]
    apply held?_foldl_of_some
    rw [held?_act, if_pos own]
    exact (congrArg (Option.or · _) (held?_after_eq_none_iff.mpr untouched)).trans Option.none_or
  answered := by
    intro path
    rw [held?_act, if_pos (Action.target?_get path)]
    cases held : (after tree history).held? path with
    | some entry => rw [answer_of_some held, Option.some_or]
    | none =>
      rw [answer, view, show (after tree history).cache.entries.get? path = none from held]
      rfl
  has := by
    intro path
    rw [has_iff, after, isSome_held?_foldl]
    simp [Store.held?, empty, Table.empty, Table.get?]
  once := length_reports_le history
  reported := by
    intro path e
    rw [mem_reports_iff]
    refine exists_congr fun before => exists_congr fun later => and_congr_right fun _ => ?_
    exact and_congr_left fun _ => held?_after_eq_none_iff

end Cache

end RepoAtlas.Python
