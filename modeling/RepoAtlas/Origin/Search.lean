import RepoAtlas.Origin.Attempt

/-!
The search for the origin of a name: attempts are tried in order, no query is tried twice, and
queries are followed only to a given depth. The queries tried are kept, because each of them opens a
file.
-/
namespace RepoAtlas
open Text Python

abbrev Search := StateM (List Query)

def firstFound {α β : Type} (f : α → Search (Option β)) : List α → Search (Option β)
  | [] => pure none
  | x :: xs => do
    match ← f x with
    | some b => return some b
    | none => firstFound f xs

def Attempt.follow (ask : Query → Search (Option Origin)) : Attempt → Search (Option Origin)
  | .answer o => pure (some o)
  | .ask q => ask q

namespace World

def search (w : World) : Nat → Query → Search (Option Origin)
  | 0, _ => pure none
  | n + 1, q => do
    if q ∈ (← get) then return none
    modify (q :: ·)
    firstFound (Attempt.follow (search w n)) (w.attempts q)

structure Finding where
  origin : Option Origin
  opened : List String
  deriving Repr

def Finding.ofSearch (before : List String) (s : Search (Option Origin)) : Finding :=
  let (origin, tried) := s.run []
  ⟨origin, before ++ tried.reverse.map (·.file)⟩

def resolve (w : World) (steps : Nat) (name file : String) : Finding :=
  if name = "" then ⟨none, []⟩ else .ofSearch [] (w.search steps ⟨w.index.absolute file, name⟩)

/-- The import that explains most of a name; the first one of those that explain equally much. -/
def bestImport (w : World) (file : String) (source : SourceFile) (name : String) :
    Option (Nat × Attempt) :=
  (source.imports.filterMap (w.importAttempt file true name)).foldl
    (fun best next =>
      match best with
      | some b => if b.1 < next.1 then some next else best
      | none => some next)
    none

/-- The origin of a name that a file uses: through the import that explains most of it, then through
wildcard imports, and at last in the file itself. -/
def trueOrigin (w : World) (steps : Nat) (file name : String) : Finding :=
  let file := w.index.absolute file
  match w.view file with
  | none => ⟨none, [file]⟩
  | some source =>
    if name = "" then ⟨none, [file]⟩
    else
      .ofSearch [file] do
        let best := (w.bestImport file source name).toList.map (·.2)
        match ← firstFound (Attempt.follow (w.search steps)) best with
        | some o => return some o
        | none =>
          match ← firstFound (Attempt.follow (w.search (steps - 1)))
              (w.wildcardAttempts file source name) with
          | some o => return some o
          | none => w.search steps ⟨file, name⟩

end World

end RepoAtlas
