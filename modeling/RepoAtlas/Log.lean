/-!
Messages that an analysis leaves behind, in order, and how a console shows them.
-/
namespace RepoAtlas

namespace Log

inductive Level where
  | debug
  | warn
  | error
  deriving DecidableEq, Repr

structure Entry where
  level : Level
  message : String
  deriving DecidableEq, Repr

inductive Stream where
  | warnings
  | errors
  deriving DecidableEq, Repr

def Level.stream : Level → Stream
  | .warn => .warnings
  | .debug | .error => .errors

def Entry.consoleLine (e : Entry) : Stream × String :=
  (e.level.stream, "[pydepgraph] " ++ e.message)

end Log

abbrev Logged := StateM (List Log.Entry)

namespace Log

def write (level : Level) (message : String) : Logged Unit :=
  modify (fun entries => entries ++ [⟨level, message⟩])

def warn (message : String) : Logged Unit := write .warn message

/-- Messages that only a verbose run shows. -/
def note (verbose : Bool) (message : String) : Logged Unit :=
  if verbose then write .debug message else pure ()

end Log

end RepoAtlas
