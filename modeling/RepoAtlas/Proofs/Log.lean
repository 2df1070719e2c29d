import Mathlib.Tactic.Common
import RepoAtlas.Log

/-!
What a computation that leaves messages comes to: a value, and the messages after it. Values are
followed step by step; messages only travel along.
-/
namespace RepoAtlas.Logged
variable {α β : Type}

def value (x : Logged α) (log : List Log.Entry) : α := (StateT.run x log).1

def messages (x : Logged α) (log : List Log.Entry) : List Log.Entry := (StateT.run x log).2

@[simp] theorem value_pure (a : α) (log : List Log.Entry) : value (pure a) log = a := rfl

@[simp] theorem value_bind (x : Logged α) (f : α → Logged β) (log : List Log.Entry) :
    value (x >>= f) log = value (f (value x log)) (messages x log) := rfl

theorem messages_note (verbose : Bool) (message : String) (log : List Log.Entry) :
    (Log.note verbose message).messages log =
      log ++ if verbose then [⟨.debug, message⟩] else [] := by
  cases verbose with
  | true => rfl
  | false => exact (List.append_nil log).symm

/-- What every step keeps, a fold keeps. -/
theorem foldlM_keeps {f : β → α → Logged β} {P : β → Prop} {xs : List α}
    (step : ∀ b, P b → ∀ a ∈ xs, ∀ log, P (value (f b a) log)) {b : β} (h : P b)
    (log : List Log.Entry) : P (value (xs.foldlM f b) log) := by
  induction xs generalizing b log with
  | nil => exact h
  | cons a xs ih =>
    rw [List.foldlM_cons, value_bind]
    apply ih
    · exact fun b hb x hx => step b hb x (List.mem_cons_of_mem _ hx)
    · exact step b h a (List.mem_cons_self ..) log

end RepoAtlas.Logged
