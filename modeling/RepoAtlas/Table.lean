/-!
Tables that remember the order in which keys were first added; the keys are texts unless said
otherwise. Writing to a key that is present changes its value and leaves its place.
-/
namespace RepoAtlas

structure Table (α : Type) (κ : Type := String) where
  entries : List (κ × α)
  deriving Repr

namespace Table
variable {α β κ : Type} [DecidableEq κ]

def empty : Table α κ := ⟨[]⟩

def get? (t : Table α κ) (k : κ) : Option α := t.entries.lookup k

def contains (t : Table α κ) (k : κ) : Bool := (t.get? k).isSome

def keys (t : Table α κ) : List κ := t.entries.map (·.1)

def values (t : Table α κ) : List α := t.entries.map (·.2)

def size (t : Table α κ) : Nat := t.entries.length

def insertEntry (k : κ) (v : α) : List (κ × α) → List (κ × α)
  | [] => [(k, v)]
  | (k', v') :: rest => if k = k' then (k, v) :: rest else (k', v') :: insertEntry k v rest

def insert (t : Table α κ) (k : κ) (v : α) : Table α κ := ⟨insertEntry k v t.entries⟩

def modify (t : Table α κ) (k : κ) (f : α → α) : Table α κ :=
  ⟨t.entries.map fun e => if e.1 = k then (e.1, f e.2) else e⟩

def map (t : Table α κ) (f : α → β) : Table β κ := ⟨t.entries.map fun e => (e.1, f e.2)⟩

def ofList (entries : List (κ × α)) : Table α κ :=
  entries.foldl (fun t e => t.insert e.1 e.2) empty

end Table

end RepoAtlas
