/-!
A pool of lanes that works through the positions of a list. Each lane takes the next position that
nobody has taken, starts work on it, goes on when that work settles, notes the value and takes
another position. It ends when no position is left, or when its work fails. Values come out in list
order, whichever work settles first.
-/
namespace RepoAtlas.Pool
variable {α β ε : Type} {n : Nat}

/-- What a lane is at. Work that has settled waits for its lane to go on. -/
inductive Lane (n : Nat) (β ε : Type) where
  | free
  | working (position : Fin n)
  | settled (position : Fin n) (outcome : Except ε β)
  | ended

def Lane.canGoOn : Lane n β ε → Bool
  | .free | .settled .. => true
  | .working _ | .ended => false

def Lane.isWorking : Lane n β ε → Bool
  | .working _ => true
  | .free | .settled .. | .ended => false

structure State (n : Nat) (β ε : Type) where
  /-- The first position that is not taken. -/
  next : Nat
  lanes : List (Lane n β ε)
  /-- Positions in the order in which work on them started, and in which it settled. -/
  started : List (Fin n)
  finished : List (Fin n)
  results : Vector (Option β) n
  /-- The failure that came first. -/
  failure : Option ε

/-- As many lanes as allowed, but no more than there are positions. -/
def start (n limit : Nat) : State n β ε :=
  ⟨0, List.replicate (min limit n) .free, [], [], Vector.replicate n none, none⟩

namespace State

/-- A lane takes the next position and starts work on it, or ends if there is none. -/
def take (s : State n β ε) (l : Nat) : State n β ε :=
  if h : s.next < n then
    { s with
      next := s.next + 1
      lanes := s.lanes.set l (.working ⟨s.next, h⟩)
      started := s.started ++ [⟨s.next, h⟩] }
  else { s with lanes := s.lanes.set l .ended }

def settle (s : State n β ε) (l : Nat) (i : Fin n) (outcome : Except ε β) : State n β ε :=
  { s with lanes := s.lanes.set l (.settled i outcome), finished := s.finished ++ [i] }

def note (s : State n β ε) (i : Fin n) (value : β) : State n β ε :=
  { s with results := s.results.set i (some value) }

def fail (s : State n β ε) (l : Nat) (error : ε) : State n β ε :=
  { s with lanes := s.lanes.set l .ended, failure := s.failure.or (some error) }

/-- What comes next for a lane: work in flight settles, any other lane goes on until it waits for
work again. -/
def advance (work : Fin n → Except ε β) (s : State n β ε) (l : Nat) : State n β ε :=
  match s.lanes[l]? with
  | some .free => s.take l
  | some (.working i) => s.settle l i (work i)
  | some (.settled i (.ok value)) => (s.note i value).take l
  | some (.settled _ (.error error)) => s.fail l error
  | some .ended | none => s

/-- The lane whose turn it is: work settles only when no lane can go on. -/
def turn (s : State n β ε) : Option Nat :=
  (s.lanes.findIdx? Lane.canGoOn).or (s.lanes.findIdx? Lane.isWorking)

/-- The values in list order, or the first failure. -/
def outcome (s : State n β ε) : Except ε (List β) :=
  match s.failure with
  | some error => .error error
  | none => .ok (s.results.toList.filterMap id)

end State

def drain (work : Fin n → Except ε β) : Nat → State n β ε → State n β ε
  | 0, s => s
  | k + 1, s =>
    match s.turn with
    | some l => drain work k (s.advance work l)
    | none => s

def run (limit : Nat) (worker : α → Nat → Except ε β) (xs : List α) : Except ε (List β) :=
  (drain (fun i => worker xs[i] i) (3 * xs.length) (start xs.length limit)).outcome

def map (limit : Nat) (f : α → β) (xs : List α) : List β :=
  match run limit (fun x _ => (.ok (f x) : Except Empty β)) xs with
  | .ok values => values
  | .error error => nomatch error

end RepoAtlas.Pool
