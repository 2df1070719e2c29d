import RepoAtlas.Proofs.Origin
import RepoAtlas.Proofs.Origin.Completeness

/-!
Files are read when a search comes to them. A search that asks a shared cache for each file in its
turn, and leaves there what it read, finds what a search finds that sees all files at once; and it
leaves the cache as if the files had been asked for on their own, in the order in which they were
opened.
-/
namespace RepoAtlas
open Text Python

namespace Python.Cache

theorem view_touch (c : Cache) (tree : FileTree) (path : String) :
    (c.touch tree path).view tree = c.view tree := by
  rw [touch, add]
  by_cases present : c.has path = true
  · rw [if_pos present]
  · rw [if_neg present]
    funext p
    by_cases same : p = path
    · rw [same, view, Table.get?_insert, if_pos rfl]
    · rw [view, Table.get?_insert, if_neg same, view]

def touchAll (c : Cache) (tree : FileTree) (files : List String) : Cache :=
  files.foldl (fun c file => c.touch tree file) c

theorem touchAll_append (c : Cache) (tree : FileTree) (files more : List String) :
    c.touchAll tree (files ++ more) = (c.touchAll tree files).touchAll tree more :=
  List.foldl_append

theorem view_touchAll (c : Cache) (tree : FileTree) (files : List String) :
    (c.touchAll tree files).view tree = c.view tree := by
  induction files generalizing c with
  | nil => rfl
  | cons file files ih =>
    rw [touchAll, List.foldl_cons]
    exact (ih _).trans (view_touch c tree file)

end Python.Cache

theorem World.ofTree_touchAll (index : ModuleIndex) (tree : FileTree) (c : Cache)
    (files : List String) :
    ofTree index tree (c.touchAll tree files) = ofTree index tree c := by
  rw [ofTree, ofTree, Cache.view_touchAll]

/-! The search that reads as it goes. -/

structure Reading where
  tried : List Query
  cache : Cache

abbrev ReadingSearch := StateM Reading

namespace ReadingSearch

def first {α β : Type} (f : α → ReadingSearch (Option β)) : List α → ReadingSearch (Option β)
  | [] => pure none
  | x :: xs => do
    match ← f x with
    | some b => return some b
    | none => first f xs

def follow (ask : Query → ReadingSearch (Option Origin)) : Attempt → ReadingSearch (Option Origin)
  | .answer o => pure (some o)
  | .ask q => ask q

/-- A query asks the cache for its file when it is tried, and goes on with what it got. -/
def search (index : ModuleIndex) (tree : FileTree) : Nat → Query → ReadingSearch (Option Origin)
  | 0, _ => pure none
  | n + 1, q => do
    let now ← get
    if q ∈ now.tried then return none
    let cache := now.cache.touch tree q.file
    set (Reading.mk (q :: now.tried) cache)
    first (follow (search index tree n)) ((World.ofTree index tree cache).attempts q)

def share {α : Type} (s : ReadingSearch α) : StateM Cache α := fun cache =>
  let (a, now) := s.run ⟨[], cache⟩
  (a, now.cache)

def resolve (index : ModuleIndex) (tree : FileTree) (steps : Nat) (name file : String) :
    StateM Cache (Option Origin) :=
  if name = "" then pure none else share (search index tree steps ⟨index.absolute file, name⟩)

def searchImports (index : ModuleIndex) (tree : FileTree) (steps : Nat) (world : World)
    (file : String) (source : SourceFile) (name : String) : ReadingSearch (Option Origin) := do
  let best := (world.bestImport file source name).toList.map (·.2)
  match ← first (follow (search index tree steps)) best with
  | some o => return some o
  | none =>
    match ← first (follow (search index tree (steps - 1)))
      (world.wildcardAttempts file source name) with
    | some o => return some o
    | none => search index tree steps ⟨file, name⟩

def trueOrigin (index : ModuleIndex) (tree : FileTree) (steps : Nat) (file name : String) :
    StateM Cache (Option Origin) := fun before =>
  let file := index.absolute file
  let cache := before.touch tree file
  let world := World.ofTree index tree cache
  match world.view file with
  | none => (none, cache)
  | some source =>
    if name = "" then (none, cache)
    else (share (searchImports index tree steps world file source name)).run cache

/-! It does what the search does that sees everything. -/

section
variable {α β : Type} {tree : FileTree} {start : Cache}

def after (tree : FileTree) (start : Cache) (tried : List Query) : Reading :=
  ⟨tried, start.touchAll tree (tried.reverse.map (·.file))⟩

theorem after_cons (q : Query) (tried : List Query) :
    after tree start (q :: tried) =
      ⟨q :: tried, (after tree start tried).cache.touch tree q.file⟩ := by
  rw [after, List.reverse_cons, List.map_append, List.map_singleton, Cache.touchAll_append]
  rfl

/-- From the same queries both come to the same result and the same queries, and nothing was read
but their files. -/
def Mirrors (tree : FileTree) (start : Cache) (r : ReadingSearch α) (s : Search α) : Prop :=
  ∀ tried, r.run (after tree start tried) = ((s.run tried).1, after tree start (s.run tried).2)

theorem mirrors_pure (a : α) : Mirrors tree start (pure a) (pure a) := fun _ => rfl

theorem mirrors_bind {r : ReadingSearch α} {s : Search α} {k : α → ReadingSearch β}
    {l : α → Search β} (h : Mirrors tree start r s) (next : ∀ a, Mirrors tree start (k a) (l a)) :
    Mirrors tree start (r >>= k) (s >>= l) := by
  intro tried
  rw [StateT.run_bind, h tried]
  exact next _ _

theorem mirrors_or {r : ReadingSearch (Option β)} {s : Search (Option β)}
    {k : Option β → ReadingSearch (Option β)} {l : Option β → Search (Option β)}
    (h : Mirrors tree start r s) (found : ∀ b, k (some b) = pure (some b))
    (found' : ∀ b, l (some b) = pure (some b)) (next : Mirrors tree start (k none) (l none)) :
    Mirrors tree start (r >>= k) (s >>= l) := by
  apply mirrors_bind h
  intro a
  cases a with
  | none => exact next
  | some b =>
    rw [found, found']
    exact mirrors_pure _

theorem mirrors_first {f : α → ReadingSearch (Option β)} {g : α → Search (Option β)}
    (h : ∀ x, Mirrors tree start (f x) (g x)) (xs : List α) :
    Mirrors tree start (first f xs) (firstFound g xs) := by
  induction xs with
  | nil => exact mirrors_pure _
  | cons x xs ih => exact mirrors_or (h x) (fun _ => rfl) (fun _ => rfl) ih

theorem mirrors_follow {ask : Query → ReadingSearch (Option Origin)}
    {ask' : Query → Search (Option Origin)} (h : ∀ q, Mirrors tree start (ask q) (ask' q))
    (a : Attempt) : Mirrors tree start (follow ask a) (a.follow ask') := by
  cases a with
  | answer o => exact mirrors_pure _
  | ask q => exact h q

theorem run_search_of_tried {index : ModuleIndex} {steps : Nat} {q : Query} {now : Reading}
    (h : q ∈ now.tried) : (search index tree (steps + 1) q).run now = (none, now) := by
  rw [search, StateT.run_bind]
  change StateT.run (if q ∈ now.tried then _ else _) now = _
  rw [if_pos h]
  rfl

theorem run_search_of_new {index : ModuleIndex} {steps : Nat} {q : Query} {now : Reading}
    (h : q ∉ now.tried) :
    (search index tree (steps + 1) q).run now =
      (first (follow (search index tree steps))
        ((World.ofTree index tree (now.cache.touch tree q.file)).attempts q)).run
          ⟨q :: now.tried, now.cache.touch tree q.file⟩ := by
  rw [search, StateT.run_bind]
  change StateT.run (if q ∈ now.tried then _ else _) now = _
  rw [if_neg h]
  rfl

theorem mirrors_search (index : ModuleIndex) (steps : Nat) (q : Query) :
    Mirrors tree start (search index tree steps q)
    ((World.ofTree index tree start).search steps q) := by
  -- what the cache holds by now differs from the start, what it shows does not
  induction steps generalizing q with
  | zero => exact mirrors_pure _
  | succ steps ih =>
    intro tried
    by_cases seen : q ∈ tried
    · have seen' : q ∈ (after tree start tried).tried := seen
      rw [run_search_of_tried seen', World.run_search_of_tried seen]
    · have new : q ∉ (after tree start tried).tried := seen
      rw [run_search_of_new new, World.run_search_of_new seen]
      have shown : World.ofTree index tree ((after tree start tried).cache.touch tree q.file) =
          World.ofTree index tree start := by
        rw [World.ofTree, Cache.view_touch, after, Cache.view_touchAll, World.ofTree]
      have step := mirrors_first (mirrors_follow ih) ((World.ofTree index tree start).attempts q)
        (q :: tried)
      rw [after_cons] at step
      rw [shown]
      exact step

theorem run_share (before : List String) {r : ReadingSearch (Option Origin)}
    {s : Search (Option Origin)} (h : Mirrors tree (start.touchAll tree before) r s) :
    share r (start.touchAll tree before) =
      ((World.Finding.ofSearch before s).origin,
        start.touchAll tree (World.Finding.ofSearch before s).opened) := by
  have run : r.run ⟨[], start.touchAll tree before⟩ = _ := h []
  have opened : (World.Finding.ofSearch before s).opened =
      before ++ (s.run []).2.reverse.map (·.file) := rfl
  rw [share, run, opened, Cache.touchAll_append]
  rfl

end

theorem run_resolve (index : ModuleIndex) (tree : FileTree) (steps : Nat) (name file : String)
    (cache : Cache) :
    (resolve index tree steps name file).run cache =
      (((World.ofTree index tree cache).resolve steps name file).origin,
        cache.touchAll tree ((World.ofTree index tree cache).resolve steps name file).opened) := by
  rw [resolve, World.resolve]
  by_cases blank : name = ""
  · rw [if_pos blank, if_pos blank]
    rfl
  · rw [if_neg blank, if_neg blank]
    exact run_share [] (mirrors_search index steps _)

theorem run_trueOrigin (index : ModuleIndex) (tree : FileTree) (steps : Nat) (file name : String)
    (cache : Cache) :
    (trueOrigin index tree steps file name).run cache =
      (((World.ofTree index tree cache).trueOrigin steps file name).origin,
        cache.touchAll tree
          ((World.ofTree index tree cache).trueOrigin steps file name).opened) := by
  have index_eq : (World.ofTree index tree cache).index = index := rfl
  have shown (p : String) : World.ofTree index tree (cache.touch tree p) =
      World.ofTree index tree cache :=
    World.ofTree_touchAll index tree cache [p]
  simp only [trueOrigin, World.trueOrigin, StateT.run, shown, index_eq]
  generalize index.absolute file = file
  cases (World.ofTree index tree cache).view file with
  | none => rfl
  | some source =>
    by_cases blank : name = ""
    · simp only [if_pos blank]
      rfl
    · simp only [if_neg blank]
      have mirrored (n : Nat) (q : Query) : Mirrors tree (cache.touch tree file)
          (search index tree n q) ((World.ofTree index tree cache).search n q) := by
        rw [← shown file]
        exact mirrors_search index n q
      refine run_share [file] ?_
      refine mirrors_or (mirrors_first (mirrors_follow (mirrored steps)) _) (fun _ => rfl)
        (fun _ => rfl) ?_
      exact mirrors_or (mirrors_first (mirrors_follow (mirrored (steps - 1))) _) (fun _ => rfl)
        (fun _ => rfl) (mirrored steps _)

end ReadingSearch

end RepoAtlas
