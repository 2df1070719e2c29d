import RepoAtlas.Pass.Structure
import RepoAtlas.Proofs.Catalog
import RepoAtlas.Proofs.Origin

/-!
What the structural passes look at. They read names, kinds and places of components and the files of
the tree, but neither the links found so far nor what was opened before: on the bare workspace,
without links and with nothing opened, they find the same.
-/
namespace RepoAtlas
open Text Python

namespace Component
variable {s t : Component}

theorem id_of_unlinked (same : s.unlinked = t.unlinked) : s.id = t.id := by
  injection same

theorem filePath_of_unlinked (same : s.unlinked = t.unlinked) : s.filePath = t.filePath := by
  injection same

end Component

namespace Catalog
variable {c d : Catalog}

def bare (c : Catalog) : Catalog := ⟨c.components.map Component.unlinked⟩

theorem bare_eq_of_outline (h : c.outline = d.outline) : c.bare = d.bare :=
  congrArg (fun entries => Catalog.mk ⟨entries⟩) h

theorem get?_bare (c : Catalog) (x : String) : c.bare.get? x = (c.get? x).map Component.unlinked :=
  Table.get?_map_entries c.components.entries (fun _ s => s.unlinked) x

theorem has_bare (c : Catalog) : c.bare.has = c.has := by
  funext x
  have found := congrArg Option.isSome (get?_bare c x)
  rwa [Option.isSome_map] at found

theorem ids_bare [Collator] (c : Catalog) : c.bare.ids = c.ids := by
  have keys : c.bare.components.keys = c.components.keys := by
    simp [bare, Table.keys, Table.map, Function.comp_def]
  rw [ids, keys, ids]

theorem values_bare [Collator] (c : Catalog) : c.bare.values = c.values.map Component.unlinked := by
  rw [values, ids_bare, values, List.map_filterMap]
  exact congrArg (fun f => c.ids.filterMap f) (funext (get?_bare c))

theorem bare_bare (c : Catalog) : c.bare.bare = c.bare := by
  simp only [bare, Table.map, List.map_map]
  rfl

end Catalog

namespace Workspace
variable {w v : Workspace}

def bare (w : Workspace) : Workspace := { w with catalog := w.catalog.bare, cache := .empty }

theorem world_bare (agrees : w.cache.Agrees w.tree) : w.bare.world = w.world :=
  (World.ofTree_of_agrees agrees).symm

/-- Nothing tells the workspaces apart but links and users, and which files were opened. -/
structure LooksLike (w v : Workspace) : Prop where
  world : w.world = v.world
  steps : w.steps = v.steps
  catalog : w.catalog.bare = v.catalog.bare

namespace LooksLike

theorem refl (w : Workspace) : w.LooksLike w := ⟨rfl, rfl, rfl⟩

theorem trans {u : Workspace} (h : u.LooksLike w) (h' : w.LooksLike v) : u.LooksLike v :=
  ⟨h.world.trans h'.world, h.steps.trans h'.steps, h.catalog.trans h'.catalog⟩

theorem index (h : w.LooksLike v) : w.index = v.index := congrArg World.index h.world

end LooksLike

theorem bare_looksLike (agrees : w.cache.Agrees w.tree) : w.bare.LooksLike w :=
  ⟨world_bare agrees, rfl, Catalog.bare_bare w.catalog⟩

end Workspace

namespace Structure
variable {w v : Workspace}

theorem findId_bare (c : Catalog) (path : String) :
    Reconcile.findId c.bare path = Reconcile.findId c path := by
  rw [Reconcile.findId, Reconcile.findId, Catalog.has_bare]

theorem definitionOf_bare (c : Catalog) (world : World) (s : Component) :
    definitionOf c.bare world s.unlinked = definitionOf c world s := by
  have kind : s.unlinked.kind = s.kind := rfl
  have own : localName s.unlinked = localName s := rfl
  have owner : ownerId s.unlinked = ownerId s := rfl
  rw [definitionOf, definitionOf]
  refine congrArg (fun f => world.view s.filePath >>= f) (funext fun file => ?_)
  simp only [kind, own, owner, Catalog.get?_bare]
  cases s.kind with
  | function => rfl
  | classDef => rfl
  | method => cases c.get? (ownerId s) <;> rfl

theorem methodEvents_bare [Collator] (c : Catalog) : methodEvents c.bare = methodEvents c := by
  rw [methodEvents, Catalog.values_bare, List.filterMap_map, methodEvents]
  rfl

/-! Links are not looked at, nor which files were opened, as long as they show the same. -/

theorem methodEvents_congr [Collator] (h : w.LooksLike v) :
    methodEvents w.catalog = methodEvents v.catalog := by
  rw [← methodEvents_bare, h.catalog, methodEvents_bare]

variable {s t : Component}

theorem nameEvents_congr (h : w.LooksLike v) (same : s.unlinked = t.unlinked)
    (fits : Origin.Kind → Bool) (name complaint : String) :
    nameEvents w s fits name complaint = nameEvents v t fits name complaint := by
  have id : s.id = t.id := Component.id_of_unlinked same
  have filePath : s.filePath = t.filePath := Component.filePath_of_unlinked same
  have found : Reconcile.findId w.catalog = Reconcile.findId v.catalog := by
    funext path
    rw [← findId_bare, h.catalog, findId_bare]
  rw [nameEvents, h.world, h.steps, h.index, found, id, filePath, nameEvents]

namespace Mention

theorem eventsOf_congr (m : Mention) (h : w.LooksLike v) (same : s.unlinked = t.unlinked) :
    m.eventsOf w s = m.eventsOf v t := by
  have id : s.id = t.id := Component.id_of_unlinked same
  have filePath : s.filePath = t.filePath := Component.filePath_of_unlinked same
  have definition : definitionOf w.catalog w.world s = definitionOf v.catalog v.world t := by
    rw [← definitionOf_bare w.catalog, same, h.catalog, h.world, definitionOf_bare v.catalog]
  rw [eventsOf, eventsOf, filePath, definition]
  cases definitionOf v.catalog v.world t with
  | none => rfl
  | some d =>
    rw [id]
    have names := fun name => nameEvents_congr h same m.fits name (m.complaint t.id name)
    simp only [names]

theorem events_eq_unlinked [Collator] (m : Mention) (w : Workspace) :
    m.events w =
      ((w.catalog.values.map Component.unlinked).filter fun c => m.concerns c.kind).flatMap
        (m.eventsOf w) := by
  have single (c : Component) : m.eventsOf w c.unlinked = m.eventsOf w c :=
    m.eventsOf_congr (.refl w) rfl
  rw [List.filter_map, List.flatMap_map]
  simp only [single]
  rfl

theorem events_congr [Collator] (m : Mention) (h : w.LooksLike v) : m.events w = m.events v := by
  have values : w.catalog.values.map Component.unlinked =
      v.catalog.values.map Component.unlinked := by
    rw [← Catalog.values_bare, h.catalog, Catalog.values_bare]
  have single : m.eventsOf w = m.eventsOf v := funext fun c => m.eventsOf_congr h rfl
  rw [events_eq_unlinked, values, single, ← events_eq_unlinked]

theorem events_bare [Collator] (m : Mention) (agrees : w.cache.Agrees w.tree) :
    m.events w.bare = m.events w :=
  m.events_congr (Workspace.bare_looksLike agrees)

end Mention

end Structure

end RepoAtlas
