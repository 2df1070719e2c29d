import RepoAtlas.Origin.Search
import RepoAtlas.Proofs.Path
import RepoAtlas.Proofs.Table

/-!
Origins are genuine. Whatever chain of imports, aliases, base classes and neighbouring files leads
to an origin, the file it names is there and holds what the origin says, as long as the cache holds
nothing but what the files hold.
-/
namespace RepoAtlas
open Text

namespace Python

/-- Every entry is what reading its file gives. -/
def Cache.Agrees (c : Cache) (tree : FileTree) : Prop :=
  ∀ path entry, c.entries.get? path = some entry → entry = (load tree path).toOption

theorem Cache.agrees_empty (tree : FileTree) : Cache.empty.Agrees tree := by
  intro path entry h
  cases h

theorem Cache.view_of_agrees {c : Cache} {tree : FileTree} (h : c.Agrees tree) (path : String) :
    c.view tree path = (load tree path).toOption := by
  rw [view]
  split
  · rename_i entry hentry
    exact h path entry hentry
  · rfl

theorem Cache.agrees_add {c : Cache} {tree : FileTree} (h : c.Agrees tree) (path : String) :
    (c.add path (load tree path).toOption).Agrees tree := by
  rw [add]
  by_cases present : c.has path = true
  · rw [if_pos present]
    exact h
  · rw [if_neg present]
    intro p entry hp
    rw [Table.get?_insert] at hp
    by_cases same : p = path
    · rw [if_pos same, Option.some.injEq] at hp
      rw [← hp, same]
    · rw [if_neg same] at hp
      exact h p entry hp

theorem Cache.agrees_touch {c : Cache} {tree : FileTree} (h : c.Agrees tree) (path : String) :
    (c.touch tree path).Agrees tree := by
  rw [touch, view_of_agrees h path]
  exact agrees_add h path

def LastSuch (p : Definition → Prop) (ds : List Definition) (d : Definition) : Prop :=
  ∃ before after, ds = before ++ d :: after ∧ p d ∧ ∀ e ∈ after, ¬ p e

theorem LastSuch.holds {p : Definition → Prop} {ds : List Definition} {d : Definition}
    (h : LastSuch p ds d) : p d := by
  obtain ⟨_, _, _, hd, _⟩ := h
  exact hd

theorem lastSuch_of_getLast? {p : Definition → Bool} {ds : List Definition} {d : Definition}
    (h : (ds.filter p).getLast? = some d) : LastSuch (fun d => p d = true) ds d := by
  obtain ⟨kept, hkept⟩ := List.getLast?_eq_some_iff.mp h
  obtain ⟨front, back, rfl, _, hback⟩ := List.filter_eq_append_iff.mp hkept
  obtain ⟨skipped, after, rfl, _, hd, hafter⟩ := List.filter_eq_cons_iff.mp hback
  refine ⟨front ++ skipped, after, by simp, hd, ?_⟩
  exact List.filter_eq_nil_iff.mp hafter

theorem SourceFile.last_of_find? {f : SourceFile} {name : String} {d : Definition}
    (h : f.find? name none = some d) : LastSuch (fun d => d.name = name) f.definitions d := by
  simpa using lastSuch_of_getLast? h

theorem SourceFile.lastClass_of_find? {f : SourceFile} {name : String} {d : Definition}
    (h : f.find? name (some .classDef) = some d) :
    LastSuch (fun d => d.name = name ∧ d.kind = .classDef) f.definitions d := by
  have last := lastSuch_of_getLast? h
  simp only [Option.all_some, Bool.and_eq_true, beq_iff_eq] at last
  simpa only [eq_comm (a := DefinitionKind.classDef)] using last

theorem SourceFile.undefined_of_find? {f : SourceFile} {name : String}
    (h : f.find? name none = none) :
    ∀ d ∈ f.definitions, d.name ≠ name := by
  simpa [find?] using h

theorem Definition.stmt_of_method {c m : Definition} (h : m ∈ c.methods) :
    ∃ header body, Stmt.definition header body ∈ c.body ∧ header.kind = .function ∧
      header.name = m.name := by
  obtain ⟨hm, hkind⟩ := List.mem_filter.mp h
  obtain ⟨stmt, hstmt, heq⟩ := List.mem_filterMap.mp hm
  cases stmt with
  | definition header body =>
    cases heq
    exact ⟨header, body, hstmt, beq_iff_eq.mp hkind, rfl⟩
  | _ => cases heq

theorem SourceFile.assigned_of_hasVariable {f : SourceFile} {name : String}
    (h : f.hasVariable name = true) :
    ∃ span names, Stmt.assignment span names ∈ f.body ∧ name ∈ names := by
  obtain ⟨stmt, hm, hn⟩ := List.mem_flatMap.mp (List.contains_iff_mem.mp h)
  cases stmt with
  | assignment span names => exact ⟨span, names, hm, hn⟩
  | _ => cases hn

end Python

open Python

/-- The file that an origin names holds what the origin says. -/
def Origin.Genuine (tree : FileTree) (o : Origin) : Prop :=
  match o.kind with
  | .function | .classDef =>
    o.qualifiedName = o.name ∧ ∃ source d, load tree o.filePath = .ok source ∧
      LastSuch (fun d => d.name = o.name) source.definitions d ∧ o.kind = .ofDefinition d.kind
  | .variable =>
    o.qualifiedName = o.name ∧ ∃ source, load tree o.filePath = .ok source ∧
      (∀ d ∈ source.definitions, d.name ≠ o.name) ∧
      ∃ span names, Stmt.assignment span names ∈ source.body ∧ o.name ∈ names
  | .method =>
    ∃ source c, load tree o.filePath = .ok source ∧
      LastSuch (fun d => d.name = c.name ∧ d.kind = .classDef) source.definitions c ∧
      o.qualifiedName = c.name ++ "." ++ o.name ∧
      ∃ header body, Stmt.definition header body ∈ c.body ∧ header.kind = .function ∧
        header.name = o.name
  | .module => o.qualifiedName = "" ∧ tree.isFile o.filePath = true

def Attempt.Genuine (tree : FileTree) : Attempt → Prop
  | .answer o => o.Genuine tree
  | .ask _ => True

namespace ModuleIndex

theorem firstFile_isFile {tree : FileTree} {candidates : List String} {file : String}
    (he : ∀ c ∈ candidates, Path.HasExtension c)
    (h : firstFile tree.isFile candidates = some file) : tree.isFile file = true := by
  obtain ⟨c, hc, rfl⟩ := Option.map_eq_some_iff.mp h
  exact FileTree.isFile_resolve_root (List.find?_some hc) (he c (List.mem_of_find?_eq_some hc))

theorem moduleFile_isFile {m : ModuleIndex} {tree : FileTree} {name : Option String}
    {file target : String} {level : Nat}
    (h : m.moduleFile tree.isFile name file level = some target) :
    tree.isFile target = true := by
  obtain ⟨base, _, hfirst⟩ := Option.bind_eq_some_iff.mp h
  refine firstFile_isFile (fun c hc => ?_) hfirst
  rcases List.mem_pair.mp hc with rfl | rfl
  · exact ⟨base, rfl⟩
  · exact Path.join_extension [base] ⟨Module.initialiser, rfl⟩

theorem siblingFile_isFile {m : ModuleIndex} {tree : FileTree} {name file target : String}
    (h : m.siblingFile tree.isFile name file = some target) : tree.isFile target = true := by
  refine firstFile_isFile (fun c hc => ?_) h
  rcases List.mem_pair.mp hc with rfl | rfl
  · exact Path.join_extension [_, name] ⟨Module.initialiser, rfl⟩
  · exact Path.join_extension [_] ⟨name, rfl⟩

end ModuleIndex

namespace World

/-- What resolution sees is what the files of the tree hold. -/
structure Reads (w : World) (tree : FileTree) : Prop where
  isFile : w.isFile = tree.isFile
  view : ∀ file source, w.view file = some source → load tree file = .ok source

theorem ofTree_reads {index : ModuleIndex} {tree : FileTree} {cache : Cache}
    (h : cache.Agrees tree) :
    (ofTree index tree cache).Reads tree := by
  refine ⟨rfl, fun file source hview => ?_⟩
  have loaded := (Cache.view_of_agrees h file).symm.trans hview
  cases hl : load tree file with
  | error e =>
    rw [hl] at loaded
    cases loaded
  | ok found =>
    rw [hl] at loaded
    rw [Option.some.inj loaded]

/-- What was opened before does not matter. -/
theorem ofTree_of_agrees {index : ModuleIndex} {tree : FileTree} {cache : Cache}
    (h : cache.Agrees tree) : ofTree index tree cache = ofTree index tree .empty := by
  have same : cache.view tree = Cache.empty.view tree := by
    funext path
    rw [Cache.view_of_agrees h, Cache.view_of_agrees (Cache.agrees_empty tree)]
  rw [ofTree, ofTree, same]

section
variable {w : World} {tree : FileTree} {file name : String} {source : SourceFile}

theorem importTarget_isFile (hw : w.Reads tree) {module : Option String} {level : Nat}
    {target : String} (h : w.importTarget file module level = some target) :
    tree.isFile target = true := by
  rw [importTarget, hw.isFile] at h
  exact ModuleIndex.moduleFile_isFile h

theorem memberAttempt_genuine (hw : w.Reads tree) {i : Import} {a : Attempt}
    (h : w.memberAttempt file i name = some a) : a.Genuine tree := by
  rw [memberAttempt] at h
  split at h
  · obtain ⟨target, _, rfl⟩ := Option.map_eq_some_iff.mp h
    trivial
  · simp only at h
    split at h
    · rename_i target htarget
      split at h
      · cases h
        exact ⟨rfl, importTarget_isFile hw htarget⟩
      · cases h
        trivial
    · obtain ⟨target, _, rfl⟩ := Option.map_eq_some_iff.mp h
      trivial

theorem moduleAttempt_genuine (hw : w.Reads tree) {i : Import} {n : Nat} {a : Attempt}
    (h : w.moduleAttempt file i name = some (n, a)) : a.Genuine tree := by
  -- both branches lead to a module in the same way
  have lead : ∀ (module rest : String) (score : Nat),
      ((w.importTarget file (some module) 0).map fun target =>
        (score, if rest = "" then Attempt.answer (.ofModule target (lastSegment '.' module))
          else .ask ⟨target, rest⟩)) = some (n, a) → a.Genuine tree := by
    intro module rest score hl
    obtain ⟨target, htarget, heq⟩ := Option.map_eq_some_iff.mp hl
    obtain ⟨_, rfl⟩ := Prod.mk.inj heq
    split
    · exact ⟨rfl, importTarget_isFile hw htarget⟩
    · trivial
  rw [moduleAttempt] at h
  simp only at h
  split at h
  · exact lead _ _ _ h
  · split at h
    · obtain ⟨rest, _, h⟩ := Option.bind_eq_some_iff.mp h
      exact lead _ _ _ h
    · cases h

theorem importAttempt_genuine (hw : w.Reads tree) {byName : Bool} {i : Import} {n : Nat}
    {a : Attempt} (h : w.importAttempt file byName name i = some (n, a)) : a.Genuine tree := by
  rw [importAttempt] at h
  split at h
  · cases h
  · exact moduleAttempt_genuine hw h
  · obtain ⟨spelled, _, h⟩ := Option.bind_eq_some_iff.mp h
    obtain ⟨b, hb, heq⟩ := Option.map_eq_some_iff.mp h
    obtain ⟨_, rfl⟩ := Prod.mk.inj heq
    exact memberAttempt_genuine hw hb

theorem importAttempts_genuine (hw : w.Reads tree) :
    ∀ a ∈ w.importAttempts file source name, a.Genuine tree := by
  intro a ha
  obtain ⟨⟨n, b⟩, hb, rfl⟩ := List.mem_map.mp ha
  obtain ⟨i, _, hi⟩ := List.mem_filterMap.mp hb
  exact importAttempt_genuine hw hi

theorem wildcardAttempts_genuine : ∀ a ∈ w.wildcardAttempts file source name, a.Genuine tree := by
  intro a ha
  obtain ⟨target, _, rfl⟩ := List.mem_map.mp ha
  trivial

theorem baseAttempts_genuine (hw : w.Reads tree) :
    ∀ a ∈ w.baseAttempts file source name, a.Genuine tree := by
  intro a ha
  rw [baseAttempts] at ha
  split at ha
  · rename_i first rest himports
    obtain rfl := List.mem_singleton.mp ha
    exact importAttempts_genuine hw a (himports ▸ List.mem_cons_self ..)
  · rcases List.mem_append.mp ha with ha | ha
    · exact wildcardAttempts_genuine a ha
    · obtain rfl := List.mem_singleton.mp ha
      trivial

theorem memberAttempts_genuine (hw : w.Reads tree) (hview : w.view file = some source)
    {head : String} {c : Definition} (hc : source.find? head (some .classDef) = some c)
    {rest : List String} :
    ∀ a ∈ w.memberAttempts file source c rest, a.Genuine tree := by
  intro a ha
  simp only [memberAttempts] at ha
  split at ha
  · rename_i hmethod
    split at ha
    · obtain rfl := List.mem_singleton.mp ha
      obtain ⟨m, hm, hname⟩ := List.any_eq_true.mp hmethod
      obtain ⟨header, body, hbody, hkind, hheader⟩ := Definition.stmt_of_method hm
      have last := SourceFile.lastClass_of_find? hc
      obtain rfl : c.name = head := last.holds.1
      exact ⟨source, c, hw.view file source hview, last, rfl, header, body, hbody, hkind,
        hheader.trans (beq_iff_eq.mp hname)⟩
    · cases ha
  · obtain ⟨base, _, ha⟩ := List.mem_flatMap.mp ha
    exact baseAttempts_genuine hw a ha

theorem siblingAttempts_genuine (hw : w.Reads tree) {parts : List String} :
    ∀ a ∈ w.siblingAttempts file parts, a.Genuine tree := by
  intro a ha
  simp only [siblingAttempts, hw.isFile] at ha
  split at ha
  · rename_i target htarget
    split at ha
    · cases ha
    · split at ha
      · obtain rfl := List.mem_singleton.mp ha
        exact ⟨rfl, ModuleIndex.siblingFile_isFile htarget⟩
      · obtain rfl := List.mem_singleton.mp ha
        trivial
  · cases ha

theorem ownAttempts_genuine (hw : w.Reads tree) (hview : w.view file = some source)
    {parts : List String} {own : List Attempt} (h : w.ownAttempts file source parts = some own) :
    ∀ a ∈ own, a.Genuine tree := by
  intro a ha
  have loaded := hw.view file source hview
  unfold ownAttempts at h
  split at h
  · rename_i name
    split at h
    · rename_i d hd
      cases h
      obtain rfl := List.mem_singleton.mp ha
      have last := SourceFile.last_of_find? hd
      cases hk : d.kind with
      | function => exact ⟨rfl, source, d, loaded, last, by rw [hk]⟩
      | classDef => exact ⟨rfl, source, d, loaded, last, by rw [hk]⟩
    · rename_i hnone
      split at h
      · rename_i hvar
        cases h
        obtain rfl := List.mem_singleton.mp ha
        exact ⟨rfl, source, loaded, SourceFile.undefined_of_find? hnone,
          SourceFile.assigned_of_hasVariable hvar⟩
      · cases h
  · obtain ⟨c, hc, rfl⟩ := Option.map_eq_some_iff.mp h
    exact memberAttempts_genuine hw hview hc a ha
  · cases h

theorem attempts_genuine (hw : w.Reads tree) (q : Query) : ∀ a ∈ w.attempts q, a.Genuine tree := by
  intro a ha
  rw [attempts] at ha
  split at ha
  · cases ha
  · rename_i source hview
    simp only at ha
    split at ha
    · rename_i own hown
      exact ownAttempts_genuine hw hview hown a ha
    · rcases List.mem_append.mp ha with ha | ha
      · rcases List.mem_append.mp ha with ha | ha
        · exact importAttempts_genuine hw a ha
        · exact wildcardAttempts_genuine a ha
      · exact siblingAttempts_genuine hw a ha

end

end World

/-- Whatever the search finds has a property, from whatever queries it starts. -/
def OnlyFinds (p : Origin → Prop) (s : Search (Option Origin)) : Prop :=
  ∀ tried o, (s.run tried).1 = some o → p o

section
variable {p : Origin → Prop}

theorem onlyFinds_pure {found : Option Origin} (h : ∀ o, found = some o → p o) :
    OnlyFinds p (pure found) := fun _ o ho => h o ho

theorem onlyFinds_bind {α : Type} {s : Search α} {k : α → Search (Option Origin)}
    (h : ∀ tried, OnlyFinds p (k (s.run tried).1)) : OnlyFinds p (s >>= k) :=
  fun tried o ho => h tried (s.run tried).2 o ho

/-- One search after another that found nothing. -/
theorem onlyFinds_or {s : Search (Option Origin)} {k : Option Origin → Search (Option Origin)}
    (hs : OnlyFinds p s) (found : ∀ o, k (some o) = pure (some o)) (hk : OnlyFinds p (k none)) :
    OnlyFinds p (s >>= k) := by
  apply onlyFinds_bind
  intro tried
  cases hrun : (s.run tried).1 with
  | none => exact hk
  | some o =>
    rw [found]
    apply onlyFinds_pure
    intro o' ho'
    exact hs tried o' (hrun.trans ho')

theorem onlyFinds_first {α : Type} {f : α → Search (Option Origin)} {xs : List α}
    (h : ∀ x ∈ xs, OnlyFinds p (f x)) : OnlyFinds p (firstFound f xs) := by
  induction xs with
  | nil => exact onlyFinds_pure (by simp)
  | cons x xs ih =>
    refine onlyFinds_or (h x (by simp)) (fun _ => rfl) (ih fun y hy => ?_)
    exact h y (List.mem_cons_of_mem _ hy)

theorem ofSearch_finds {before : List String} {s : Search (Option Origin)} {o : Origin}
    (hs : OnlyFinds p s) (h : (World.Finding.ofSearch before s).origin = some o) : p o := hs [] o h

end

namespace World
variable {w : World} {tree : FileTree}

theorem follow_genuine {ask : Query → Search (Option Origin)}
    (hask : ∀ q, OnlyFinds (fun o => o.Genuine tree) (ask q)) {a : Attempt} (ha : a.Genuine tree) :
    OnlyFinds (fun o => o.Genuine tree) (a.follow ask) := by
  cases a with
  | answer o =>
    intro tried o' h
    cases h
    exact ha
  | ask q => exact hask q

theorem search_genuine (hw : w.Reads tree) (steps : Nat) (q : Query) :
    OnlyFinds (fun o => o.Genuine tree) (w.search steps q) := by
  -- which queries were tried before does not matter: every query that is answered is answered well
  induction steps generalizing q with
  | zero => exact onlyFinds_pure (by simp)
  | succ steps ih =>
    rw [search]
    apply onlyFinds_bind
    intro tried
    split
    · exact onlyFinds_pure (by simp)
    · apply onlyFinds_bind
      intro _
      exact onlyFinds_first fun a ha => follow_genuine ih (attempts_genuine hw q a ha)

/-- A fold that keeps its pick or takes the next item ends with an item of the list. -/
theorem mem_of_foldl_pick {α : Type} {f : Option α → α → Option α}
    (hf : ∀ best next, f best next = best ∨ f best next = some next) {xs : List α} {acc : Option α}
    {x : α} (h : xs.foldl f acc = some x) : acc = some x ∨ x ∈ xs := by
  induction xs generalizing acc with
  | nil => exact Or.inl h
  | cons y xs ih =>
    rcases ih h with hy | hx
    · rcases hf acc y with hkeep | htake
      · exact Or.inl (hkeep ▸ hy)
      · rw [htake, Option.some.injEq] at hy
        exact Or.inr (by simp [hy])
    · exact Or.inr (List.mem_cons_of_mem _ hx)

theorem mem_of_bestImport {file name : String} {source : SourceFile} {best : Nat × Attempt}
    (h : w.bestImport file source name = some best) :
    best ∈ source.imports.filterMap (w.importAttempt file true name) := by
  refine (mem_of_foldl_pick ?_ h).resolve_left (by simp)
  intro best next
  cases best with
  | none => exact Or.inr rfl
  | some b =>
    by_cases more : b.1 < next.1
    · exact Or.inr (if_pos more)
    · exact Or.inl (if_neg more)

theorem resolve_genuine (hw : w.Reads tree) {steps : Nat} {name file : String} {o : Origin}
    (h : (w.resolve steps name file).origin = some o) : o.Genuine tree := by
  rw [resolve] at h
  split at h
  · cases h
  · exact ofSearch_finds (search_genuine hw _ _) h

theorem trueOrigin_genuine (hw : w.Reads tree) {steps : Nat} {file name : String} {o : Origin}
    (h : (w.trueOrigin steps file name).origin = some o) : o.Genuine tree := by
  simp only [trueOrigin] at h
  split at h
  · cases h
  · rename_i source _
    split at h
    · cases h
    · refine ofSearch_finds (p := fun o => o.Genuine tree) ?_ h
      refine onlyFinds_or ?_ (fun _ => rfl) ?_
      · apply onlyFinds_first
        intro a ha
        obtain ⟨⟨n, b⟩, hb, rfl⟩ := List.mem_map.mp ha
        obtain ⟨i, _, hi⟩ := List.mem_filterMap.mp (mem_of_bestImport (Option.mem_toList.mp hb))
        exact follow_genuine (search_genuine hw steps) (importAttempt_genuine hw hi)
      · refine onlyFinds_or ?_ (fun _ => rfl) ?_
        · exact onlyFinds_first fun a ha =>
            follow_genuine (search_genuine hw (steps - 1)) (wildcardAttempts_genuine a ha)
        · exact search_genuine hw steps _

end World

/-- Every origin that resolution gives is genuine: through whatever files a name was followed, and
however far. -/
theorem resolved_origin_genuine (tree : FileTree) (index : ModuleIndex) (cache : Cache)
    (agrees : cache.Agrees tree) (steps : Nat) (file name : String) (o : Origin)
    (found : ((World.ofTree index tree cache).resolve steps name file).origin = some o ∨
      ((World.ofTree index tree cache).trueOrigin steps file name).origin = some o) :
    o.Genuine tree := by
  have reads : (World.ofTree index tree cache).Reads tree := World.ofTree_reads agrees
  rcases found with found | found
  · exact World.resolve_genuine reads found
  · exact World.trueOrigin_genuine reads found

def aliasTree : FileTree :=
  (FileTree.empty.write "/r/a.py" (.file "from b import C as D\n".toUTF8)).write "/r/b.py"
    (.file "class C:\n    def m(self): pass\n".toUTF8)

def aliasIndex : ModuleIndex := .ofFiles "/r" ["a.py", "b.py"]

def aliasCache : Cache := Cache.empty.touch aliasTree "/r/b.py"

set_option maxRecDepth 100000 in
theorem alias_origin_genuine : aliasCache.Agrees aliasTree ∧
    ((World.ofTree aliasIndex aliasTree aliasCache).resolve 65 "D.m" "a.py").origin =
      some ⟨"/r/b.py", "m", "C.m", .method⟩ ∧
    Origin.Genuine aliasTree ⟨"/r/b.py", "m", "C.m", .method⟩ := by
  have agrees : aliasCache.Agrees aliasTree := Cache.agrees_touch (Cache.agrees_empty _) _
  have found : ((World.ofTree aliasIndex aliasTree aliasCache).resolve 65 "D.m" "a.py").origin =
      some ⟨"/r/b.py", "m", "C.m", .method⟩ := by decide +kernel
  exact ⟨agrees, found,
    resolved_origin_genuine aliasTree aliasIndex aliasCache agrees 65 "a.py" "D.m" _ (Or.inl found)⟩

end RepoAtlas
