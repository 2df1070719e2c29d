import RepoAtlas.Proofs.Pass.CallSites
import RepoAtlas.Proofs.Text.Segments
import RepoAtlas.Text.Alphabet

/-!
Callees whose first segment the repository does not know. Such a callee is not guessed at: among the
components that share its last segments none is picked by overlap. Its last segments are still
followed from the caller's file, before anything else is looked at, so it is linked to what they
mean there.
-/
namespace RepoAtlas.Reconcile
open Text

/-! Which keys are filed. -/

theorem contains_filed (es : List (String × String)) (index : SuffixIndex) (key : String) :
    (es.foldl (fun index e => index.insert e.1
      ((index.get? e.1).getD [] ++ [e.2])) index).contains key ↔
      index.contains key ∨ key ∈ es.map (·.1) := by
  induction es generalizing index with
  | nil => simp
  | cons e es ih =>
    rw [List.foldl_cons, ih, List.map_cons, List.mem_cons, Table.contains, Table.get?_insert]
    by_cases same : key = e.1
    · simp [same]
    · simp [same, Table.contains]

theorem contains_ofCatalog [Collator] {c : Catalog} {key : String} :
    (SuffixIndex.ofCatalog c).contains key ↔ ∃ id ∈ c.ids, key ∈ suffixKeys id := by
  rw [SuffixIndex.ofCatalog, contains_filed]
  simp [Table.contains, Table.empty, Table.get?]

/-- The keys of an id are its last segment and its last two segments, written with a dot. -/
theorem mem_suffixKeys {id key : String} : key ∈ suffixKeys id ↔
    ∃ tail, tail <:+ segments '.' id ∧ (tail.length = 1 ∨ tail.length = 2) ∧ key = dotted tail := by
  have whole : dotted (segments '.' id) = id := joinWith_segments '.' id
  have nonempty : 0 < (segments '.' id).length := List.length_pos_iff.mpr (segments_ne_nil '.' id)
  have single : ∀ part : String, dotted [part] = part := by simp [dotted, joinWith]
  rw [suffixKeys]
  by_cases short : (segments '.' id).length < 2
  · rw [if_pos short, List.mem_singleton]
    constructor
    · rintro rfl
      exact ⟨segments '.' key, List.suffix_rfl, by omega, whole.symm⟩
    · rintro ⟨tail, suffix, length, rfl⟩
      have shorter := suffix.length_le
      rw [suffix.eq_of_length (by omega), whole]
  · rw [if_neg short, List.mem_pair]
    constructor
    · rintro (rfl | rfl)
      · refine ⟨[(segments '.' id).getLast (segments_ne_nil '.' id)], ?_, by simp, ?_⟩
        · exact ⟨_, List.dropLast_append_getLast (segments_ne_nil '.' id)⟩
        · rw [single, List.getLastD_eq_getLast?,
            List.getLast?_eq_some_getLast (segments_ne_nil '.' id), Option.getD_some]
      · refine ⟨_, List.drop_suffix _ _, Or.inr ?_, rfl⟩
        rw [List.length_drop]
        omega
    · rintro ⟨tail, suffix, length | length, rfl⟩
      · obtain ⟨part, rfl⟩ := List.length_eq_one_iff.mp length
        obtain ⟨front, split⟩ := suffix
        left
        rw [single, ← split]
        simp
      · right
        rw [List.suffix_iff_eq_drop.mp suffix, length]

/-- Segments that an id ends in can be read off its keys. -/
theorem dotted_mem_suffixKeys {id : String} {tail : List String}
    (plain : ∀ part ∈ tail, '.' ∉ part.toList) (length : tail.length = 1 ∨ tail.length = 2) :
    dotted tail ∈ suffixKeys id ↔ tail <:+ segments '.' id := by
  rw [mem_suffixKeys]
  constructor
  · rintro ⟨other, suffix, otherLength, same⟩
    have otherPlain : ∀ part ∈ other, '.' ∉ part.toList := fun part hp =>
      not_mem_of_mem_segments (suffix.subset hp)
    have read : ∀ parts : List String, (∀ part ∈ parts, '.' ∉ part.toList) →
        (parts.length = 1 ∨ parts.length = 2) → segments '.' (dotted parts) = parts := by
      intro parts plain length
      refine segments_joinWith ?_ plain
      rintro rfl
      simp at length
    rwa [← read tail plain length, same, read other otherPlain otherLength]
  · exact fun suffix => ⟨tail, suffix, length, rfl⟩

/-- A key of one segment is the last segment of its id. -/
theorem lastSegment_of_suffixKeys {id key : String} (plain : '.' ∉ key.toList)
    (h : key ∈ suffixKeys id) : lastSegment '.' id = key := by
  have alone : dotted [key] = key := by simp [dotted, joinWith]
  rw [← alone] at h
  obtain ⟨front, split⟩ := (dotted_mem_suffixKeys (by simpa using plain) (Or.inl rfl)).mp h
  rw [lastSegment, ← split]
  simp

namespace Context
variable {k : Context} {callee head : String} {rest : List String}

structure Foreign [Collator] (k : Context) (head : String) : Prop where
  noModule : k.world.index.isRepoModule head = false
  noName : ∀ id ∈ k.catalog.ids, lastSegment '.' id ≠ head

def meant (k : Context) (key : String) : Option String :=
  (k.world.trueOrigin k.steps k.caller.filePath key).origin.bind k.idOfOrigin

theorem followKeys_id (keys : List String) : (k.followKeys keys).id = keys.findSome? k.meant := by
  induction keys with
  | nil => rfl
  | cons key keys ih =>
    rw [followKeys, List.findSome?_cons, meant]
    cases (k.world.trueOrigin k.steps k.caller.filePath key).origin.bind k.idOfOrigin with
    | none => exact ih
    | some id => rfl

theorem undotted_of_calleeParts (h : head ∈ k.calleeParts callee) : '.' ∉ head.toList :=
  not_mem_of_mem_segments (List.mem_filter.mp h).1

theorem Foreign.rejected [Collator] (foreign : k.Foreign head)
    (hk : k.suffixes = .ofCatalog k.catalog) (plain : '.' ∉ head.toList) (qualifier : List String) :
    k.isPlausible (head :: qualifier) = false := by
  have unfiled : k.suffixes.contains head = false := by
    rw [hk, Bool.eq_false_iff]
    intro filed
    obtain ⟨id, hid, hkey⟩ := contains_ofCatalog.mp filed
    exact foreign.noName id hid (lastSegment_of_suffixKeys plain hkey)
  rw [isPlausible, foreign.noModule, unfiled, Bool.or_self]

theorem matchResolverSeeded_id_of_rejected (spelled : k.calleeParts callee ≠ [])
    (rejected : k.isPlausible (k.calleeParts callee).dropLast = false) :
    (k.matchResolverSeeded callee).id =
      (trailingKeys (k.calleeParts callee)).findSome? k.meant := by
  have nonempty : (k.calleeParts callee).isEmpty = false := by simpa using spelled
  rw [← followKeys_id, matchResolverSeeded]
  simp only [nonempty, rejected, Bool.false_eq_true, ↓reduceIte]
  split
  · rfl
  · rfl

end Context

/-- A callee qualified by something foreign is never guessed at. It is linked exactly if its last
two segments, or else its last one, lead from the caller's file to a component; this is then
something that is really there. -/
theorem foreign_callee_only_followed [Collator] (k : Context) (tree : FileTree)
    (reads : k.world.Reads tree) (hk : k.suffixes = .ofCatalog k.catalog) (callee head : String)
    (rest : List String) (spelled : k.calleeParts callee = head :: rest) (qualified : rest ≠ [])
    (foreign : k.Foreign head) :
    (k.matchResolverSeeded callee).id = (Context.trailingKeys (head :: rest)).findSome? k.meant ∧
      ∀ target, (k.matchResolverSeeded callee).id = some target → k.catalog.has target ∧
        ∃ key ∈ Context.trailingKeys (head :: rest), ∃ o,
          (k.world.trueOrigin k.steps k.caller.filePath key).origin = some o ∧ o.Genuine tree ∧
            k.idOfOrigin o = some target := by
  have leading : head ∈ k.calleeParts callee := by simp [spelled]
  have plain : '.' ∉ head.toList := Context.undotted_of_calleeParts leading
  have rejected : k.isPlausible (k.calleeParts callee).dropLast = false := by
    rw [spelled, List.dropLast_cons_of_ne_nil qualified]
    exact foreign.rejected hk plain _
  have followed := Context.matchResolverSeeded_id_of_rejected (by simp [spelled]) rejected
  rw [spelled] at followed
  refine ⟨followed, fun target found => ?_⟩
  rw [followed] at found
  obtain ⟨key, hkey, meant⟩ := List.exists_of_findSome?_eq_some found
  obtain ⟨o, ho, hid⟩ := Option.bind_eq_some_iff.mp meant
  exact ⟨idOfOrigin_has hid, key, hkey, o, ho, World.trueOrigin_genuine reads ho, hid⟩

/-! A caller that has names of its own for what foreign modules are asked for. -/

open scoped Text.Alphabet

def lenderTree : FileTree :=
  (FileTree.empty.write "/r/a.py"
    (.file "from b import C\ndef f(): pass\ndef g(): pass\n".toUTF8)).write
    "/r/b.py" (.file "class C:\n def m(self): pass\n".toUTF8)

def lenderRead : Extraction :=
  .gathered lenderTree (.ofFiles "/r" ["/r/a.py", "/r/b.py"]) ["/r/a.py", "/r/b.py"]

def lenderCaller : Component :=
  (lenderRead.components.get? "a.f").getD (.placed "a.f" .function "/r/a.py" "a.py")

def lender : Context :=
  ⟨⟨lenderRead.components⟩, lenderRead.world lenderTree [], 65, .ofCatalog ⟨lenderRead.components⟩,
    lenderCaller⟩

section
set_option maxRecDepth 100000

theorem lender_keys : lenderRead.components.keys = ["a.f", "a.g", "b.C", "b.C.m"] :=
  by decide +kernel

theorem lender_foreign : lender.Foreign "ext" := by
  refine ⟨by decide +kernel, ?_⟩
  intro id hid
  have listed : id ∈ lenderRead.components.keys := Catalog.mem_ids.mp hid
  have all : ∀ id ∈ ["a.f", "a.g", "b.C", "b.C.m"], lastSegment '.' id ≠ "ext" := by decide +kernel
  exact all id (lender_keys ▸ listed)

/-- One component ends like the callee, and it would be the best guess. -/
theorem lender_method_only_followed :
    lender.world.Reads lenderTree ∧ lender.catalog.get? "a.f" = some lender.caller ∧
      lender.calleeParts "ext.m" = ["ext", "m"] ∧ lender.Foreign "ext" ∧
      lender.suffixes.contains "m" ∧ (lender.matchResolverSeeded "ext.m").id = none := by
  have reads : lender.world.Reads lenderTree :=
    World.ofTree_reads (Extraction.gathered_agrees _ _ _ _)
  have spelled : lender.calleeParts "ext.m" = ["ext", "m"] := by decide +kernel
  have filed : lender.suffixes.contains "m" := by
    refine contains_ofCatalog.mpr ⟨"b.C.m", ?_, by decide +kernel⟩
    exact Catalog.mem_ids.mpr (by rw [lender_keys]; decide)
  obtain ⟨followed, _⟩ := foreign_callee_only_followed lender lenderTree reads rfl "ext.m" "ext"
    ["m"] spelled (by decide) lender_foreign
  refine ⟨reads, by decide +kernel, spelled, lender_foreign, filed, followed.trans ?_⟩
  decide +kernel

/-- The name of a foreign module cannot be resolved, and yet a callee qualified by it is linked, to
a class that the caller imports or to a function of its own file. -/
theorem lender_foreign_callees_linked :
    lender.Foreign "ext" ∧
      (lender.world.resolve lender.steps "ext" lender.caller.filePath).origin = none ∧
      lender.calleeParts "ext.C.m" = ["ext", "C", "m"] ∧ lender.calleeParts "ext.g" = ["ext", "g"] ∧
      (lender.matchResolverSeeded "ext.C.m").id = some "b.C.m" ∧
      (lender.matchResolverSeeded "ext.g").id = some "a.g" := by
  refine ⟨lender_foreign, ?_⟩
  decide +kernel

end

end RepoAtlas.Reconcile
