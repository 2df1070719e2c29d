import RepoAtlas.Proofs.Path

/-!
Relative spelling is undone by reading it from the same directory. The spelling climbs from the
directory to where the two paths part and goes down from there; reading walks over its parts with
the directory's own parts on the stack, takes one away for each step up and lays the names of the
way down on what is left.
-/
namespace RepoAtlas.Path
open Text

/-- An absolute path in normal form: a slash, then names with one slash between any two of them and
none behind the last. -/
def Normal (p : String) : Prop := ∃ names, (∀ name ∈ names, Plain name) ∧ p = ofParts names

theorem normal_iff {p : String} : Normal p ↔ ofParts (absoluteParts p) = p := by
  constructor
  · rintro ⟨names, plain, rfl⟩
    rw [absoluteParts_ofParts plain]
  · intro same
    exact ⟨absoluteParts p, absoluteParts_plain p, same.symm⟩

instance (p : String) : Decidable (Normal p) := decidable_of_iff _ normal_iff.symm

/-- A relative path goes up some steps and then down. -/
theorem relativeParts_eq (dir parts : List String) :
    ∃ n rest, relativeParts dir parts = List.replicate n ".." ++ rest ∧
      parts = dir.take (dir.length - n) ++ rest ∧ n ≤ dir.length ∧ rest ⊆ parts := by
  induction dir generalizing parts with
  | nil => exact ⟨0, parts, by simp [relativeParts], by simp, Nat.le_refl 0, List.Subset.refl _⟩
  | cons a dir ih =>
    have up : (a :: dir).map (fun _ => "..") = List.replicate (dir.length + 1) ".." := by
      rw [List.map_const', List.length_cons]
    cases parts with
    | nil =>
      refine ⟨dir.length + 1, [], ?_, by simp, Nat.le_refl _, List.Subset.refl _⟩
      rw [relativeParts, up]
      exact nofun
    | cons b parts =>
      rw [relativeParts]
      by_cases same : a = b
      · obtain ⟨n, rest, heq, hparts, hle, hsub⟩ := ih parts
        have shorter : (a :: dir).length - n = dir.length - n + 1 := by
          rw [List.length_cons]
          omega
        refine ⟨n, rest, by rw [if_pos same, heq], ?_, Nat.le_succ_of_le hle, ?_⟩
        · rw [shorter, List.take_succ_cons, List.cons_append, ← hparts, same]
        · exact List.Subset.trans hsub (List.subset_cons_self ..)
      · exact ⟨dir.length + 1, b :: parts, by rw [if_neg same, up], by simp, Nat.le_refl _,
          List.Subset.refl _⟩

theorem relativeParts_member {dir parts : List String} (h : ∀ p ∈ parts, Plain p) {part : String}
    (hm : part ∈ relativeParts dir parts) : part ≠ "" ∧ '/' ∉ part.toList := by
  obtain ⟨n, rest, heq, _, _, hsub⟩ := relativeParts_eq dir parts
  rw [heq] at hm
  rcases List.mem_append.mp hm with hm | hm
  · obtain rfl := List.eq_of_mem_replicate hm
    exact ⟨by decide, by decide⟩
  · have plain := h part (hsub hm)
    exact ⟨plain.ne_empty, plain.no_slash⟩

theorem joinWith_injective {ps qs : List String} (hp : ∀ p ∈ ps, p ≠ "" ∧ '/' ∉ p.toList)
    (hq : ∀ q ∈ qs, q ≠ "" ∧ '/' ∉ q.toList) (h : joinWith "/" ps = joinWith "/" qs) : ps = qs := by
  have read : ∀ parts : List String, (∀ p ∈ parts, p ≠ "" ∧ '/' ∉ p.toList) →
      properSegments '/' (joinWith "/" parts) = parts := by
    intro parts hparts
    by_cases hne : parts = []
    · rw [hne]
      rfl
    · rw [properSegments, show "/" = String.singleton '/' from rfl,
        segments_joinWith hne fun p hp => (hparts p hp).2, List.filter_eq_self]
      exact fun p hp => bne_iff_ne.mpr (hparts p hp).1
  rw [← read ps hp, h, read qs hq]

section
variable {absolute : Bool} {stack dir parts : List String}

/-- Each step up takes a name away, as long as there is one. -/
theorem settle_climb (names : ∀ part ∈ stack, part ≠ "..") (n : Nat) (rest : List String) :
    settle true stack (List.replicate n ".." ++ rest) = settle true (stack.drop n) rest := by
  induction n generalizing stack with
  | zero => rfl
  | succ n ih =>
    rw [List.replicate_succ, List.cons_append]
    cases stack with
    | nil =>
      have rooted := ih names
      rw [List.drop_nil] at rooted ⊢
      exact rooted
    | cons top below =>
      obtain ⟨own, others⟩ := List.forall_mem_cons.mp names
      rw [settle_cons_up own, ih others, List.drop_succ_cons]

theorem settle_relativeParts (hd : ∀ part ∈ dir, Plain part) (hp : ∀ part ∈ parts, Plain part) :
    settle true dir.reverse (relativeParts dir parts) = parts := by
  obtain ⟨n, rest, spelled, whole, _, sub⟩ := relativeParts_eq dir parts
  have names : ∀ part ∈ dir.reverse, part ≠ ".." :=
    fun part h => (hd part (List.mem_reverse.mp h)).ne_up
  have down : ∀ part ∈ rest, Plain part := fun part h => hp part (sub h)
  calc settle true dir.reverse (relativeParts dir parts)
      = settle true (dir.reverse.drop n) rest := by rw [spelled, settle_climb names]
    _ = (dir.reverse.drop n).reverse ++ rest := settle_of_plain down
    _ = dir.take (dir.length - n) ++ rest := by rw [List.drop_reverse, List.reverse_reverse]
    _ = parts := whole.symm

/-- A text that is empty is read as one empty part, which changes nothing. -/
theorem settle_segments_joinWith (h : ∀ part ∈ parts, '/' ∉ part.toList) :
    settle absolute stack (segments '/' (joinWith "/" parts)) = settle absolute stack parts := by
  by_cases empty : parts = []
  · rw [empty]
    exact settle_cons_idle (Or.inl rfl)
  · exact congrArg (settle absolute stack) (segments_joinWith empty h)

theorem joinWith_not_absolute (h : ∀ part ∈ parts, part ≠ "" ∧ '/' ∉ part.toList) :
    ¬ isAbsolute (joinWith "/" parts) = true := by
  intro absolute
  obtain ⟨rest, heq⟩ := List.isPrefixOf_iff_prefix.mp absolute
  by_cases empty : parts = []
  · rw [empty] at heq
    cases heq
  · -- a slash in front would be read as an empty first part
    have text : joinWith "/" parts = "" ++ String.singleton '/' ++ String.ofList rest := by
      rw [← String.toList_inj, ← heq]
      simp
    have split : segments '/' (joinWith "/" parts) = parts :=
      segments_joinWith empty fun part hp => (h part hp).2
    rw [text, segments_append_sep] at split
    have first : "" ∈ parts := split ▸ List.mem_append_left _ (List.mem_singleton_self "")
    exact (h "" first).1 rfl

end

/-- However a path is written, its relative spelling leads to its normal form. -/
theorem toAbsolute_relativeTo (root p : String) :
    toAbsolute root (relativeTo root p) = ofParts (absoluteParts p) := by
  have plain := absoluteParts_plain p
  have member : ∀ part ∈ relativeParts (absoluteParts root) (absoluteParts p), part ≠ "" ∧
      '/' ∉ part.toList :=
    fun _ => relativeParts_member plain
  have relative : ¬ isAbsolute (relativeTo root p) = true := joinWith_not_absolute member
  have joined : segments '/' (root ++ "/" ++ relativeTo root p) =
      segments '/' root ++ segments '/' (relativeTo root p) := segments_append_sep ..
  have walked : absoluteParts (root ++ "/" ++ relativeTo root p) = absoluteParts p := by
    rw [absoluteParts, joined, settle_append, relativeTo,
      settle_segments_joinWith fun part h => (member part h).2]
    exact settle_relativeParts (absoluteParts_plain root) plain
  rw [toAbsolute, if_neg relative, resolve, if_neg relative, walked]

/-- From one directory, relative spelling tells paths apart. -/
theorem absoluteParts_of_relativeTo {dir p q : String} (h : relativeTo dir p = relativeTo dir q) :
    absoluteParts p = absoluteParts q := by
  have same : ofParts (absoluteParts p) = ofParts (absoluteParts q) := by
    rw [← toAbsolute_relativeTo dir p, h, toAbsolute_relativeTo]
  rw [← absoluteParts_ofParts (absoluteParts_plain p), same,
    absoluteParts_ofParts (absoluteParts_plain q)]

/-- Reading a relative spelling from the same directory gives the path back, so two paths are
spelled alike only if they are the same. -/
theorem relative_paths_lead_back (root : String) {p q : String} (hp : Normal p) (hq : Normal q) :
    toAbsolute root (relativeTo root p) = p ∧ (relativeTo root p = relativeTo root q ↔ p = q) := by
  have back {path : String} (h : Normal path) : toAbsolute root (relativeTo root path) = path := by
    rw [toAbsolute_relativeTo, normal_iff.mp h]
  refine ⟨back hp, fun same => ?_, congrArg _⟩
  rw [← back hp, same, back hq]

/-- A path whose names only begin like the directory's, and the root above both. -/
theorem namesake_leads_back : Normal "/w/ab/c" ∧ Normal "/" ∧
    toAbsolute "/w/a" (relativeTo "/w/a" "/w/ab/c") = "/w/ab/c" ∧
    (relativeTo "/w/a" "/w/ab/c" = relativeTo "/w/a" "/" ↔ "/w/ab/c" = "/") := by
  have path : Normal "/w/ab/c" := by decide +kernel
  have top : Normal "/" := by decide +kernel
  exact ⟨path, top, relative_paths_lead_back "/w/a" path top⟩

end RepoAtlas.Path
