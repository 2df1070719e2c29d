import Mathlib.Data.List.Basic
import RepoAtlas.Text.Collation

/-!
Sorting by alphabetical order. The order is total and transitive, which is all that a sorted list
needs; distinct texts may tie. Items that tie keep their order, so a list sorted by one text after
another is sorted by both.
-/
namespace RepoAtlas.Text.Collation
open Std

/-- Two lists are cut at the same place if one test tells the first part from the second in both. -/
theorem append_inj_of_test {α : Type} {test : α → Bool} {xs ys zs ws : List α}
    (h : xs ++ ys = zs ++ ws) (hx : ∀ x ∈ xs, test x = false) (hy : ∀ y ∈ ys, test y = true)
    (hz : ∀ z ∈ zs, test z = false) (hw : ∀ w ∈ ws, test w = true) : xs = zs ∧ ys = ws := by
  have rejected : ∀ us vs : List α, (∀ u ∈ us, test u = false) → (∀ v ∈ vs, test v = true) →
      (us ++ vs).filter test = vs := by
    intro us vs hu hv
    rw [List.filter_append, List.filter_eq_nil_iff.mpr (by simpa using hu),
      List.filter_eq_self.mpr hv, List.nil_append]
  have second : ys = ws := by rw [← rejected xs ys hx hy, h, rejected zs ws hz hw]
  exact ⟨List.append_cancel_right (second ▸ h), second⟩

variable [Collator]

instance : TransCmp collate := Collator.trans

theorem collate_total (a b : String) : (collate a b).isLE || (collate b a).isLE := by
  have h : collate a b = (collate b a).swap := OrientedCmp.eq_swap
  rw [h]
  cases collate b a <;> rfl

theorem collate_isLE_trans {a b c : String} (hab : (collate a b).isLE) (hbc : (collate b c).isLE) :
    (collate a c).isLE :=
  TransCmp.isLE_trans hab hbc

theorem collate_self (a : String) : collate a a = .eq := ReflCmp.compare_self

/-- Texts that tie with a third tie with each other. -/
theorem collate_eq_of_ties {a b t : String} (ha : collate a t = .eq) (hb : collate b t = .eq) :
    collate a b = .eq :=
  TransCmp.eq_trans ha (OrientedCmp.eq_symm hb)

theorem collate_eq_of_isLE {a b : String} (hab : (collate a b).isLE) (hba : (collate b a).isLE) :
    collate a b = .eq :=
  OrientedCmp.isLE_antisymm hab hba

variable {α : Type}

theorem sortBy_perm (f : α → String) (xs : List α) : (sortBy f xs).Perm xs := by
  rw [sortBy]
  exact List.mergeSort_perm xs _

@[simp] theorem mem_sortBy {f : α → String} {xs : List α} {x : α} : x ∈ sortBy f xs ↔ x ∈ xs :=
  (sortBy_perm f xs).mem_iff

/-- Sorting yields an ascending list. -/
theorem sortBy_ascending (f : α → String) (xs : List α) :
    (sortBy f xs).Pairwise fun x y => (collate (f x) (f y)).isLE := by
  rw [sortBy]
  apply List.pairwise_mergeSort
  · exact fun _ _ _ => collate_isLE_trans
  · exact fun x y => collate_total (f x) (f y)

/-- A list in order stays as it is. -/
theorem sortBy_of_ascending {f : α → String} {xs : List α}
    (h : xs.Pairwise fun x y => (collate (f x) (f y)).isLE) : sortBy f xs = xs := by
  rw [sortBy, List.mergeSort_of_pairwise h]

/-- Sorting is stable: items that tie with one text keep their order. -/
theorem filter_sortBy (f : α → String) (xs : List α) (t : String) :
    ((sortBy f xs).filter fun x => collate (f x) t = .eq) =
      xs.filter fun x => collate (f x) t = .eq := by
  let tied : α → Bool := fun x => collate (f x) t = .eq
  have level : (xs.filter tied).Pairwise fun x y => (collate (f x) (f y)).isLE := by
    refine List.pairwise_of_forall_mem_list fun x hx y hy => ?_
    have tie := collate_eq_of_ties (of_decide_eq_true (List.mem_filter.mp hx).2)
      (of_decide_eq_true (List.mem_filter.mp hy).2)
    rw [tie]
    rfl
  have kept : (xs.filter tied).Sublist (sortBy f xs) := by
    rw [sortBy]
    apply List.sublist_mergeSort _ _ level List.filter_sublist
    · exact fun _ _ _ => collate_isLE_trans
    · exact fun x y => collate_total (f x) (f y)
  -- the tied items of the sorted list are as many, so there are no others
  have inside := kept.filter tied
  simp only [List.filter_filter, Bool.and_self] at inside
  exact (inside.eq_of_length ((sortBy_perm f xs).filter tied).length_eq.symm).symm

/-- Sorting by a second text and then by a first one sorts by both. -/
theorem sortBy_sortBy_ascending (f g : α → String) (xs : List α) :
    (sortBy f (sortBy g xs)).Pairwise fun x y =>
      (collate (f x) (f y)).isLE ∧ (collate (f x) (f y) = .eq → (collate (g x) (g y)).isLE) := by
  refine List.pairwise_iff_forall_sublist.mpr fun {x y} pair => ⟨?_, fun tie => ?_⟩
  · exact List.pairwise_iff_forall_sublist.mp (sortBy_ascending f _) pair
  · have both := pair.filter fun z => collate (f z) (f y) = .eq
    rw [filter_sortBy, List.filter_cons_of_pos (by simpa using tie),
      List.filter_cons_of_pos (by simpa using collate_self (f y)), List.filter_nil] at both
    exact List.pairwise_iff_forall_sublist.mp (sortBy_ascending g xs)
      (both.trans List.filter_sublist)

/-- Sorting one more item puts it between the items that come before it and the others. -/
theorem sortBy_cons (f : α → String) (x : α) (xs : List α) : ∃ before after,
    sortBy f xs = before ++ after ∧ sortBy f (x :: xs) = before ++ x :: after ∧
      (∀ y ∈ before, (collate (f x) (f y)).isLE = false) ∧
      ∀ y ∈ after, (collate (f x) (f y)).isLE = true := by
  obtain ⟨before, after, hcons, hxs, earlier⟩ :=
    @List.mergeSort_cons α (fun x y => (collate (f x) (f y)).isLE) (fun _ _ _ => collate_isLE_trans)
      (fun x y => collate_total (f x) (f y)) x xs
  rw [← sortBy] at hcons hxs
  refine ⟨before, after, hxs, hcons, by simpa using earlier, ?_⟩
  have ascending := sortBy_ascending f (x :: xs)
  rw [hcons, List.pairwise_append] at ascending
  exact (List.pairwise_cons.mp ascending.2.1).1

/-- What is left out of a list is left out of the sorted list, and nothing else moves. -/
theorem sortBy_filter (f : α → String) (p : α → Bool) (xs : List α) :
    (sortBy f xs).filter p = sortBy f (xs.filter p) := by
  induction xs with
  | nil => simp [sortBy]
  | cons x xs ih =>
    obtain ⟨before, after, split, whole, earlier, later⟩ := sortBy_cons f x xs
    rw [split, List.filter_append] at ih
    rw [whole, List.filter_append]
    by_cases kept : p x = true
    · obtain ⟨front, back, split', whole', earlier', later'⟩ := sortBy_cons f x (xs.filter p)
      obtain ⟨rfl, rfl⟩ := append_inj_of_test (ih.trans split')
        (fun y hy => earlier y (List.mem_filter.mp hy).1)
          (fun y hy => later y (List.mem_filter.mp hy).1)
        earlier' later'
      rw [List.filter_cons_of_pos kept, List.filter_cons_of_pos kept, whole']
    · rw [List.filter_cons_of_neg kept, List.filter_cons_of_neg kept, ih]

theorem sort_perm (xs : List String) : (sort xs).Perm xs := sortBy_perm id xs

@[simp] theorem mem_sort {xs : List String} {x : String} : x ∈ sort xs ↔ x ∈ xs := mem_sortBy

theorem sort_ascending (xs : List String) :
    (sort xs).Pairwise fun x y => (collate x y).isLE := sortBy_ascending id xs

/-! Lists in alphabetical order, whatever order they were in before. -/

/-- Two of these texts collate as equal only if they are equal. -/
def Separates (texts : List String) : Prop := ∀ x ∈ texts, ∀ y ∈ texts, collate x y = .eq → x = y

/-- Two ascending lists of the same items show the same at every place, if what is shown settles the
text that is collated and is the same for texts that collate as equal. -/
theorem map_eq_of_ascending {β : Type} {f : α → String} {g : α → β} {xs ys : List α}
    (perm : xs.Perm ys) (hx : xs.Pairwise fun x y => (collate (f x) (f y)).isLE)
    (hy : ys.Pairwise fun x y => (collate (f x) (f y)).isLE)
    (settled : ∀ x ∈ xs, ∀ y ∈ xs, g x = g y → f x = f y)
    (tie : ∀ x ∈ xs, ∀ y ∈ xs, collate (f x) (f y) = .eq → g x = g y) : xs.map g = ys.map g := by
  let before : β → β → Prop := fun b c =>
    ∀ x ∈ xs, ∀ y ∈ xs, g x = b → g y = c → (collate (f x) (f y)).isLE
  have ascending : ∀ zs : List α, zs ⊆ xs →
      (zs.Pairwise fun x y => (collate (f x) (f y)).isLE) → (zs.map g).Pairwise before := by
    intro zs sub hz
    refine List.pairwise_map.mpr (List.Pairwise.imp_of_mem ?_ hz)
    intro a b ha hb hle x hx y hy hxa hyb
    rwa [settled x hx a (sub ha) hxa, settled y hy b (sub hb) hyb]
  refine List.Perm.eq_of_pairwise ?_ (ascending xs (List.Subset.refl _) hx)
    (ascending ys perm.symm.subset hy) (perm.map g)
  intro b c hb hc hbc hcb
  obtain ⟨x, hx, rfl⟩ := List.mem_map.mp hb
  obtain ⟨y, hy, rfl⟩ := List.mem_map.mp hc
  have hy := perm.mem_iff.mpr hy
  exact tie x hx y hy (collate_eq_of_isLE (hbc x hx y hy rfl rfl) (hcb y hy x hx rfl rfl))

/-- Sorting forgets the order before, if no two items tie. -/
theorem sortBy_eq_of_perm {f : α → String} {xs ys : List α} (perm : xs.Perm ys)
    (settled : ∀ x ∈ xs, ∀ y ∈ xs, collate (f x) (f y) = .eq → x = y) :
    sortBy f xs = sortBy f ys := by
  refine List.Perm.eq_of_pairwise ?_ (sortBy_ascending f xs) (sortBy_ascending f ys)
    ((sortBy_perm f xs).trans (perm.trans (sortBy_perm f ys).symm))
  intro x y hx hy hxy hyx
  exact settled x (mem_sortBy.mp hx) y (perm.mem_iff.mpr (mem_sortBy.mp hy))
    (collate_eq_of_isLE hxy hyx)

theorem sort_eq_of_perm {xs ys : List String} (perm : xs.Perm ys) (separate : Separates xs) :
    sort xs = sort ys := sortBy_eq_of_perm perm separate

/-- Sorting by two texts forgets the order before, if no two items tie on both. -/
theorem sortBy_sortBy_eq_of_perm {f g : α → String} {xs ys : List α} (perm : xs.Perm ys)
    (settled : ∀ x ∈ xs, ∀ y ∈ xs, collate (f x) (f y) = .eq → collate (g x) (g y) = .eq → x = y) :
    sortBy f (sortBy g xs) = sortBy f (sortBy g ys) := by
  have back : ∀ zs : List α, (sortBy f (sortBy g zs)).Perm zs :=
    fun zs => (sortBy_perm f _).trans (sortBy_perm g zs)
  refine List.Perm.eq_of_pairwise ?_ (sortBy_sortBy_ascending f g xs)
    (sortBy_sortBy_ascending f g ys) ((back xs).trans (perm.trans (back ys).symm))
  intro x y hx hy hxy hyx
  have hx := (back xs).mem_iff.mp hx
  have hy := perm.mem_iff.mpr ((back ys).mem_iff.mp hy)
  have first := collate_eq_of_isLE hxy.1 hyx.1
  have second := collate_eq_of_isLE (hxy.2 first) (hyx.2 (collate_eq_of_isLE hyx.1 hxy.1))
  exact settled x hx y hy first second

end RepoAtlas.Text.Collation
