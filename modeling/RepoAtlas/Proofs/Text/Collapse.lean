import Mathlib.Data.List.Chain
import RepoAtlas.Proofs.Text.Blank
import RepoAtlas.Proofs.Text.Segments

/-!
The collapsed form of a text is a normal form. Collapsing takes four steps, and each leaves what the
steps before it made: after the first no two blanks stand together, and a step that only drops
spaces brings none together, since a dropped space has no space beside it.
-/
namespace RepoAtlas.Text

def Apart (a b : Char) : Prop := ¬ (a = ' ' ∧ b = ' ')

def OpensTightly (a b : Char) : Prop := ¬ (isOpening a = true ∧ b = ' ')

def ClosesTightly (a b : Char) : Prop := ¬ (a = ' ' ∧ isClosing b = true)

structure Fits (a b : Char) : Prop where
  apart : Apart a b
  opens : OpensTightly a b
  closes : ClosesTightly a b

/-- The only blanks are single spaces inside the text, none on the inner side of a bracket. -/
structure Collapsed (cs : List Char) : Prop where
  spaces : ∀ c ∈ cs, isBlank c = true → c = ' '
  fits : cs.IsChain Fits
  first : ∀ c ∈ cs.head?, isBlank c = false
  last : ∀ c ∈ cs.getLast?, isBlank c = false

theorem isClosing_ne_space {c : Char} (h : isClosing c = true) : c ≠ ' ' := by
  rintro rfl
  cases h

/-! One step after the other. -/

theorem squeeze_spaces {inRun : Bool} {cs : List Char} {c : Char} (hc : c ∈ squeeze inRun cs)
    (blank : isBlank c = true) : c = ' ' := by
  induction cs generalizing inRun with
  | nil => cases hc
  | cons d cs ih =>
    rw [squeeze] at hc
    by_cases hd : isBlank d = true
    · rw [if_pos hd] at hc
      cases inRun with
      | true => exact ih hc
      | false =>
        rcases List.mem_cons.mp hc with rfl | hc
        · rfl
        · exact ih hc
    · rw [if_neg hd] at hc
      rcases List.mem_cons.mp hc with rfl | hc
      · exact absurd blank hd
      · exact ih hc

theorem squeeze_apart (inRun : Bool) (cs : List Char) :
    (squeeze inRun cs).IsChain Apart ∧
    (inRun = true → ∀ c ∈ (squeeze inRun cs).head?, c ≠ ' ') := by
  induction cs generalizing inRun with
  | nil => exact ⟨.nil, fun _ c hc => by cases hc⟩
  | cons d cs ih =>
    rw [squeeze]
    by_cases hd : isBlank d = true
    · rw [if_pos hd]
      obtain ⟨chain, fresh⟩ := ih true
      cases inRun with
      | true => exact ⟨chain, fresh⟩
      | false => exact ⟨chain.cons fun c hc both => fresh rfl c hc both.2, fun run => by cases run⟩
    · rw [if_neg hd]
      have nonspace : d ≠ ' ' := fun heq => hd (heq ▸ isBlank_space)
      refine ⟨(ih false).1.cons fun c _ both => nonspace both.1, fun _ c hc => ?_⟩
      rw [List.head?_cons, Option.mem_some_iff] at hc
      exact hc ▸ nonspace

theorem head?_tightenOpening (cs : List Char) : (tightenOpening false cs).head? = cs.head? := by
  cases cs with
  | nil => rfl
  | cons c cs => rw [tightenOpening, if_neg (by simp), List.head?_cons, List.head?_cons]

theorem tightenOpening_chain {cs : List Char} (h : cs.IsChain Apart) (afterOpening : Bool) :
    (tightenOpening afterOpening cs).IsChain (fun a b => Apart a b ∧ OpensTightly a b) ∧
      (afterOpening = true → ∀ c ∈ (tightenOpening afterOpening cs).head?, c ≠ ' ') := by
  induction cs generalizing afterOpening with
  | nil => exact ⟨.nil, fun _ c hc => by cases hc⟩
  | cons d cs ih =>
    obtain ⟨next, rest⟩ := List.isChain_cons.mp h
    rw [tightenOpening]
    by_cases drops : (afterOpening && d == ' ') = true
    · rw [if_pos drops]
      obtain ⟨_, space⟩ := Bool.and_eq_true_iff.mp drops
      refine ⟨(ih rest false).1, fun _ c hc heq => ?_⟩
      rw [head?_tightenOpening] at hc
      exact next c hc ⟨beq_iff_eq.mp space, heq⟩
    · rw [if_neg drops]
      obtain ⟨chain, inner⟩ := ih rest (isOpening d)
      refine ⟨chain.cons fun c hc => ⟨fun both => ?_, fun both => inner both.1 c hc both.2⟩, ?_⟩
      · -- a space is no bracket, so nothing is dropped behind it
        have plain : isOpening d = false := by rw [both.1]; rfl
        rw [plain, head?_tightenOpening] at hc
        exact next c hc both
      · rintro rfl c hc heq
        rw [List.head?_cons, Option.mem_some_iff] at hc
        exact drops (by simp [hc, heq])

theorem head?_tightenClosing {d : Char} {cs : List Char} {c : Char}
    (hc : c ∈ (tightenClosing (d :: cs)).head?) : c = d ∨ d = ' ' ∧ isClosing c = true := by
  cases cs with
  | nil =>
    rw [tightenClosing, List.head?_cons, Option.mem_some_iff] at hc
    exact Or.inl hc.symm
  | cons e cs =>
    rw [tightenClosing] at hc
    by_cases drops : (d == ' ' && isClosing e) = true
    · rw [if_pos drops] at hc
      obtain ⟨space, closing⟩ := Bool.and_eq_true_iff.mp drops
      -- behind the dropped space the bracket comes first, as it is no space itself
      have same : c = e := by
        cases cs with
        | nil => simpa [tightenClosing, eq_comm] using hc
        | cons f cs =>
          have kept : ¬ (e == ' ' && isClosing f) = true := by simp [isClosing_ne_space closing]
          rw [tightenClosing, if_neg kept, List.head?_cons, Option.mem_some_iff] at hc
          exact hc.symm
      exact Or.inr ⟨beq_iff_eq.mp space, same ▸ closing⟩
    · rw [if_neg drops, List.head?_cons, Option.mem_some_iff] at hc
      exact Or.inl hc.symm

theorem tightenClosing_chain {cs : List Char}
    (h : cs.IsChain fun a b => Apart a b ∧ OpensTightly a b) :
    (tightenClosing cs).IsChain Fits := by
  fun_induction tightenClosing cs with
  | case1 => exact .nil
  | case2 c => exact .singleton c
  | case3 c d cs drops ih => exact ih (List.isChain_cons.mp h).2
  | case4 c d cs keeps ih =>
    obtain ⟨next, rest⟩ := List.isChain_cons.mp h
    obtain ⟨apart, opens⟩ := next d rfl
    refine (ih rest).cons fun e he => ?_
    rcases head?_tightenClosing he with rfl | ⟨space, closing⟩
    · exact ⟨apart, opens, fun both => keeps (by simp [both])⟩
    · have other := isClosing_ne_space closing
      exact ⟨fun both => other both.2, fun both => other both.2, fun both => apart ⟨both.1, space⟩⟩

theorem tightenOpening_subset (afterOpening : Bool) (cs : List Char) :
    tightenOpening afterOpening cs ⊆ cs := by
  induction cs generalizing afterOpening with
  | nil => exact List.Subset.refl _
  | cons c cs ih =>
    rw [tightenOpening]
    split
    · exact List.Subset.trans (ih _) (List.subset_cons_self ..)
    · exact List.cons_subset_cons _ (ih _)

theorem tightenClosing_subset (cs : List Char) : tightenClosing cs ⊆ cs := by
  fun_induction tightenClosing cs with
  | case1 => exact List.Subset.refl _
  | case2 => exact List.Subset.refl _
  | case3 c d cs _ ih => exact List.Subset.trans ih (List.subset_cons_self ..)
  | case4 c d cs _ ih => exact List.cons_subset_cons _ ih

theorem trimChars_inside (cs : List Char) : trimChars cs <:+: cs := stripEnds_inside isBlank cs

theorem trimChars_first {cs : List Char} {c : Char} (hc : c ∈ (trimChars cs).head?) :
    isBlank c = false :=
  stripEnds_first hc

theorem trimChars_last {cs : List Char} {c : Char} (hc : c ∈ (trimChars cs).getLast?) :
    isBlank c = false :=
  stripEnds_last hc

theorem collapseChars_collapsed (cs : List Char) : Collapsed (collapseChars cs) where
  spaces c hc blank := by
    have kept := (trimChars_inside _).subset hc
    exact squeeze_spaces (tightenOpening_subset _ _ (tightenClosing_subset _ kept)) blank
  fits := by
    have squeezed := (squeeze_apart false cs).1
    have tightened := tightenClosing_chain (tightenOpening_chain squeezed false).1
    exact List.IsChain.infix tightened (trimChars_inside _)
  first _ hc := trimChars_first hc
  last _ hc := trimChars_last hc

/-! A collapsed text passes every step as it is. -/

section
variable {cs : List Char}

theorem squeeze_of_chain (spaces : ∀ c ∈ cs, isBlank c = true → c = ' ') (h : cs.IsChain Fits)
    {inRun : Bool} (fresh : inRun = true → ∀ c ∈ cs.head?, c ≠ ' ') : squeeze inRun cs = cs := by
  induction cs generalizing inRun with
  | nil => rfl
  | cons c cs ih =>
    obtain ⟨next, rest⟩ := List.isChain_cons.mp h
    obtain ⟨own, others⟩ := List.forall_mem_cons.mp spaces
    rw [squeeze]
    by_cases blank : isBlank c = true
    · have space := own blank
      cases inRun with
      | true => exact absurd space (fresh rfl c rfl)
      | false =>
        have later : ∀ d ∈ cs.head?, d ≠ ' ' := fun d hd heq => (next d hd).apart ⟨space, heq⟩
        rw [if_pos blank, if_neg (by simp), ih others rest fun _ => later, space]
    · rw [if_neg blank, ih others rest (by simp)]

theorem tightenOpening_of_chain (h : cs.IsChain Fits) {afterOpening : Bool}
    (tight : afterOpening = true → ∀ c ∈ cs.head?, c ≠ ' ') :
    tightenOpening afterOpening cs = cs := by
  induction cs generalizing afterOpening with
  | nil => rfl
  | cons c cs ih =>
    obtain ⟨next, rest⟩ := List.isChain_cons.mp h
    have keeps : ¬ (afterOpening && c == ' ') = true := by
      intro drops
      obtain ⟨opening, space⟩ := Bool.and_eq_true_iff.mp drops
      exact tight opening c rfl (beq_iff_eq.mp space)
    rw [tightenOpening, if_neg keeps,
      ih rest fun opening d hd heq => (next d hd).opens ⟨opening, heq⟩]

theorem tightenClosing_of_chain (h : cs.IsChain Fits) : tightenClosing cs = cs := by
  fun_induction tightenClosing cs with
  | case1 => rfl
  | case2 => rfl
  | case3 c d cs drops _ =>
    obtain ⟨space, closing⟩ := Bool.and_eq_true_iff.mp drops
    exact absurd ⟨beq_iff_eq.mp space, closing⟩ ((List.isChain_cons.mp h).1 d rfl).closes
  | case4 c d cs _ ih => rw [ih (List.isChain_cons.mp h).2]

theorem dropWhile_of_first (h : ∀ c ∈ cs.head?, isBlank c = false) : cs.dropWhile isBlank = cs := by
  cases cs with
  | nil => rfl
  | cons c cs => rw [List.dropWhile_cons, if_neg (by simp [h c rfl])]

theorem trimChars_of_ends (first : ∀ c ∈ cs.head?, isBlank c = false)
    (last : ∀ c ∈ cs.getLast?, isBlank c = false) : trimChars cs = cs := by
  have back : cs.reverse.dropWhile isBlank = cs.reverse :=
    dropWhile_of_first (by simpa [List.head?_reverse] using last)
  rw [trimChars, stripEnds, dropWhile_of_first first, back, List.reverse_reverse]

/-- A text without blanks is collapsed. -/
theorem Collapsed.of_free (h : ∀ c ∈ cs, isBlank c = false) : Collapsed cs where
  spaces c hc blank := by
    rw [h c hc] at blank
    cases blank
  fits := by
    have nonspace : ∀ c ∈ cs, c ≠ ' ' := by
      rintro c hc rfl
      cases h ' ' hc
    refine (List.isChain_isInfix cs).imp fun a b inside => ?_
    have ha := nonspace a (inside.subset (by simp))
    have hb := nonspace b (inside.subset (by simp))
    exact ⟨fun both => ha both.1, fun both => hb both.2, fun both => ha both.1⟩
  first c hc := h c (List.mem_of_mem_head? hc)
  last c hc := h c (List.mem_of_mem_getLast? hc)

theorem Collapsed.collapseChars_eq (h : Collapsed cs) : collapseChars cs = cs := by
  rw [collapseChars, squeeze_of_chain h.spaces h.fits (by simp),
    tightenOpening_of_chain h.fits (by simp), tightenClosing_of_chain h.fits,
    trimChars_of_ends h.first h.last]

theorem collapseChars_free (h : ∀ c ∈ cs, isBlank c = false) : collapseChars cs = cs :=
  (Collapsed.of_free h).collapseChars_eq

end

/-- Collapsing brings every text into normal form: nothing but blanks changes, and a second time
nothing changes. -/
theorem collapse_normal_form (s : String) :
    collapse (collapse s) = collapse s ∧ Collapsed (collapse s).toList ∧
      nonblank (collapse s).toList = nonblank s.toList := by
  have collapsed : Collapsed (collapse s).toList := by
    rw [collapse, String.toList_ofList]
    exact collapseChars_collapsed s.toList
  refine ⟨?_, collapsed, ?_⟩
  · rw [collapse, collapsed.collapseChars_eq, String.ofList_toList]
  · rw [collapse, String.toList_ofList, nonblank_collapseChars]

example : collapse "  f( a ,\t[ ]\u3000) " = "f(a , [])" := by decide +kernel

end RepoAtlas.Text
