import RepoAtlas.Text.Blank
import RepoAtlas.Text.Identifier

/-!
What collapsing keeps: every character that is not blank. There are no blanks in names.
-/
namespace RepoAtlas.Text

theorem isBlank_space : isBlank ' ' = true := rfl

def nonblank (cs : List Char) : List Char := cs.filter fun c => !isBlank c

theorem nonblank_cons_blank {c : Char} (h : isBlank c = true) (cs : List Char) :
    nonblank (c :: cs) = nonblank cs :=
  List.filter_cons_of_neg (by simp [h])

theorem nonblank_cons (c : Char) {cs ds : List Char} (h : nonblank cs = nonblank ds) :
    nonblank (c :: cs) = nonblank (c :: ds) := by
  rw [nonblank, nonblank, List.filter_cons, List.filter_cons]
  exact congrArg (fun rest => if (!isBlank c) = true then c :: rest else rest) h

theorem nonblank_squeeze (inRun : Bool) (cs : List Char) :
    nonblank (squeeze inRun cs) = nonblank cs := by
  induction cs generalizing inRun with
  | nil => rfl
  | cons c cs ih =>
    rw [squeeze]
    by_cases blank : isBlank c = true
    · rw [if_pos blank, nonblank_cons_blank blank]
      cases inRun with
      | true => exact ih true
      | false => exact (nonblank_cons_blank isBlank_space _).trans (ih true)
    · rw [if_neg blank]
      exact nonblank_cons c (ih false)

theorem nonblank_tightenOpening (afterOpening : Bool) (cs : List Char) :
    nonblank (tightenOpening afterOpening cs) = nonblank cs := by
  induction cs generalizing afterOpening with
  | nil => rfl
  | cons c cs ih =>
    rw [tightenOpening]
    by_cases drops : (afterOpening && c == ' ') = true
    · obtain ⟨_, space⟩ := Bool.and_eq_true_iff.mp drops
      rw [if_pos drops, ih, beq_iff_eq.mp space, nonblank_cons_blank isBlank_space]
    · rw [if_neg drops]
      exact nonblank_cons c (ih _)

theorem nonblank_tightenClosing (cs : List Char) : nonblank (tightenClosing cs) = nonblank cs := by
  fun_induction tightenClosing cs with
  | case1 => rfl
  | case2 => rfl
  | case3 c d cs drops ih =>
    obtain ⟨space, _⟩ := Bool.and_eq_true_iff.mp drops
    rw [ih, beq_iff_eq.mp space, nonblank_cons_blank isBlank_space]
  | case4 c d cs _ ih => exact nonblank_cons c ih

theorem nonblank_dropWhile (cs : List Char) : nonblank (cs.dropWhile isBlank) = nonblank cs := by
  induction cs with
  | nil => rfl
  | cons c cs ih =>
    rw [List.dropWhile_cons]
    by_cases blank : isBlank c = true
    · rw [if_pos blank, ih, nonblank_cons_blank blank]
    · rw [if_neg blank]

theorem nonblank_reverse (cs : List Char) : nonblank cs.reverse = (nonblank cs).reverse :=
  List.filter_reverse

/-- Collapsing drops and adds nothing but blanks. -/
theorem nonblank_collapseChars (cs : List Char) : nonblank (collapseChars cs) = nonblank cs := by
  rw [collapseChars, trimChars, stripEnds, nonblank_reverse, nonblank_dropWhile, nonblank_reverse,
    List.reverse_reverse, nonblank_dropWhile, nonblank_tightenClosing, nonblank_tightenOpening,
    nonblank_squeeze]

theorem count_collapseChars {c : Char} (hc : isBlank c = false) (cs : List Char) :
    (collapseChars cs).count c = cs.count c := by
  have count_nonblank (ds : List Char) : (nonblank ds).count c = ds.count c :=
    List.count_filter (by simp [hc])
  rw [← count_nonblank, nonblank_collapseChars, count_nonblank]

def blankCodes : List Nat :=
  [9, 10, 11, 12, 13, 0x20, 0xA0, 0x1680, 0x2000, 0x2001, 0x2002, 0x2003, 0x2004, 0x2005, 0x2006,
   0x2007, 0x2008, 0x2009, 0x200A, 0x2028, 0x2029, 0x202F, 0x205F, 0x3000, 0xFEFF]

theorem mem_blankCodes {c : Char} (h : isBlank c = true) : c.toNat ∈ blankCodes := by
  simp [isBlank] at h
  simp [blankCodes]
  omega

/-- What holds for no blank holds for characters that are not blank. -/
theorem not_isBlank_of {P : Char → Bool} (h : ∀ n ∈ blankCodes, P (Char.ofNat n) = false) {c : Char}
    (hc : P c = true) : isBlank c = false := by
  cases blank : isBlank c with
  | false => rfl
  | true =>
    have none := h c.toNat (mem_blankCodes blank)
    rw [Char.ofNat_toNat, hc] at none
    cases none

theorem not_isBlank_of_isIdentPart {c : Char} (h : isIdentPart c = true) : isBlank c = false :=
  not_isBlank_of (by decide +kernel) h

end RepoAtlas.Text
