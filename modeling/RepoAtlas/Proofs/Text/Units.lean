import Mathlib.Tactic.Common
import RepoAtlas.Text.Units

/-!
Code units settle a text: a unit of a pair is never a character of its own, so the characters can be
read off one after the other. Hence the order of code units is a total order of texts.
-/
namespace RepoAtlas.Text

def IsHigh (u : UInt16) : Prop := 0xD800 ≤ u.toNat ∧ u.toNat < 0xDC00

def IsLow (u : UInt16) : Prop := 0xDC00 ≤ u.toNat ∧ u.toNat < 0xE000

theorem isHighUnit_iff {u : UInt16} : isHighUnit u = true ↔ IsHigh u := by
  simp [isHighUnit, IsHigh, UInt16.le_iff_toNat_le, UInt16.lt_iff_toNat_lt]

theorem isLowUnit_iff {u : UInt16} : isLowUnit u = true ↔ IsLow u := by
  simp [isLowUnit, IsLow, UInt16.le_iff_toNat_le, UInt16.lt_iff_toNat_lt]

theorem toNat_ofNat {n : Nat} (h : n < 0x10000) : (UInt16.ofNat n).toNat = n := by
  rw [UInt16.toNat_ofNat']
  exact Nat.mod_eq_of_lt h

/-- A character is a unit that is no half of a pair, or a pair. -/
theorem unitsOf_cases (c : Char) :
    (∃ u, unitsOf c = [u] ∧ ¬ IsHigh u ∧ c = loneUnit u) ∨
      ∃ u v, unitsOf c = [u, v] ∧ IsHigh u ∧ IsLow v ∧ c = pairedUnits u v := by
  have valid : c.toNat < 0xD800 ∨ 0xDFFF < c.toNat ∧ c.toNat < 0x110000 := c.valid
  by_cases small : c.toNat < 0x10000
  · left
    have unit := toNat_ofNat small
    have high : ¬ IsHigh (UInt16.ofNat c.toNat) := by
      rw [IsHigh]
      omega
    have low : ¬ IsLow (UInt16.ofNat c.toNat) := by
      rw [IsLow]
      omega
    refine ⟨UInt16.ofNat c.toNat, by simp [unitsOf, small], high, ?_⟩
    rw [loneUnit, if_neg, unit, Char.ofNat_toNat]
    rw [Bool.or_eq_true, isHighUnit_iff, isLowUnit_iff]
    exact not_or.mpr ⟨high, low⟩
  · right
    have high : (UInt16.ofNat (0xD800 + (c.toNat - 0x10000) / 0x400)).toNat =
        0xD800 + (c.toNat - 0x10000) / 0x400 := toNat_ofNat (by omega)
    have low : (UInt16.ofNat (0xDC00 + (c.toNat - 0x10000) % 0x400)).toNat =
        0xDC00 + (c.toNat - 0x10000) % 0x400 := toNat_ofNat (by omega)
    refine ⟨_, _, if_neg small, ?_, ?_, ?_⟩
    · rw [IsHigh]
      omega
    · rw [IsLow]
      omega
    · rw [pairedUnits, high, low,
        show 0x10000 + (0xD800 + (c.toNat - 0x10000) / 0x400 - 0xD800) * 0x400 +
          (0xDC00 + (c.toNat - 0x10000) % 0x400 - 0xDC00) = c.toNat by omega, Char.ofNat_toNat]

theorem charsOf_unit {u : UInt16} (high : ¬ IsHigh u) (us : Units) :
    charsOf (u :: us) = loneUnit u :: charsOf us := by
  cases us with
  | nil => rfl
  | cons v us =>
    rw [charsOf, if_neg]
    rw [Bool.and_eq_true, isHighUnit_iff]
    exact fun pair => high pair.1

theorem charsOf_append (c : Char) (us : Units) : charsOf (unitsOf c ++ us) = c :: charsOf us := by
  rcases unitsOf_cases c with ⟨u, hc, high, code⟩ | ⟨u, v, hc, high, low, code⟩
  · rw [hc, List.singleton_append, charsOf_unit high, code]
  · rw [hc, List.cons_append, List.singleton_append, charsOf, if_pos, code]
    rw [Bool.and_eq_true, isHighUnit_iff, isLowUnit_iff]
    exact ⟨high, low⟩

/-- A text of characters is shown as it is. -/
theorem ofUnits_units (s : String) : ofUnits (units s) = s := by
  have each (cs : List Char) : charsOf (cs.flatMap unitsOf) = cs := by
    induction cs with
    | nil => rfl
    | cons c cs ih => rw [List.flatMap_cons, charsOf_append, ih]
  rw [ofUnits, units, each, String.ofList_toList]

theorem units_injective {a b : String} (h : units a = units b) : a = b := by
  rw [← ofUnits_units a, h, ofUnits_units]

theorem unitLt_iff {a b : String} : unitLt a b = true ↔ units a < units b := by
  rw [unitLt, List.lex_eq_true_iff_lt]

theorem unitLt_irrefl (a : String) : unitLt a a = false := by
  rw [Bool.eq_false_iff, ne_eq, unitLt_iff]
  exact List.lt_irrefl _

theorem unitLt_trans {a b c : String} (hab : unitLt a b = true) (hbc : unitLt b c = true) :
    unitLt a c = true := by
  rw [unitLt_iff] at *
  exact List.lt_trans hab hbc

theorem unitLt_total {a b : String} (h : a ≠ b) : unitLt a b = true ∨ unitLt b a = true := by
  rw [unitLt_iff, unitLt_iff]
  by_cases less : units a < units b
  · exact Or.inl less
  · right
    by_contra greater
    exact h (units_injective (List.le_antisymm greater less))

end RepoAtlas.Text
