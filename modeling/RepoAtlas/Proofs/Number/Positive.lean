import Mathlib.Tactic.Common
import RepoAtlas.Number.Decimal

/-!
A number that passes for a positive integer is one. Numbers are compared as floats and read off
their bits, so the comparison with one has to be traced to the exponent that the bits hold.
-/
namespace RepoAtlas.Number
open Float.Model

def exponentField (x : Float) : Nat := x.toBits.toNat % Nat.pow 2 63 / Nat.pow 2 52

theorem toNat_unpackExponent (x : Float) :
    (@UnpackedFloat.unpackExponent Format.binary64 x.toModel.toBits.toBitVec).toNat =
      exponentField x := by
  have bits : x.toBits.toNat = x.toModel.toBits.toBitVec.toNat := rfl
  have split : Nat.pow 2 63 = 2 ^ 52 * 2 ^ 11 := by decide
  have low : Nat.pow 2 52 = 2 ^ 52 := rfl
  rw [exponentField, bits, split, low, Nat.mod_mul_right_div_self]
  simp only [UnpackedFloat.unpackExponent, BitVec.toNat_cast, BitVec.extractLsb_toNat,
    Nat.shiftRight_eq_div_pow]

theorem unpack_exponent {x : Float} {s : UnpackedFloat.Sign} {m : Nat} {e : Int} {pos : 0 < m}
    (h : x.toModel.unpack = .finite s m e pos) : e = exponentField x - 1075 ∨ e = -1074 := by
  have bias : ((Format.exponentBias Format.binary64 : Nat) : Int) + ((52 : Nat) : Int) = 1075 := by
    decide
  have field := toNat_unpackExponent x
  rw [Float.Model.unpack] at h
  delta UnpackedFloat.unpack at h
  dsimp only at h
  generalize @UnpackedFloat.unpackExponent Format.binary64 x.toModel.toBits.toBitVec = exponent
    at h field
  by_cases full : exponent = -1#11
  · rw [if_pos full] at h
    by_cases zero : @UnpackedFloat.unpackMantissa Format.binary64 x.toModel.toBits.toBitVec = 0#52
    · rw [if_pos zero] at h
      cases h
    · rw [if_neg zero] at h
      cases h
  · rw [if_neg full] at h
    by_cases empty : exponent = 0#11
    · rw [if_pos empty] at h
      by_cases zero : @UnpackedFloat.unpackMantissa Format.binary64 x.toModel.toBits.toBitVec = 0#52
      · rw [dif_pos zero] at h
        cases h
      · -- too small to have an exponent of its own
        rw [dif_neg zero, empty] at h
        cases h
        exact Or.inr rfl
    · rw [if_neg empty] at h
      cases h
      left
      rw [← field, bias]

theorem unpack_one :
    (1 : Float).toModel.unpack = .finite .positive 4503599627370496 (-52) (by decide) := rfl

theorem compare_one_of_not_lt {x : Float} (h : ¬ x < 1) :
    x.toModel.unpack.compare (1 : Float).toModel.unpack ≠ some .lt := by
  intro less
  apply h
  change decide (x.toModel < (1 : Float).toModel) = true
  rw [decide_eq_true_eq]
  change (x.toModel.unpack.compare (1 : Float).toModel.unpack == some .lt) = true
  rw [less]
  rfl

theorem exponentField_of_not_lt {x : Float} (nan : x.isNaN = false) (inf : x.isInf = false)
    (h : ¬ x < 1) : 1023 ≤ exponentField x := by
  have order := compare_one_of_not_lt h
  rw [unpack_one] at order
  change x.toModel.unpack.isNaN = false at nan
  change x.toModel.unpack.isInf = false at inf
  cases unpacked : x.toModel.unpack with
  | notANumber =>
    rw [unpacked] at nan
    cases nan
  | infinity s =>
    rw [unpacked] at inf
    cases inf
  | zero s =>
    rw [unpacked] at order
    exact absurd rfl order
  | finite s m e pos =>
    rw [unpacked] at order
    cases s with
    | negative => exact absurd rfl order
    | positive =>
      have large : -52 ≤ e := by
        by_contra small
        have below : compare e (-52) = .lt := Int.compare_eq_lt.mpr (by omega)
        apply order
        change some ((compare e (-52)).then (compare m 4503599627370496)) = some .lt
        rw [below]
        rfl
      have source := unpack_exponent unpacked
      omega

theorem magnitude_pos {x : Float} (h : 1023 ≤ exponentField x) :
    0 < (magnitude x).num / (magnitude x).den := by
  have hidden : (exponentField x == 0) = false := by
    rw [beq_eq_false_iff_ne]
    omega
  change (x.toBits.toNat % Nat.pow 2 63 / Nat.pow 2 52 == 0) = false at hidden
  simp only [magnitude, hidden, Bool.false_eq_true, ↓reduceIte]
  split
  · simp only [Nat.div_one]
    exact Nat.mul_pos (Nat.add_pos_right _ (by decide)) (Nat.pow_pos (by decide))
  · -- the mantissa holds at least as many digits as are shifted out
    apply Nat.div_pos
    · have shifted : 2 ^ (1075 - exponentField x) ≤ 2 ^ 52 :=
        Nat.pow_le_pow_right (by decide) (by omega)
      exact Nat.le_trans shifted (Nat.le_add_left ..)
    · exact Nat.pow_pos (by decide)

theorem toPositive?_pos {x : Float} {n : Nat} (h : toPositive? x = some n) : 0 < n := by
  rw [toPositive?] at h
  split at h
  · cases h
  · rename_i regular
    simp only [Bool.or_eq_true, decide_eq_true_eq, not_or, Bool.not_eq_true] at regular
    obtain ⟨⟨nan, inf⟩, large⟩ := regular
    simp only at h
    split at h
    · cases h
      exact magnitude_pos (exponentField_of_not_lt nan inf large)
    · cases h

end RepoAtlas.Number
