import Mathlib.Data.Rat.Floor
import Mathlib.Tactic.FieldSimp
import Mathlib.Tactic.Linarith
import Mathlib.Tactic.Ring
import RowRecipe.Proofs.Number.Range

/-!
# Decimals as rational numbers

A coefficient and an exponent stand for a rational number. Moving zeros between the two does not change it, and the
whole number that is nearest to it, a half going up, is the whole part of the number and a half.
-/

namespace RowRecipe

/-- An integer power as a quotient of natural ones. -/
theorem zpow_eq_div {b : ℚ} (hb : b ≠ 0) (k : ℤ) : b ^ k = b ^ k.toNat / b ^ (-k).toNat := by
  rw [← zpow_natCast, ← zpow_natCast, ← zpow_sub₀ hb]
  congr 1
  omega

namespace Decimal

/-- The number that a coefficient and an exponent stand for. -/
def magnitude (coefficient : Nat) (exponent : Int) : ℚ :=
  coefficient * 10 ^ exponent

/-- Whether a number can be written with at most so many significant digits. -/
def HasDigits (precision : Nat) (x : ℚ) : Prop :=
  ∃ coefficient exponent, coefficient < pow10 precision ∧ x = magnitude coefficient exponent

theorem cast_pow10 (n : Nat) : ((pow10 n : Nat) : ℚ) = 10 ^ n := by
  simp [pow10]

theorem magnitude_mul (c d : Nat) (e f : Int) : magnitude c e * magnitude d f = magnitude (c * d) (e + f) := by
  have h : (10 : ℚ) ≠ 0 := by norm_num
  unfold magnitude
  rw [zpow_add₀ h, Nat.cast_mul]
  ring

/-- Zeros at the end of a coefficient can be counted into the exponent. -/
theorem magnitude_mul_pow10 (c k : Nat) (e : Int) : magnitude (c * pow10 k) e = magnitude c (e + k) := by
  have h : (10 : ℚ) ≠ 0 := by norm_num
  unfold magnitude
  rw [zpow_add₀ h, Nat.cast_mul, cast_pow10, zpow_natCast]
  ring

theorem magnitude_natCast (c k : Nat) : magnitude c k = (c * pow10 k : Nat) := by
  rw [magnitude, zpow_natCast, Nat.cast_mul, cast_pow10]

theorem magnitude_neg (c k : Nat) : magnitude c (-(k : Int)) = c / (pow10 k : Nat) := by
  rw [magnitude, zpow_neg, zpow_natCast, cast_pow10, div_eq_mul_inv]

theorem magnitude_eq_div (c : Nat) (e : Int) :
    magnitude c e = (c * pow10 e.toNat : Nat) / (pow10 (-e).toNat : Nat) := by
  rw [magnitude, zpow_eq_div (by norm_num), Nat.cast_mul, cast_pow10, cast_pow10, mul_div_assoc]

/-! ## Whole numbers -/

theorem roundHalfUp_eq_floor (num : Nat) {den : Nat} (hden : 0 < den) :
    ((roundHalfUp num den : Nat) : Int) = ⌊(num : ℚ) / den + 1 / 2⌋ := by
  have hden' : (den : ℚ) ≠ 0 := by exact_mod_cast hden.ne'
  have hsum : (num : ℚ) / den + 1 / 2 = ((2 * num + den : Nat) : ℚ) / ((2 * den : Nat) : ℚ) := by
    push_cast
    field_simp
  rw [hsum, Rat.floor_natCast_div_natCast]
  rfl

/-- The nearest whole number is the whole part of the number and a half. -/
theorem wholeHalfUp_eq_floor (c : Nat) (e : Int) : ((wholeHalfUp c e : Nat) : Int) = ⌊magnitude c e + 1 / 2⌋ := by
  have half : ⌊(1 / 2 : ℚ)⌋ = 0 := by norm_num
  unfold wholeHalfUp
  split
  next he =>
    obtain ⟨k, rfl⟩ := Int.eq_ofNat_of_zero_le he
    rw [magnitude_natCast, Int.toNat_natCast, Int.floor_natCast_add, half, add_zero]
  next he =>
    obtain ⟨k, rfl⟩ : ∃ k : Nat, e = -(k : Int) := ⟨(-e).toNat, by omega⟩
    rw [magnitude_neg]
    split
    next hsmall =>
      -- The leading digit stands behind the tenths, so a half is not reached.
      have hten : 10 * c < pow10 k := by
        have hcount := lt_pow10_digitCount c
        have hle := pow10_le_pow10 (j := digitCount c + 1) (k := k) (by omega)
        rw [pow10_succ] at hle
        omega
      have hpos : (0 : ℚ) < (pow10 k : Nat) := by exact_mod_cast pow10_pos k
      have hten' : (10 : ℚ) * c < (pow10 k : Nat) := by exact_mod_cast hten
      have hlt : (c : ℚ) / (pow10 k : Nat) < 1 / 2 := by
        rw [div_lt_iff₀ hpos]
        linarith
      have hnonneg : (0 : ℚ) ≤ (c : ℚ) / (pow10 k : Nat) := by positivity
      symm
      rw [Nat.cast_zero, Int.floor_eq_zero_iff]
      constructor <;> linarith
    next =>
      rw [neg_neg, Int.toNat_natCast]
      exact roundHalfUp_eq_floor c (pow10_pos k)

end Decimal

end RowRecipe
