import RowRecipe.Proofs.Number.Quotient
import RowRecipe.Proofs.Unit.Literal

/-!
# Conversions that lose nothing

The number of units that an amount is converted to is the quotient, rounded to sixty digits. Scaling it back rounds
once more, and both errors together are a part of 10⁻⁵⁹ of the amount, more or less. Below 10⁵⁸ this is less than a
half, so the whole number that is nearest is the amount again.
-/

namespace RowRecipe

open Decimal (magnitude rounded nearest)

namespace Decimal

variable {precision : Nat}

/-- A quotient that is rounded and multiplied back, where the product is rounded too, errs by twice the error of one
rounding, and a little more. -/
theorem abs_rounded_mul_sub_le {x v : ℚ} (hx : 0 ≤ x) (hv : 0 < v) :
    |rounded precision (rounded precision (x / v) * v) - x| ≤
      x * ((2 + 10 ^ (1 - precision : ℤ) / 2) * (10 ^ (1 - precision : ℤ) / 2)) := by
  set ε : ℚ := 10 ^ (1 - precision : ℤ) / 2
  have hεpos : 0 < ε := div_pos (ten_zpow_pos _) two_pos
  have hproduct : 0 ≤ rounded precision (x / v) * v := mul_nonneg (rounded_nonneg (div_nonneg hx hv.le)) hv.le
  have hfirst : |rounded precision (x / v) * v - x| ≤ x * ε := abs_rounded_div_mul_sub_le hx hv
  have hle : rounded precision (x / v) * v ≤ x * (1 + ε) := by linarith [(abs_le.mp hfirst).2]
  have hsecond :
      |rounded precision (rounded precision (x / v) * v) - rounded precision (x / v) * v| ≤ x * (1 + ε) * ε :=
    (abs_rounded_sub_le hproduct).trans (mul_le_mul_of_nonneg_right hle hεpos.le)
  calc |rounded precision (rounded precision (x / v) * v) - x|
      ≤ |rounded precision (rounded precision (x / v) * v) - rounded precision (x / v) * v| +
          |rounded precision (x / v) * v - x| := abs_sub_le _ _ _
    _ ≤ x * (1 + ε) * ε + x * ε := add_le_add hsecond hfirst
    _ = x * ((2 + ε) * ε) := by ring

end Decimal

namespace Quantity

variable {kind : UnitKind} {unit : String} {f : UnitFactor} {n d : Nat}

/-- A conversion that is asked for with whole numbers. -/
theorem convert_eq_convertAmount (hf : kind.factor? unit = some f) (n d : Nat) :
    kind.convert (.int n) (.text unit) (.int d) =
      (convertAmount kind (.ofNat n 0) unit (.ofNat d 0)).mapError .ofQuantity := by
  have whole : ∀ k : Nat, Value.toDecimal (.int k) = .ok (.ofNat k 0) := by
    intro k
    simp [Value.toDecimal, Decimal.ofInt, Decimal.ofNat, pure, Except.pure]
  have hfactor : kind.factorOf (.text unit) = .ok f := by
    cases kind <;> simp [UnitKind.factorOf, hf, pure, Except.pure]
  simp only [UnitKind.convert, UnitFactor.convert, convertAmount, hfactor, hf, whole, bind, Except.bind]
  cases Decimal.div precision (.ofNat n 0) f.toDecimal with
  | error e => rfl
  | ok q => cases hdiv : Decimal.div precision q (.ofNat d 0) <;> simp [hdiv, Except.mapError] <;> rfl

/-- What an amount is converted to: the quotient, rounded to sixty digits. -/
theorem shows_of_convertAmount {r : Decimal} (hf : kind.factor? unit = some f)
    (h : convertAmount kind (.ofNat n 0) unit (.ofNat 1 0) = .ok r) :
    r.Shows false (nearest precision (nearest precision (n / f.value))) := by
  have hone : ∀ k : Nat, magnitude k 0 = k := by simp [magnitude]
  simp only [convertAmount, hf] at h
  split at h
  next r' hsteps =>
    cases h
    obtain ⟨q, hdiv, hdivisor⟩ := bind_eq_ok_iff.mp hsteps
    obtain ⟨c, e, rfl, hvalue⟩ := Decimal.shows_of_div precision_pos (UnitKind.usable_of_factor? hf).1 hdiv
    have hshows := Decimal.shows_of_div precision_pos one_pos hdivisor
    rwa [hvalue, hone, hone, Nat.cast_one, div_one] at hshows
  next => cases h

/-- Every factor is so small that a quotient other than zero has a leading digit with a place. -/
theorem nearest_quotient (hf : kind.factor? unit = some f) (n : Nat) :
    nearest precision (nearest precision (n / f.value)) = rounded precision (n / f.value) := by
  rcases Nat.eq_zero_or_pos n with rfl | hn
  · simp
  · have hpos := UnitKind.value_pos hf
    obtain ⟨hexp, hcoeff⟩ := UnitKind.factor_lt_of_factor? hf
    have hcoeff' : (f.coefficient : ℚ) ≤ 10 ^ (25 : ℤ) :=
      calc (f.coefficient : ℚ) ≤ (pow10 25 : Nat) := by exact_mod_cast hcoeff.le
        _ = 10 ^ (25 : ℤ) := by rw [Decimal.cast_pow10]; rfl
    have hvalue : f.value ≤ 10 ^ (25 : ℤ) :=
      calc f.value ≤ f.coefficient * 1 :=
            mul_le_mul_of_nonneg_left (zpow_le_one_of_nonpos₀ (by norm_num) hexp) (Nat.cast_nonneg _)
        _ ≤ 10 ^ (25 : ℤ) := by rwa [mul_one]
    have hquot : (10 : ℚ) ^ (-25 : ℤ) ≤ n / f.value := by
      rw [le_div_iff₀ hpos]
      calc (10 : ℚ) ^ (-25 : ℤ) * f.value ≤ 10 ^ (-25 : ℤ) * 10 ^ (25 : ℤ) :=
            mul_le_mul_of_nonneg_left hvalue (Decimal.ten_zpow_pos _).le
        _ = 1 := by norm_num
        _ ≤ n := by exact_mod_cast hn
    have hrounded := Decimal.zpow_le_rounded precision_pos hquot
    rw [Decimal.nearest_eq_rounded_of_zpow_le (by decide) hquot,
      Decimal.nearest_eq_rounded_of_zpow_le (by decide) hrounded,
      Decimal.rounded_rounded precision_pos (div_nonneg (Nat.cast_nonneg n) hpos.le)]

/-- Scaled back, the rounded quotient of a moderate amount is the amount. -/
theorem floor_scaled_back (hn : n < pow10 58) {v : ℚ} (hv : 0 < v) :
    ⌊rounded precision (rounded precision (n / v) * v) + 1 / 2⌋ = n := by
  have herror : |rounded precision (rounded precision (n / v) * v) - n| ≤ _ :=
    Decimal.abs_rounded_mul_sub_le (Nat.cast_nonneg n) hv
  have hle : (n : ℚ) ≤ 10 ^ 58 := by
    rw [← Decimal.cast_pow10]
    exact_mod_cast hn.le
  have hbound : (n : ℚ) * ((2 + 10 ^ (1 - precision : ℤ) / 2) * (10 ^ (1 - precision : ℤ) / 2)) < 1 / 2 := by
    have hdigits : (10 : ℚ) ^ (1 - precision : ℤ) = 1 / 10 ^ 59 := by norm_num [precision]
    rw [hdigits]
    calc (n : ℚ) * ((2 + 1 / 10 ^ 59 / 2) * (1 / 10 ^ 59 / 2))
        ≤ 10 ^ 58 * ((2 + 1 / 10 ^ 59 / 2) * (1 / 10 ^ 59 / 2)) := mul_le_mul_of_nonneg_right hle (by norm_num)
      _ < 1 / 2 := by norm_num
  rw [abs_le] at herror
  rw [Int.floor_eq_iff, Int.cast_natCast]
  constructor <;> linarith

/-- Every known unit has a factor, and an amount below 10⁵⁸ that is converted to the unit and scaled back with the
factor is the same amount. -/
theorem scaled_convert (kind : UnitKind) :
    (∀ unit ∈ kind.unitNames, (kind.factor? unit).isSome) ∧
      ∀ unit f, kind.factor? unit = some f → ∀ n : Nat, n < pow10 58 →
        ∃ c e, kind.convert (.int n) (.text unit) (.int 1) = .ok (.finite false c e) ∧ scaled c e f = n := by
  refine ⟨fun unit => UnitKind.factor?_isSome_of_mem, ?_⟩
  intro unit f hf n hn
  have hknown : (kind.factor? unit).isSome := by rw [hf]; rfl
  obtain ⟨c, e, hconvert⟩ := convertAmount_ok hknown (convertible_of_lt (by decide) (by decide) hn) one_pos
  obtain ⟨c', e', hsame, hvalue⟩ := shows_of_convertAmount hf hconvert
  cases hsame
  refine ⟨c, e, ?_, ?_⟩
  · rw [← Nat.cast_one, convert_eq_convertAmount hf, hconvert]
    rfl
  · have hpos := UnitKind.value_pos hf
    have hscaled := scaled_eq c e f
    rw [hvalue, nearest_quotient hf, floor_scaled_back hn hpos, Nat.cast_inj] at hscaled
    exact hscaled

/-- The greatest such amount, in months. -/
theorem scaled_convert_months : ∃ c e,
    UnitKind.time.convert (.int (pow10 58 - 1 : Nat)) (.text "month") (.int 1) = .ok (.finite false c e) ∧
      scaled c e UnitKind.month = pow10 58 - 1 :=
  (scaled_convert .time).2 "month" UnitKind.month (by decide +kernel) _ (by decide +kernel)

end Quantity

end RowRecipe
