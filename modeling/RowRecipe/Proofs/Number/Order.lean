import Mathlib.Order.Compare
import RowRecipe.Number.Order
import RowRecipe.Proofs.Number.Rounding

/-!
# The order of decimals is the order of rational numbers

Signs are compared first, then the places of the leading digits, then the digits. All of it together is the order of
the numbers that the decimals stand for, whatever their exponents, and a zero has no sign in it.
-/

namespace RowRecipe.Decimal

/-- The number that a sign, a coefficient and an exponent stand for. -/
def signedMagnitude (negative : Bool) (coefficient : Nat) (exponent : ℤ) : ℚ :=
  if negative then -magnitude coefficient exponent else magnitude coefficient exponent

/-- Numbers with leading digits at different places are apart. -/
theorem magnitude_lt_of_place_lt {c d : Nat} {e f : ℤ} (hd : 0 < d) (h : place c e < place d f) :
    magnitude c e < magnitude d f :=
  calc magnitude c e < 10 ^ (place c e + 1) := magnitude_lt_zpow_place c e
    _ ≤ 10 ^ place d f := ten_zpow_le (by omega)
    _ ≤ magnitude d f := zpow_place_le hd f

/-- Two numbers counted in units of the lower of their last places. -/
theorem magnitude_eq_lowered (c : Nat) (e f : ℤ) :
    magnitude c e = (c * pow10 (e - f).toNat : Nat) * 10 ^ min e f := by
  rw [← magnitude, magnitude_mul_pow10]
  congr 1
  omega

theorem compareMagnitude_eq (c d : Nat) (e f : ℤ) :
    compareMagnitude c e d f = cmp (magnitude c e) (magnitude d f) := by
  have hlowered : cmp (magnitude c e) (magnitude d f) = cmp (c * pow10 (e - f).toNat) (d * pow10 (f - e).toNat) := by
    rw [magnitude_eq_lowered c e f, magnitude_eq_lowered d f e, min_comm f e, cmp_mul_pos_right (ten_zpow_pos _),
      Nat.strictMono_cast.cmp_map_eq]
  by_cases hzero : c = 0 ∨ d = 0
  · rw [compareMagnitude, if_pos hzero]
    rcases hzero with rfl | rfl
    · rcases Nat.eq_zero_or_pos d with rfl | hd
      · rw [magnitude_zero, magnitude_zero, cmp_self_eq_eq]
        rfl
      · rw [magnitude_zero, (cmp_eq_lt_iff _ _).mpr (magnitude_pos hd f), Nat.compare_eq_lt.mpr hd]
    · rcases Nat.eq_zero_or_pos c with rfl | hc
      · rw [magnitude_zero, magnitude_zero, cmp_self_eq_eq]
        rfl
      · rw [magnitude_zero, (cmp_eq_gt_iff _ _).mpr (magnitude_pos hc e), Nat.compare_eq_gt.mpr hc]
  · rw [compareMagnitude, if_neg hzero]
    rw [not_or] at hzero
    have hc := Nat.pos_of_ne_zero hzero.1
    have hd := Nat.pos_of_ne_zero hzero.2
    rcases lt_trichotomy (place c e) (place d f) with hlt | heq | hgt
    · rw [Int.compare_eq_lt.mpr hlt, (cmp_eq_lt_iff _ _).mpr (magnitude_lt_of_place_lt hd hlt)]
      rfl
    · rw [compare_eq_iff_eq.mpr heq, hlowered, cmp_eq_compare]
      rfl
    · rw [Int.compare_eq_gt.mpr hgt, (cmp_eq_gt_iff _ _).mpr (magnitude_lt_of_place_lt hc hgt)]
      rfl

theorem sign_zero (negative : Bool) : sign negative 0 = 0 := by
  cases negative <;> rfl

theorem sign_pos {c : Nat} (hc : 0 < c) (negative : Bool) : sign negative c = if negative then -1 else 1 := by
  have hmin : min c 1 = 1 := by omega
  cases negative <;> simp [sign, signed, hmin]

/-- Finite decimals compare as the numbers that they stand for. -/
theorem compare?_finite (s t : Bool) (c d : Nat) (e f : ℤ) :
    (finite s c e).compare? (finite t d f) = some (cmp (signedMagnitude s c e) (signedMagnitude t d f)) := by
  have below : ∀ {x y : ℚ}, x < y → cmp x y = .lt := fun h => (cmp_eq_lt_iff _ _).mpr h
  have above : ∀ {x y : ℚ}, y < x → cmp x y = .gt := fun h => (cmp_eq_gt_iff _ _).mpr h
  unfold compare? signedMagnitude
  rw [Option.some.injEq]
  rcases Nat.eq_zero_or_pos c with rfl | hc <;> rcases Nat.eq_zero_or_pos d with rfl | hd
  · rw [sign_zero, sign_zero, compareMagnitude_eq, compareMagnitude_eq, magnitude_zero, magnitude_zero, neg_zero, ite_self,
      ite_self, ite_self, cmp_self_eq_eq]
    rfl
  · have hd' := magnitude_pos hd f
    rw [sign_zero, sign_pos hd, magnitude_zero, neg_zero, ite_self]
    cases t
    · exact (below hd').symm
    · exact (above (neg_lt_zero.mpr hd')).symm
  · have hc' := magnitude_pos hc e
    rw [sign_zero, sign_pos hc, magnitude_zero, neg_zero, ite_self]
    cases s
    · exact (above hc').symm
    · exact (below (neg_lt_zero.mpr hc')).symm
  · have hc' := magnitude_pos hc e
    have hd' := magnitude_pos hd f
    rw [sign_pos hc, sign_pos hd, compareMagnitude_eq, compareMagnitude_eq]
    cases s <;> cases t
    · rfl
    · exact (above ((neg_lt_zero.mpr hd').trans hc')).symm
    · exact (below ((neg_lt_zero.mpr hc').trans hd')).symm
    · have hanti : StrictAnti fun x : ℚ => -x := fun x y h => neg_lt_neg h
      exact (hanti.cmp_map_eq (magnitude c e) (magnitude d f)).symm

/-- The number that a finite decimal is. -/
def value? : Decimal → Option ℚ
  | .finite negative coefficient exponent => some (signedMagnitude negative coefficient exponent)
  | _ => none

/-- The first number is not greater than the second. No number is not compared. -/
def AtMost (c d : Decimal) : Prop :=
  c.compare? d = some .lt ∨ c.compare? d = some .eq

theorem atMost_iff {c d : Decimal} {x y : ℚ} (hc : c.value? = some x) (hd : d.value? = some y) :
    c.AtMost d ↔ x ≤ y := by
  cases c with
  | infinite => cases hc
  | nan => cases hc
  | finite s c e =>
    cases d with
    | infinite => cases hd
    | nan => cases hd
    | finite t d f =>
      cases hc
      cases hd
      rw [AtMost, compare?_finite, Option.some.injEq, Option.some.injEq, cmp_eq_lt_iff, cmp_eq_eq_iff, le_iff_lt_or_eq]

end RowRecipe.Decimal
