import Mathlib.Data.Int.Log
import RowRecipe.Proofs.Number.Scaling

/-!
# Rounding as a function of rational numbers

Rounding to a number of significant digits takes the nearest multiple of the power of ten at which the last digit
stands, a tie going to the even one. Sums up what coefficients and exponents do: the result depends on the number
alone, it keeps the order, and it errs by half of the last digit at most. The products of decimals are the exact
products rounded in this way, also where they are too small to keep all their digits.
-/

namespace RowRecipe

/-! ## The nearest whole number -/

/-- The whole number nearest to `x`; a tie goes to the even neighbour. -/
def nearestEven (x : ℚ) : ℤ :=
  if 2 * Int.fract x < 1 then ⌊x⌋
  else if 2 * Int.fract x = 1 then ⌊x⌋ + ⌊x⌋ % 2
  else ⌊x⌋ + 1

theorem floor_le_nearestEven (x : ℚ) : ⌊x⌋ ≤ nearestEven x := by
  unfold nearestEven
  split_ifs <;> omega

theorem nearestEven_le_floor_add_one (x : ℚ) : nearestEven x ≤ ⌊x⌋ + 1 := by
  unfold nearestEven
  split_ifs <;> omega

@[simp] theorem nearestEven_intCast (n : ℤ) : nearestEven n = n := by
  simp [nearestEven]

theorem nearestEven_mono {x y : ℚ} (hxy : x ≤ y) : nearestEven x ≤ nearestEven y := by
  rcases (Int.floor_mono hxy).lt_or_eq with hlt | heq
  · calc nearestEven x ≤ ⌊x⌋ + 1 := nearestEven_le_floor_add_one x
      _ ≤ ⌊y⌋ := hlt
      _ ≤ nearestEven y := floor_le_nearestEven y
  · have hfract : Int.fract x ≤ Int.fract y := by
      rw [Int.fract, Int.fract, heq]
      linarith
    unfold nearestEven
    rw [heq]
    split_ifs <;> grind

theorem abs_nearestEven_sub_le (x : ℚ) : |nearestEven x - x| ≤ 1 / 2 := by
  have hx := Int.floor_add_fract x
  have hnonneg := Int.fract_nonneg x
  have hlt := Int.fract_lt_one x
  rw [abs_le]
  unfold nearestEven
  split_ifs with hlow htie
  · constructor <;> linarith
  · rcases Int.emod_two_eq_zero_or_one ⌊x⌋ with h | h <;> rw [h] <;> push_cast <;> constructor <;> linarith
  · have hhigh : 1 < 2 * Int.fract x := lt_of_le_of_ne (not_lt.mp hlow) (Ne.symm htie)
    push_cast
    constructor <;> linarith

/-- Strictly between two neighbouring halves there is no choice. -/
theorem nearestEven_of_between {a : ℤ} {x : ℚ} (hlow : (a : ℚ) / 2 < x) (hhigh : x < ((a : ℚ) + 1) / 2) :
    nearestEven x = (a + 1) / 2 := by
  rcases Int.even_or_odd' a with ⟨b, rfl | rfl⟩ <;> push_cast at hlow hhigh
  · have hfloor : ⌊x⌋ = b := Int.floor_eq_iff.mpr ⟨by linarith, by linarith⟩
    have hfract : 2 * Int.fract x < 1 := by
      rw [Int.fract, hfloor]
      linarith
    rw [nearestEven, if_pos hfract, hfloor]
    omega
  · have hfloor : ⌊x⌋ = b := Int.floor_eq_iff.mpr ⟨by linarith, by linarith⟩
    have hfract : 1 < 2 * Int.fract x := by
      rw [Int.fract, hfloor]
      linarith
    rw [nearestEven, if_neg (by linarith), if_neg (by linarith), hfloor]
    omega

theorem fract_natCast_div (num : Nat) {den : Nat} (hden : 0 < den) :
    Int.fract ((num : ℚ) / den) = ((num % den : Nat) : ℚ) / den := by
  have hden' : (den : ℚ) ≠ 0 := by exact_mod_cast hden.ne'
  have hnum : (num : ℚ) = den * (num / den : Nat) + (num % den : Nat) := by
    exact_mod_cast (Nat.div_add_mod num den).symm
  have hfloor : ⌊(num : ℚ) / den⌋ = (num / den : Nat) := Rat.floor_natCast_div_natCast num den
  rw [Int.fract, hfloor, sub_eq_iff_eq_add, div_add' _ _ _ hden', Int.cast_natCast]
  congr 1
  linarith

theorem roundHalfEven_eq (num : Nat) {den : Nat} (hden : 0 < den) :
    ((roundHalfEven num den : Nat) : ℤ) = nearestEven ((num : ℚ) / den) := by
  have hden' : (0 : ℚ) < den := by exact_mod_cast hden
  have hlt : 2 * (((num % den : Nat) : ℚ) / den) < 1 ↔ 2 * (num % den) < den := by
    rw [← mul_div_assoc, div_lt_one hden']
    exact_mod_cast Iff.rfl
  have heq : 2 * (((num % den : Nat) : ℚ) / den) = 1 ↔ 2 * (num % den) = den := by
    rw [← mul_div_assoc, div_eq_one_iff_eq hden'.ne']
    exact_mod_cast Iff.rfl
  unfold roundHalfEven nearestEven
  simp only [fract_natCast_div num hden, hlt, heq, Rat.floor_natCast_div_natCast]
  split_ifs <;> simp

namespace Decimal

/-! ## Multiples of a power of ten -/

/-- The multiple of `10 ^ k` nearest to `x`; a tie goes to the even multiple. -/
def onGrid (k : ℤ) (x : ℚ) : ℚ :=
  nearestEven (x / 10 ^ k) * 10 ^ k

theorem ten_zpow_pos (k : ℤ) : (0 : ℚ) < 10 ^ k :=
  zpow_pos (by norm_num) k

theorem ten_zpow_le {j k : ℤ} (h : j ≤ k) : (10 : ℚ) ^ j ≤ 10 ^ k :=
  zpow_le_zpow_right₀ (by norm_num) h

theorem onGrid_mono (k : ℤ) {x y : ℚ} (hxy : x ≤ y) : onGrid k x ≤ onGrid k y := by
  have hk := ten_zpow_pos k
  have hdiv : x / 10 ^ k ≤ y / 10 ^ k := by gcongr
  have hcast : (nearestEven (x / 10 ^ k) : ℚ) ≤ nearestEven (y / 10 ^ k) := by exact_mod_cast nearestEven_mono hdiv
  exact mul_le_mul_of_nonneg_right hcast hk.le

theorem abs_onGrid_sub_le (k : ℤ) (x : ℚ) : |onGrid k x - x| ≤ 10 ^ k / 2 := by
  have hk := ten_zpow_pos k
  have hx : x = x / 10 ^ k * 10 ^ k := (div_mul_cancel₀ x hk.ne').symm
  calc |onGrid k x - x| = |(nearestEven (x / 10 ^ k) - x / 10 ^ k) * 10 ^ k| := by
        rw [onGrid, sub_mul, ← hx]
    _ = |nearestEven (x / 10 ^ k) - x / 10 ^ k| * 10 ^ k := by rw [abs_mul, abs_of_pos hk]
    _ ≤ 1 / 2 * 10 ^ k := mul_le_mul_of_nonneg_right (abs_nearestEven_sub_le _) hk.le
    _ = 10 ^ k / 2 := by ring

/-- A number whose last digit stands on the grid is on it. -/
theorem onGrid_magnitude {k e : ℤ} (h : k ≤ e) (c : Nat) : onGrid k (magnitude c e) = magnitude c e := by
  obtain ⟨j, rfl⟩ := Int.le.dest h
  have hk := ten_zpow_pos k
  have hdiv : magnitude c (k + j) / 10 ^ k = ((c * pow10 j : Nat) : ℤ) := by
    rw [← magnitude_mul_pow10, magnitude, mul_div_cancel_right₀ _ hk.ne', Int.cast_natCast]
  rw [onGrid, hdiv, nearestEven_intCast, ← hdiv, div_mul_cancel₀ _ hk.ne']

theorem onGrid_zpow {k l : ℤ} (h : k ≤ l) : onGrid k (10 ^ l) = 10 ^ l := by
  simpa [magnitude] using onGrid_magnitude h 1

theorem onGrid_zero (k : ℤ) : onGrid k 0 = 0 := by
  simpa [magnitude] using onGrid_magnitude (le_refl k) 0

theorem onGrid_nonneg {x : ℚ} (hx : 0 ≤ x) (k : ℤ) : 0 ≤ onGrid k x := by
  rw [← onGrid_zero k]
  exact onGrid_mono k hx

/-- A power of ten that is on both grids keeps the results apart. -/
theorem onGrid_le_onGrid {j k l : ℤ} {x y : ℚ} (hj : j ≤ l) (hk : k ≤ l) (hx : x ≤ 10 ^ l) (hy : 10 ^ l ≤ y) :
    onGrid j x ≤ onGrid k y :=
  calc onGrid j x ≤ onGrid j (10 ^ l) := onGrid_mono j hx
    _ = 10 ^ l := onGrid_zpow hj
    _ = onGrid k (10 ^ l) := (onGrid_zpow hk).symm
    _ ≤ onGrid k y := onGrid_mono k hy

theorem magnitude_nonneg (c : Nat) (e : ℤ) : 0 ≤ magnitude c e :=
  mul_nonneg (Nat.cast_nonneg c) (ten_zpow_pos e).le

theorem magnitude_pos {c : Nat} (hc : 0 < c) (e : ℤ) : 0 < magnitude c e :=
  mul_pos (Nat.cast_pos.mpr hc) (ten_zpow_pos e)

theorem magnitude_zero (e : ℤ) : magnitude 0 e = 0 := by
  simp [magnitude]

/-- The numerator of a grid place is the rounded coefficient. -/
theorem magnitude_roundHalfEven (c k : Nat) (e : ℤ) :
    magnitude (roundHalfEven c (pow10 k)) (e + k) = onGrid (e + k) (magnitude c e) := by
  have hdiv : magnitude c e / 10 ^ (e + k) = (c : ℚ) / (pow10 k : Nat) := by
    rw [zpow_add₀ (by norm_num), zpow_natCast, magnitude, cast_pow10, mul_comm (10 ^ e : ℚ),
      mul_div_mul_right _ _ (ten_zpow_pos e).ne']
  rw [onGrid, hdiv, ← roundHalfEven_eq c (pow10_pos k), magnitude, Int.cast_natCast]

/-! ## The place of the leading digit -/

theorem log_eq {x : ℚ} {l : ℤ} (hlow : 10 ^ l ≤ x) (hhigh : x < 10 ^ (l + 1)) : Int.log 10 x = l := by
  have hx : 0 < x := (ten_zpow_pos l).trans_le hlow
  apply le_antisymm
  · exact Int.lt_add_one_iff.mp ((Int.lt_zpow_iff_log_lt (by norm_num) hx).mp (by exact_mod_cast hhigh))
  · exact (Int.zpow_le_iff_le_log (by norm_num) hx).mp (by exact_mod_cast hlow)

theorem zpow_log_le {x : ℚ} (hx : 0 < x) : (10 : ℚ) ^ Int.log 10 x ≤ x := by
  exact_mod_cast Int.zpow_log_le_self (b := 10) (by norm_num) hx

theorem lt_zpow_log (x : ℚ) : x < 10 ^ (Int.log 10 x + 1) := by
  exact_mod_cast Int.lt_zpow_succ_log_self (b := 10) (by norm_num) x

/-- A coefficient stands between the powers of ten that its number of digits says. -/
theorem zpow_place_le {c : Nat} (hc : 0 < c) (e : ℤ) : (10 : ℚ) ^ place c e ≤ magnitude c e := by
  have hdigits := digitCount_pos c
  have hle : ((pow10 (digitCount c - 1) : Nat) : ℚ) ≤ c := by exact_mod_cast pow10_le_of_pos hc
  calc (10 : ℚ) ^ place c e = 10 ^ (digitCount c - 1) * 10 ^ e := by
        rw [← zpow_natCast, ← zpow_add₀ (by norm_num)]
        congr 1
        unfold place
        omega
    _ ≤ c * 10 ^ e := by
        rw [← cast_pow10]
        exact mul_le_mul_of_nonneg_right hle (ten_zpow_pos e).le

theorem magnitude_lt_zpow_place (c : Nat) (e : ℤ) : magnitude c e < 10 ^ (place c e + 1) := by
  have hlt : (c : ℚ) < (pow10 (digitCount c) : Nat) := by exact_mod_cast lt_pow10_digitCount c
  calc magnitude c e < (pow10 (digitCount c) : Nat) * 10 ^ e := mul_lt_mul_of_pos_right hlt (ten_zpow_pos e)
    _ = 10 ^ (place c e + 1) := by
        rw [cast_pow10, ← zpow_natCast, ← zpow_add₀ (by norm_num)]
        congr 1
        unfold place
        omega

theorem log_magnitude {c : Nat} (hc : 0 < c) (e : ℤ) : Int.log 10 (magnitude c e) = place c e :=
  log_eq (zpow_place_le hc e) (magnitude_lt_zpow_place c e)

/-! ## Significant digits -/

variable {precision : Nat}

/-- The place of the last of so many digits of `x`. -/
def lastPlace (precision : Nat) (x : ℚ) : ℤ :=
  Int.log 10 x + 1 - precision

/-- `x` rounded to so many significant digits, half to even. -/
def rounded (precision : Nat) (x : ℚ) : ℚ :=
  onGrid (lastPlace precision x) x

/-- The decimal of so many significant digits that is nearest to `x`, if its last digit has a place. -/
def nearest (precision : Nat) (x : ℚ) : ℚ :=
  onGrid (max (lastPlace precision x) (leastExponent precision)) x

theorem nearest_eq_rounded {x : ℚ} (h : leastPlace ≤ Int.log 10 x) : nearest precision x = rounded precision x := by
  have hplace : leastExponent precision ≤ lastPlace precision x := by
    unfold leastExponent lastPlace
    omega
  rw [nearest, rounded, max_eq_left hplace]

/-- A number whose leading digit has a place keeps its digits. -/
theorem nearest_eq_rounded_of_zpow_le {x : ℚ} {l : ℤ} (hl : leastPlace ≤ l) (h : 10 ^ l ≤ x) :
    nearest precision x = rounded precision x := by
  have hlog : l ≤ Int.log 10 x :=
    (Int.zpow_le_iff_le_log (by norm_num) ((ten_zpow_pos l).trans_le h)).mp (by exact_mod_cast h)
  exact nearest_eq_rounded (hl.trans hlog)

@[simp] theorem rounded_zero : rounded precision 0 = 0 :=
  onGrid_zero _

@[simp] theorem nearest_zero : nearest precision 0 = 0 :=
  onGrid_zero _

theorem rounded_nonneg {x : ℚ} (hx : 0 ≤ x) : 0 ≤ rounded precision x :=
  onGrid_nonneg hx _

theorem nearest_nonneg {x : ℚ} (hx : 0 ≤ x) : 0 ≤ nearest precision x :=
  onGrid_nonneg hx _

/-- A number with a higher leading digit stays the greater one, on whatever grid the other is rounded. -/
theorem onGrid_le_of_log_lt (hp : 0 < precision) {x y : ℚ} {j : ℤ} (hy : 0 < y) (hj : j ≤ lastPlace precision y)
    (hlog : Int.log 10 x < Int.log 10 y) : onGrid j x ≤ onGrid (lastPlace precision y) y := by
  have hlast : lastPlace precision y ≤ Int.log 10 y := by
    unfold lastPlace
    omega
  refine onGrid_le_onGrid (hj.trans hlast) hlast ?_ (zpow_log_le hy)
  exact (lt_zpow_log x).le.trans (ten_zpow_le (by omega))

theorem rounded_le_rounded (hp : 0 < precision) {x y : ℚ} (hx : 0 ≤ x) (hxy : x ≤ y) :
    rounded precision x ≤ rounded precision y := by
  rcases hx.eq_or_lt with rfl | hpos
  · rw [rounded_zero]
    exact rounded_nonneg hxy
  · rcases (Int.log_mono_right (b := 10) hpos hxy).eq_or_lt with heq | hlt
    · have hlast : lastPlace precision x = lastPlace precision y := by rw [lastPlace, lastPlace, heq]
      rw [rounded, rounded, hlast]
      exact onGrid_mono _ hxy
    · refine onGrid_le_of_log_lt hp (hpos.trans_le hxy) ?_ hlt
      unfold lastPlace
      omega

theorem nearest_le_nearest (hp : 0 < precision) {x y : ℚ} (hx : 0 ≤ x) (hxy : x ≤ y) :
    nearest precision x ≤ nearest precision y := by
  rcases hx.eq_or_lt with rfl | hpos
  · rw [nearest_zero]
    exact nearest_nonneg hxy
  · have hlog := Int.log_mono_right (b := 10) hpos hxy
    have hlast : lastPlace precision x ≤ lastPlace precision y := by
      unfold lastPlace
      omega
    unfold nearest
    rcases (max_le_max_right (leastExponent precision) hlast).eq_or_lt with heq | hlt
    · rw [heq]
      exact onGrid_mono _ hxy
    · -- The greater number keeps all its digits, since its grid is not the least one.
      have hy : max (lastPlace precision y) (leastExponent precision) = lastPlace precision y := by omega
      rw [hy] at hlt ⊢
      refine onGrid_le_of_log_lt hp (hpos.trans_le hxy) hlt.le ?_
      unfold lastPlace at *
      omega

/-- Rounding moves a number by the part of it that a half in the last digit can be. -/
theorem abs_rounded_sub_le {x : ℚ} (hx : 0 ≤ x) : |rounded precision x - x| ≤ x * (10 ^ (1 - precision : ℤ) / 2) := by
  rcases hx.eq_or_lt with rfl | hpos
  · simp
  · calc |rounded precision x - x| ≤ 10 ^ lastPlace precision x / 2 := abs_onGrid_sub_le _ x
      _ = 10 ^ Int.log 10 x * (10 ^ (1 - precision : ℤ) / 2) := by
          rw [lastPlace, add_sub_assoc, zpow_add₀ (by norm_num), mul_div_assoc]
      _ ≤ x * (10 ^ (1 - precision : ℤ) / 2) := by
          have := ten_zpow_pos (1 - precision : ℤ)
          exact mul_le_mul_of_nonneg_right (zpow_log_le hpos) (by positivity)

/-- A rounded quotient errs by as much when it is multiplied back. -/
theorem abs_rounded_div_mul_sub_le {x v : ℚ} (hx : 0 ≤ x) (hv : 0 < v) :
    |rounded precision (x / v) * v - x| ≤ x * (10 ^ (1 - precision : ℤ) / 2) :=
  calc |rounded precision (x / v) * v - x| = |rounded precision (x / v) - x / v| * v := by
        nth_rewrite 2 [← div_mul_cancel₀ x hv.ne']
        rw [← sub_mul, abs_mul, abs_of_pos hv]
    _ ≤ x / v * (10 ^ (1 - precision : ℤ) / 2) * v :=
        mul_le_mul_of_nonneg_right (abs_rounded_sub_le (div_nonneg hx hv.le)) hv.le
    _ = x * (10 ^ (1 - precision : ℤ) / 2) := by rw [mul_right_comm, div_mul_cancel₀ x hv.ne']

/-- A number with so few digits is its own rounding. -/
theorem rounded_of_hasDigits (hp : 0 < precision) {x : ℚ} (h : HasDigits precision x) : rounded precision x = x := by
  obtain ⟨c, e, hc, rfl⟩ := h
  rcases Nat.eq_zero_or_pos c with rfl | hpos
  · rw [magnitude_zero, rounded_zero]
  · have hdigits := digitCount_le hp hc
    refine onGrid_magnitude ?_ c
    rw [lastPlace, log_magnitude hpos]
    unfold place
    omega

theorem hasDigits_natCast {n : Nat} (h : n < pow10 precision) : HasDigits precision (n : ℚ) :=
  ⟨n, 0, h, by simp [magnitude]⟩

/-- Zeros at the end do not count. -/
theorem hasDigits_mul_pow10 {c : Nat} (hc : c < pow10 precision) (k : Nat) :
    HasDigits precision (c * pow10 k : Nat) := by
  refine ⟨c, k, hc, ?_⟩
  rw [magnitude, zpow_natCast, ← cast_pow10, Nat.cast_mul]

theorem hasDigits_rounded (hp : 0 < precision) {x : ℚ} (hx : 0 ≤ x) : HasDigits precision (rounded precision x) := by
  have hk := ten_zpow_pos (lastPlace precision x)
  have hnonneg : 0 ≤ nearestEven (x / 10 ^ lastPlace precision x) := by
    have hdiv : ((0 : ℤ) : ℚ) ≤ x / 10 ^ lastPlace precision x := by
      rw [Int.cast_zero]
      positivity
    have := nearestEven_mono hdiv
    rwa [nearestEven_intCast] at this
  have hle : nearestEven (x / 10 ^ lastPlace precision x) ≤ (pow10 precision : Nat) := by
    have hdiv : x / 10 ^ lastPlace precision x ≤ ((pow10 precision : Nat) : ℤ) := by
      rw [div_le_iff₀ hk, Int.cast_natCast, cast_pow10, ← zpow_natCast, ← zpow_add₀ (by norm_num)]
      refine (lt_zpow_log x).le.trans (ten_zpow_le ?_)
      unfold lastPlace
      omega
    have := nearestEven_mono hdiv
    rwa [nearestEven_intCast] at this
  obtain ⟨c, hc⟩ := Int.eq_ofNat_of_zero_le hnonneg
  have hvalue : rounded precision x = magnitude c (lastPlace precision x) := by
    rw [rounded, onGrid, hc, magnitude, Int.cast_natCast]
  rw [hvalue]
  rcases (show c ≤ pow10 precision by omega).lt_or_eq with hlt | rfl
  · exact ⟨c, _, hlt, rfl⟩
  · refine ⟨1, lastPlace precision x + precision, ?_, ?_⟩
    · exact lt_of_lt_of_le (by decide) (pow10_le_pow10 hp)
    · rw [← magnitude_mul_pow10, one_mul]

theorem rounded_rounded (hp : 0 < precision) {x : ℚ} (hx : 0 ≤ x) :
    rounded precision (rounded precision x) = rounded precision x :=
  rounded_of_hasDigits hp (hasDigits_rounded hp hx)

/-- Rounding does not take a number below a power of ten. -/
theorem zpow_le_rounded (hp : 0 < precision) {x : ℚ} {l : ℤ} (h : 10 ^ l ≤ x) : 10 ^ l ≤ rounded precision x := by
  have hdigits : HasDigits precision (10 ^ l) :=
    ⟨1, l, lt_of_lt_of_le (by decide) (pow10_le_pow10 hp), by simp [magnitude]⟩
  rw [← rounded_of_hasDigits hp hdigits]
  exact rounded_le_rounded hp (ten_zpow_pos l).le h

theorem rounded_eq_self_iff (hp : 0 < precision) {x : ℚ} (hx : 0 ≤ x) :
    rounded precision x = x ↔ HasDigits precision x := by
  constructor
  · intro h
    rw [← h]
    exact hasDigits_rounded hp hx
  · exact rounded_of_hasDigits hp

/-- A whole number keeps its leading digits, and the others become zeros. -/
theorem rounded_natCast (hp : 0 < precision) (n : Nat) : rounded precision n =
    (roundHalfEven n (pow10 (digitCount n - precision)) * pow10 (digitCount n - precision) : Nat) := by
  have hn : (n : ℚ) = magnitude n 0 := by simp [magnitude]
  rcases le_or_gt (digitCount n) precision with hfew | hmany
  · have hlt : n < pow10 precision := (lt_pow10_digitCount n).trans_le (pow10_le_pow10 hfew)
    rw [rounded_of_hasDigits hp (hasDigits_natCast hlt), Nat.sub_eq_zero_of_le hfew]
    simp [roundHalfEven, pow10, Nat.mod_one]
  · obtain ⟨k, hk⟩ : ∃ k, digitCount n = precision + k := ⟨digitCount n - precision, by omega⟩
    have hpos : 0 < n := by
      rcases Nat.eq_zero_or_pos n with rfl | hpos
      · exact absurd hmany (by simp [digitCount]; omega)
      · exact hpos
    have hlast : lastPlace precision (n : ℚ) = k := by
      rw [lastPlace, hn, log_magnitude hpos]
      unfold place
      omega
    rw [show digitCount n - precision = k by omega, rounded, hlast, hn, ← magnitude_natCast]
    simpa using (magnitude_roundHalfEven n k 0).symm

/-! ## The results of decimals -/

/-- The rounded coefficient and what its exponent grows by are the rounded number. -/
theorem magnitude_roundedParts (hp : 0 < precision) (c : Nat) (e : ℤ) :
    magnitude (roundedParts precision c).1 (e + (roundedParts precision c).2) = rounded precision (magnitude c e) := by
  unfold roundedParts
  split
  next hfew =>
    have hlt : c < pow10 precision := (lt_pow10_digitCount c).trans_le (pow10_le_pow10 hfew)
    simp [rounded_of_hasDigits hp ⟨c, e, hlt, rfl⟩]
  next hmany =>
    have hpos : 0 < c := by
      rcases Nat.eq_zero_or_pos c with rfl | hc
      · exact absurd hp (by simpa [digitCount] using hmany)
      · exact hc
    obtain ⟨excess, hexcess⟩ : ∃ excess, digitCount c = precision + excess := ⟨digitCount c - precision, by omega⟩
    have hlast : lastPlace precision (magnitude c e) = e + excess := by
      rw [lastPlace, log_magnitude hpos]
      unfold place
      omega
    have hq := magnitude_roundHalfEven c excess e
    have hle := roundHalfEven_pow10_le c excess
    rw [show digitCount c - precision = excess by omega, rounded, hlast, ← hq]
    rw [show max 1 (digitCount c - excess) = precision by omega] at hle
    dsimp only
    split
    next => rfl
    next hlong =>
      -- The digits were nines, and what is one digit too long is a one with zeros.
      have heq : roundHalfEven c (pow10 excess) = pow10 precision := by
        refine hle.antisymm (Nat.le_of_not_lt fun hlt => hlong (digitCount_le hp hlt))
      obtain ⟨k, rfl⟩ : ∃ k, precision = k + 1 := ⟨precision - 1, by omega⟩
      rw [heq, pow10_succ, Nat.mul_div_cancel _ (by decide), show pow10 k * 10 = pow10 k * pow10 1 from rfl,
        magnitude_mul_pow10]
      congr 1
      push_cast
      ring

/-- The decimal is finite and stands for `x`, with the given sign. -/
def Shows (d : Decimal) (negative : Bool) (x : ℚ) : Prop :=
  ∃ c e, d = .finite negative c e ∧ magnitude c e = x

theorem magnitude_withoutDigits (c count : Nat) (e : ℤ) :
    magnitude (withoutDigits c count) (e + count) = onGrid (e + count) (magnitude c e) := by
  unfold withoutDigits
  split
  next hshort =>
    -- The leading digit stands behind the tenths of the grid.
    have hten := pow10_le_pow10 (j := digitCount c + 1) (k := count) (by omega)
    have hlt := lt_pow10_digitCount c
    rw [pow10_succ] at hten
    have hzero : roundHalfEven c (pow10 count) = 0 := by
      have hdiv : c / pow10 count = 0 := Nat.div_eq_of_lt (by omega)
      have hmod : c % pow10 count = c := Nat.mod_eq_of_lt (by omega)
      simp [roundHalfEven, hdiv, hmod, show 2 * c < pow10 count by omega]
    rw [← magnitude_roundHalfEven, hzero]
  next => exact magnitude_roundHalfEven c count e

/-- A result is the nearest decimal. -/
theorem shows_of_fitted (hp : 0 < precision) {negative : Bool} {c : Nat} {e : ℤ} {d : Decimal}
    (h : fitted precision negative c e = .ok d) : d.Shows negative (nearest precision (magnitude c e)) := by
  unfold fitted at h
  dsimp only at h
  split at h
  next hzero =>
    cases h
    exact ⟨0, _, rfl, by rw [hzero, magnitude_zero, magnitude_zero, nearest_zero]⟩
  next hc =>
    have hlog := log_magnitude (Nat.pos_of_ne_zero hc) e
    split at h
    next hsmall =>
      cases h
      have hlast : max (lastPlace precision (magnitude c e)) (leastExponent precision) = leastExponent precision := by
        rw [lastPlace, hlog]
        unfold leastExponent
        omega
      obtain ⟨count, hcount⟩ : ∃ count : Nat, leastExponent precision = e + count :=
        ⟨(leastExponent precision - e).toNat, by omega⟩
      refine ⟨_, _, rfl, ?_⟩
      rw [nearest, hlast, hcount, show (e + (count : ℤ) - e).toNat = count by omega]
      exact magnitude_withoutDigits c count e
    next hlarge =>
      split at h
      next => cases h
      next =>
        cases h
        refine ⟨_, _, rfl, (magnitude_roundedParts hp c e).trans ?_⟩
        rcases le_or_gt leastPlace (place c e) with hplace | hplace
        · exact (nearest_eq_rounded (by rwa [hlog])).symm
        · -- The number is so small that it ends before the least exponent, and neither grid changes it.
          have hleast : leastExponent precision ≤ e := by
            by_contra hlt
            exact hlarge ⟨hplace, not_le.mp hlt⟩
          have hlast : lastPlace precision (magnitude c e) ≤ leastExponent precision := by
            rw [lastPlace, hlog]
            unfold leastExponent
            omega
          rw [rounded, nearest, max_eq_right hlast, onGrid_magnitude (hlast.trans hleast),
            onGrid_magnitude hleast]

/-- A product is the nearest decimal to the exact product. -/
theorem shows_of_mul (hp : 0 < precision) {s t : Bool} {c d : Nat} {e f : ℤ} {r : Decimal}
    (h : mul precision (.finite s c e) (.finite t d f) = .ok r) :
    r.Shows (s != t) (nearest precision (magnitude c e * magnitude d f)) := by
  rw [magnitude_mul]
  exact shows_of_fitted hp h

end Decimal

end RowRecipe
