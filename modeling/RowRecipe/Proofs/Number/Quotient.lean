import Mathlib.Data.Nat.Cast.Field
import RowRecipe.Proofs.Number.Rounding

/-!
# Rounded quotients

A quotient that does not end is cut off behind more digits than the precision has, and its last digit is made one that
says "more follows". Rounding cannot tell such a number from the quotient itself: both lie between the same
neighbouring multiples of five, and every tie and every multiple of a power of ten is a multiple of five.
-/

namespace RowRecipe.Decimal

variable {precision : Nat}

/-- Between neighbouring multiples of five, all numbers are rounded alike to a higher place. -/
theorem nearestEven_div_pow10 {k m : Nat} (hk : 0 < k) {y z : ℚ} (hy : 5 * (m : ℚ) < y ∧ y < 5 * m + 5)
    (hz : 5 * (m : ℚ) < z ∧ z < 5 * m + 5) :
    nearestEven (y / (pow10 k : Nat)) = nearestEven (z / (pow10 k : Nat)) := by
  obtain ⟨j, rfl⟩ : ∃ j, k = j + 1 := ⟨k - 1, by omega⟩
  have hpow : (0 : ℚ) < (pow10 (j + 1) : Nat) := by exact_mod_cast pow10_pos (j + 1)
  have hten : ((pow10 (j + 1) : Nat) : ℚ) = (pow10 j : Nat) * 10 := by
    rw [pow10_succ]
    push_cast
    rfl
  have hlow : ((m / pow10 j : Nat) : ℚ) * (pow10 j : Nat) ≤ m := by exact_mod_cast Nat.div_mul_le_self m (pow10 j)
  have hhigh : (m : ℚ) + 1 ≤ (((m / pow10 j : Nat) : ℚ) + 1) * (pow10 j : Nat) := by
    have hlt := Nat.lt_mul_div_succ m (pow10_pos j)
    rw [Nat.mul_comm] at hlt
    exact_mod_cast hlt
  have between : ∀ {x : ℚ}, 5 * (m : ℚ) < x ∧ x < 5 * m + 5 →
      nearestEven (x / (pow10 (j + 1) : Nat)) = (((m / pow10 j : Nat) : ℤ) + 1) / 2 := by
    intro x hx
    apply nearestEven_of_between
    · rw [lt_div_iff₀ hpow, hten, Int.cast_natCast]
      linarith [hx.1]
    · rw [div_lt_iff₀ hpow, hten, Int.cast_natCast]
      linarith [hx.2]
  rw [between hy, between hz]

theorem log_mul_zpow {q : Nat} (hq : 0 < q) {y : ℚ} (hlow : (q : ℚ) ≤ y) (hhigh : y < (pow10 (digitCount q) : Nat))
    (e : ℤ) : Int.log 10 (y * 10 ^ e) = place q e := by
  have he := ten_zpow_pos e
  apply log_eq
  · exact (zpow_place_le hq e).trans (mul_le_mul_of_nonneg_right hlow he.le)
  · calc y * 10 ^ e < (pow10 (digitCount q) : Nat) * 10 ^ e := mul_lt_mul_of_pos_right hhigh he
      _ = 10 ^ (place q e + 1) := by
          rw [cast_pow10, ← zpow_natCast, ← zpow_add₀ (by norm_num)]
          congr 1
          unfold place
          omega

/-- The cut-off digits and their mark lie between the same multiples of five as every number that goes on. -/
theorem marked_between (q : Nat) {y : ℚ} (hlow : (q : ℚ) < y) (hhigh : y < q + 1) :
    (5 * ((q / 5 : Nat) : ℚ) < y ∧ y < 5 * (q / 5 : Nat) + 5) ∧
      (5 * ((q / 5 : Nat) : ℚ) < marked q ∧ (marked q : ℚ) < 5 * (q / 5 : Nat) + 5) := by
  have hle : 5 * ((q / 5 : Nat) : ℚ) ≤ q := by exact_mod_cast Nat.mul_div_le q 5
  have hlt : (q : ℚ) + 1 ≤ 5 * (q / 5 : Nat) + 5 := by exact_mod_cast (show q + 1 ≤ 5 * (q / 5) + 5 by omega)
  have hmark : 5 * (q / 5) < marked q ∧ marked q < 5 * (q / 5) + 5 := by
    unfold marked
    split <;> omega
  exact ⟨⟨by linarith, by linarith⟩, by exact_mod_cast hmark.1, by exact_mod_cast hmark.2⟩

/-- The digit that says "more follows" stands for all that could follow. -/
theorem nearest_marked {q : Nat} (hq : pow10 precision ≤ q) {y : ℚ} (hlow : (q : ℚ) < y)
    (hhigh : y < q + 1) (e : ℤ) : nearest precision (magnitude (marked q) e) = nearest precision (y * 10 ^ e) := by
  have hpos : 0 < q := (pow10_pos precision).trans_le hq
  have hlong : precision < digitCount q := lt_digitCount hq
  have hle : ((q + 1 : Nat) : ℚ) ≤ (pow10 (digitCount q) : Nat) := by exact_mod_cast lt_pow10_digitCount q
  have hlogMarked : Int.log 10 (magnitude (marked q) e) = place q e := by
    refine log_mul_zpow hpos ?_ ?_ e
    · have : q ≤ marked q := by
        unfold marked
        split <;> omega
      exact_mod_cast this
    · exact_mod_cast marked_lt (digitCount_pos q) (lt_pow10_digitCount q)
  have hlog : Int.log 10 (y * 10 ^ e) = place q e := by
    refine log_mul_zpow hpos hlow.le (hhigh.trans_le ?_) e
    exact_mod_cast hle
  obtain ⟨k, hk, hgrid⟩ : ∃ k : Nat, 0 < k ∧
      max (place q e + 1 - precision) (leastExponent precision) = e + k := by
    refine ⟨(max (place q e + 1 - precision) (leastExponent precision) - e).toNat, ?_, ?_⟩ <;>
      unfold place <;> omega
  have hdiv : ∀ x : ℚ, x * 10 ^ e / 10 ^ (e + k) = x / (pow10 k : Nat) := by
    intro x
    rw [zpow_add₀ (by norm_num), zpow_natCast, cast_pow10, mul_comm (10 ^ e : ℚ),
      mul_div_mul_right _ _ (ten_zpow_pos e).ne']
  obtain ⟨hy, hm⟩ := marked_between q hlow hhigh
  unfold nearest lastPlace
  rw [hlogMarked, hlog, hgrid, onGrid, onGrid, magnitude, hdiv, hdiv, nearestEven_div_pow10 hk hm hy]

/-- The parts of a quotient are rounded to what the exact quotient is rounded to. -/
theorem nearest_quotientParts {num den : Nat} (hn : 0 < num) (hd : 0 < den) (ideal : ℤ) :
    nearest precision (magnitude (quotientParts precision num den ideal).1 (quotientParts precision num den ideal).2) =
      nearest precision ((num : ℚ) / den * 10 ^ ideal) := by
  have hnd := digitCount_pos num
  unfold quotientParts
  dsimp only
  generalize hshift : (precision + 1 + digitCount den - digitCount num : ℤ) = shift
  generalize hscaledNum : num * pow10 shift.toNat = scaledNum
  generalize hscaledDen : den * pow10 (-shift).toNat = scaledDen
  have hden : 0 < scaledDen := hscaledDen ▸ Nat.mul_pos hd (pow10_pos _)
  have hden' : (0 : ℚ) < scaledDen := by exact_mod_cast hden
  -- The shift only moves the point.
  have hvalue : (num : ℚ) / den * 10 ^ ideal = (scaledNum : ℚ) / scaledDen * 10 ^ (ideal - shift) := by
    have hd' : (den : ℚ) ≠ 0 := by exact_mod_cast hd.ne'
    rw [zpow_sub₀ (by norm_num), zpow_eq_div (by norm_num) shift, ← hscaledNum, ← hscaledDen]
    push_cast [cast_pow10]
    field_simp
  have hlarge : pow10 precision ≤ scaledNum / scaledDen := by
    rw [Nat.le_div_iff_mul_le hden, ← hscaledNum, ← hscaledDen]
    calc pow10 precision * (den * pow10 (-shift).toNat)
        ≤ pow10 precision * (pow10 (digitCount den) * pow10 (-shift).toNat) :=
          Nat.mul_le_mul_left _ (Nat.mul_le_mul_right _ (lt_pow10_digitCount den).le)
      _ = pow10 (digitCount num - 1) * pow10 shift.toNat := by
          rw [← pow10_add, ← pow10_add, ← pow10_add]
          congr 1
          omega
      _ ≤ num * pow10 shift.toNat := Nat.mul_le_mul_right _ (pow10_le_of_pos hn)
  rw [hvalue]
  split
  next hexact =>
    have hquot : (scaledNum : ℚ) / scaledDen = (scaledNum / scaledDen : Nat) :=
      (Nat.cast_div_charZero (Nat.dvd_of_mod_eq_zero hexact)).symm
    rw [hquot, ← magnitude_mul_pow10, dropZeros_mul_pow]
    rfl
  next hinexact =>
    have hmod : 0 < scaledNum % scaledDen := Nat.pos_of_ne_zero hinexact
    have hdivmod := Nat.div_add_mod scaledNum scaledDen
    have hlt := Nat.mod_lt scaledNum hden
    refine nearest_marked hlarge ?_ ?_ _
    · rw [lt_div_iff₀ hden']
      exact_mod_cast (show scaledNum / scaledDen * scaledDen < scaledNum by rw [Nat.mul_comm]; omega)
    · rw [div_lt_iff₀ hden']
      exact_mod_cast (show scaledNum < (scaledNum / scaledDen + 1) * scaledDen by rw [Nat.add_mul, Nat.mul_comm]; omega)

/-- A quotient is the nearest decimal to the exact quotient. -/
theorem shows_of_div (hp : 0 < precision) {s t : Bool} {c d : Nat} {e f : ℤ} {r : Decimal} (hd : 0 < d)
    (h : div precision (.finite s c e) (.finite t d f) = .ok r) :
    r.Shows (s != t) (nearest precision (magnitude c e / magnitude d f)) := by
  have hvalue : magnitude c e / magnitude d f = (c : ℚ) / d * 10 ^ (e - f) := by
    rw [magnitude, magnitude, mul_div_mul_comm, zpow_sub₀ (by norm_num)]
  rw [div, if_neg hd.ne'] at h
  split at h
  next hc =>
    have hzero := shows_of_fitted hp h
    rw [magnitude_zero] at hzero
    rwa [hc, magnitude_zero, zero_div]
  next hc =>
    rw [hvalue, ← nearest_quotientParts (Nat.pos_of_ne_zero hc) hd (e - f)]
    exact shows_of_fitted hp h

/-! ## Quotients out of range -/

/-- A number has a nearest result within the range, or it is out of range. -/
theorem fitted_cases (hp : 0 < precision) (negative : Bool) (c : Nat) (e : ℤ) :
    (∃ c' e', fitted precision negative c e = .ok (.finite negative c' e') ∧ (c' = 0 ∨ place c' e' ≤ greatestPlace)) ∨
      fitted precision negative c e = .error .outOfRange := by
  by_cases hc : c = 0
  · subst hc
    exact .inl ⟨0, _, rfl, .inl rfl⟩
  · rcases lt_or_ge (place c e) greatestPlace with hplace | hplace
    · obtain ⟨c', e', hok, hle⟩ := fitted_of_place_lt hp negative (.inr hplace)
      refine .inl ⟨c', e', hok, hle.imp id fun hle => ?_⟩
      unfold leastPlace greatestPlace at *
      omega
    · have hlarge : ¬(place c e < leastPlace ∧ e < leastExponent precision) := by
        unfold leastPlace greatestPlace at *
        omega
      unfold fitted
      dsimp only
      rw [if_neg hc, if_neg hlarge]
      split
      next => exact .inr rfl
      next hroom => exact .inl ⟨_, _, rfl, .inr (not_lt.mp hroom)⟩

/-- A quotient with its leading digit beyond the greatest place has no result. -/
theorem div_out_of_range (hp : 0 < precision) (s t : Bool) {c d : Nat} {e f : ℤ} (hd : 0 < d)
    (h : 10 ^ (greatestPlace + 1) ≤ magnitude c e / magnitude d f) :
    div precision (.finite s c e) (.finite t d f) = .error .outOfRange := by
  have hc : c ≠ 0 := by
    rintro rfl
    rw [magnitude_zero, zero_div] at h
    exact absurd (ten_zpow_pos _) (not_lt.mpr h)
  have hfitted : div precision (.finite s c e) (.finite t d f) = fitted precision (s != t)
      (quotientParts precision c d (e - f)).1 (quotientParts precision c d (e - f)).2 := by
    rw [div, if_neg hd.ne', if_neg hc]
  rcases fitted_cases hp (s != t) (quotientParts precision c d (e - f)).1
    (quotientParts precision c d (e - f)).2 with ⟨c', e', hok, hroom⟩ | herror
  · obtain ⟨c'', e'', heq, hvalue⟩ := shows_of_div hp hd (hfitted.trans hok)
    cases heq
    have hlow : 10 ^ (greatestPlace + 1) ≤ magnitude c' e' := by
      rw [hvalue, nearest_eq_rounded_of_zpow_le (by decide) h]
      exact zpow_le_rounded hp h
    rcases hroom with rfl | hroom
    · rw [magnitude_zero] at hlow
      exact absurd (ten_zpow_pos _) (not_lt.mpr hlow)
    · have hhigh := (magnitude_lt_zpow_place c' e').trans_le (ten_zpow_le (Int.add_le_add_right hroom 1))
      exact absurd hhigh (not_lt.mpr hlow)
  · exact hfitted.trans herror

end RowRecipe.Decimal
