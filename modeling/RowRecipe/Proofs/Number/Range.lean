import Mathlib.Tactic.NormNum
import RowRecipe.Number.Decimal

/-!
# The range of quotients

How far the leading digit of a quotient can stand from the point. Rounding moves it by one place at most,
so a quotient whose operands stay clear of the greatest place always has a result, and that result stays
clear of it too.
-/

namespace RowRecipe

/-! ## Counting digits -/

theorem digitCount_pos (n : Nat) : 0 < digitCount n := by
  unfold digitCount
  split <;> omega

theorem digitCount_le {n k : Nat} (hk : 0 < k) (h : n < pow10 k) : digitCount n ≤ k := by
  induction k generalizing n with
  | zero => exact absurd hk (Nat.lt_irrefl 0)
  | succ k ih =>
    unfold digitCount
    split
    · omega
    · rw [pow10_succ] at h
      rcases Nat.eq_zero_or_pos k with rfl | hk
      · rw [show pow10 0 = 1 from rfl] at h
        omega
      · have := ih hk (n := n / 10) (by omega)
        omega

theorem pow10_le_of_pos {n : Nat} (hn : 0 < n) : pow10 (digitCount n - 1) ≤ n := by
  by_contra h
  rcases Nat.eq_zero_or_pos (digitCount n - 1) with hz | hp
  · rw [hz] at h
    exact h hn
  · have := digitCount_le hp (Nat.lt_of_not_le h)
    omega

theorem pow10_le_pow10 {j k : Nat} (h : j ≤ k) : pow10 j ≤ pow10 k := by
  obtain ⟨d, rfl⟩ := Nat.exists_eq_add_of_le h
  rw [pow10_add]
  exact Nat.le_mul_of_pos_right _ (pow10_pos d)

theorem lt_digitCount {n k : Nat} (h : pow10 k ≤ n) : k < digitCount n := by
  by_contra hle
  have hpow := pow10_le_pow10 (Nat.le_of_not_lt hle)
  have hlt := lt_pow10_digitCount n
  omega

theorem digitCount_div_ten {n : Nat} (h : 1 < digitCount n) : digitCount (n / 10) + 1 = digitCount n := by
  conv => rhs; unfold digitCount
  split
  · next hn =>
    have := digitCount_le Nat.one_pos (n := n) hn
    omega
  · rfl

theorem digitCount_mul_le (m n : Nat) : digitCount (m * n) ≤ digitCount m + digitCount n := by
  have hm := digitCount_pos m
  apply digitCount_le (by omega)
  rw [pow10_add]
  exact Nat.mul_lt_mul'' (lt_pow10_digitCount m) (lt_pow10_digitCount n)

/-! ## Rounding -/

theorem roundHalfEven_le (num den : Nat) : roundHalfEven num den ≤ num / den + 1 := by
  unfold roundHalfEven
  dsimp only
  split
  · omega
  · split
    · have := Nat.mod_lt (num / den) (y := 2) (by omega)
      omega
    · omega

/-- Rounding away some last digits leaves the others, or a one and zeros. -/
theorem roundHalfEven_pow10_le (c k : Nat) :
    roundHalfEven c (pow10 k) ≤ pow10 (max 1 (digitCount c - k)) := by
  have hlt : c < pow10 k * pow10 (max 1 (digitCount c - k)) := by
    rw [← pow10_add]
    exact Nat.lt_of_lt_of_le (lt_pow10_digitCount c) (pow10_le_pow10 (by omega))
  have hdiv := Nat.div_lt_of_lt_mul hlt
  have hround := roundHalfEven_le c (pow10 k)
  omega

theorem digitCount_roundHalfEven_le (c k : Nat) :
    digitCount (roundHalfEven c (pow10 k)) ≤ max 1 (digitCount c - k) + 1 := by
  refine digitCount_le (Nat.succ_pos _) ?_
  have hround := roundHalfEven_pow10_le c k
  have hpos := pow10_pos (max 1 (digitCount c - k))
  rw [pow10_succ]
  omega

namespace Decimal

theorem place_roundedParts_le {precision : Nat} (hp : 0 < precision) (c : Nat) (e : Int) :
    place (roundedParts precision c).1 (e + (roundedParts precision c).2) ≤ place c e + 1 := by
  unfold roundedParts place
  split
  · dsimp only
    omega
  · next hd =>
    have hq := digitCount_roundHalfEven_le c (digitCount c - precision)
    dsimp only
    split
    · next hfit =>
      dsimp only
      omega
    · next hfit =>
      have := digitCount_div_ten (n := roundHalfEven c (pow10 (digitCount c - precision))) (by omega)
      dsimp only
      omega

/-- A number below the greatest place has a nearest result, one place higher at most. -/
theorem fitted_of_place_lt {precision : Nat} (hp : 0 < precision) (negative : Bool) {c : Nat} {e : Int}
    (h : c = 0 ∨ place c e < greatestPlace) :
    ∃ c' e', fitted precision negative c e = .ok (.finite negative c' e') ∧
      (c' = 0 ∨ place c' e' ≤ max (place c e) leastPlace + 1) := by
  unfold fitted
  dsimp only
  split
  · exact ⟨_, _, rfl, .inl rfl⟩
  · next hc =>
    have hplace := h.resolve_left hc
    split
    · next hsmall =>
      refine ⟨_, _, rfl, ?_⟩
      unfold withoutDigits
      split
      · exact .inl rfl
      · next hk =>
        right
        have hd := digitCount_roundHalfEven_le c (leastExponent precision - e).toNat
        unfold place leastExponent at *
        omega
    · have hr := place_roundedParts_le hp c e
      rw [if_neg (by omega)]
      refine ⟨_, _, rfl, .inr ?_⟩
      omega

/-! ## Quotients -/

theorem marked_lt {q k : Nat} (hk : 0 < k) (h : q < pow10 k) : marked q < pow10 k := by
  unfold marked
  split
  · next hq =>
    obtain ⟨j, rfl⟩ : ∃ j, k = j + 1 := ⟨k - 1, by omega⟩
    rw [pow10_succ] at h ⊢
    omega
  · exact h

theorem digitCount_dropZeros_le {n k : Nat} (hn : 0 < n) (h : n < pow10 k) (room : Nat) :
    digitCount (dropZeros n room).1 + (dropZeros n room).2 ≤ k := by
  have heq := dropZeros_mul_pow n room
  generalize (dropZeros n room).1 = c at heq ⊢
  generalize (dropZeros n room).2 = z at heq ⊢
  have hc : 0 < c := by
    rcases Nat.eq_zero_or_pos c with rfl | hc
    · omega
    · exact hc
  have hz : z < k := by
    by_contra hz
    have hpow := pow10_le_pow10 (Nat.le_of_not_lt hz)
    have hle := Nat.le_mul_of_pos_left (pow10 z) hc
    omega
  have hlt : c < pow10 (k - z) := by
    rw [show k = (k - z) + z by omega, pow10_add, ← heq] at h
    exact Nat.lt_of_mul_lt_mul_right h
  have := digitCount_le (by omega) hlt
  omega

/-- The leading digit of a quotient stands where the numbers of digits say, or one place lower. -/
theorem place_quotientParts_le (precision : Nat) {num den : Nat} (hn : 0 < num) (hd : 0 < den)
    (ideal : Int) :
    place (quotientParts precision num den ideal).1 (quotientParts precision num den ideal).2 ≤
      ideal + digitCount num - digitCount den := by
  have hnd := digitCount_pos num
  have hdd := digitCount_pos den
  unfold quotientParts
  dsimp only
  generalize hs : (precision + 1 + digitCount den - digitCount num : Int) = shift
  have hlow : pow10 (digitCount den - 1) * pow10 (-shift).toNat ≤ den * pow10 (-shift).toNat :=
    Nat.mul_le_mul_right _ (pow10_le_of_pos hd)
  have hden : 0 < den * pow10 (-shift).toNat := Nat.mul_pos hd (pow10_pos _)
  have hnum : 0 < num * pow10 shift.toNat := Nat.mul_pos hn (pow10_pos _)
  have hquot : num * pow10 shift.toNat / (den * pow10 (-shift).toNat) < pow10 (precision + 2) := by
    rw [Nat.div_lt_iff_lt_mul hden]
    calc num * pow10 shift.toNat
        < pow10 (digitCount num) * pow10 shift.toNat :=
          Nat.mul_lt_mul_of_pos_right (lt_pow10_digitCount num) (pow10_pos _)
      _ = pow10 (precision + 2) * (pow10 (digitCount den - 1) * pow10 (-shift).toNat) := by
          rw [← pow10_add, ← pow10_add, ← pow10_add]
          congr 1
          omega
      _ ≤ pow10 (precision + 2) * (den * pow10 (-shift).toNat) := Nat.mul_le_mul_left _ hlow
  split
  · next hexact =>
    have hpos : 0 < num * pow10 shift.toNat / (den * pow10 (-shift).toNat) :=
      Nat.div_pos (Nat.le_of_dvd hnum (Nat.dvd_of_mod_eq_zero hexact)) hden
    have := digitCount_dropZeros_le hpos hquot shift.toNat
    unfold place
    dsimp only
    omega
  · have := digitCount_le (by omega) (marked_lt (by omega) hquot)
    unfold place
    dsimp only
    omega

/-- A quotient has a result if the numbers of digits keep it below the greatest place. -/
theorem div_of_place_lt {precision : Nat} (hp : 0 < precision) (s t : Bool) {c d : Nat} {e f : Int}
    (hd : 0 < d) (h : c = 0 ∨ e - f + digitCount c - digitCount d < greatestPlace) :
    ∃ c' e', div precision (.finite s c e) (.finite t d f) = .ok (.finite (s != t) c' e') ∧
      (c' = 0 ∨ place c' e' ≤ max (e - f + digitCount c - digitCount d) leastPlace + 1) := by
  rw [div, if_neg (Nat.ne_of_gt hd)]
  split
  · obtain ⟨c', e', hok, hplace⟩ := fitted_of_place_lt hp (s != t) (c := 0) (e := e - f) (.inl rfl)
    refine ⟨c', e', hok, .inl ?_⟩
    unfold fitted at hok
    cases hok
    rfl
  · next hc =>
    have hq := place_quotientParts_le precision (Nat.pos_of_ne_zero hc) hd (e - f)
    have hlt := h.resolve_left hc
    obtain ⟨c', e', hok, hplace⟩ := fitted_of_place_lt hp (s != t) (.inr (Int.lt_of_le_of_lt hq hlt))
    refine ⟨c', e', hok, hplace.imp id fun hle => ?_⟩
    omega

end Decimal

end RowRecipe
