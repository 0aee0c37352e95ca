import RowRecipe.Number.Double.Text
import RowRecipe.Proofs.Number.Order
import RowRecipe.Proofs.Number.Stored

/-!
# The texts of doubles keep their order

The decimals that read back as a double make up an interval around it, and the intervals of two doubles have an end in
common at most. A double is written as one of these decimals: on the grid of seventeen digits one of the neighbours of
the double is always among them, so the search for a shorter one does not come back with nothing. Therefore the
decimals that the texts of doubles show are in the order of the doubles.
-/

namespace RowRecipe

open Decimal (magnitude)

theorem cast_pow5 (n : Nat) : ((pow5 n : Nat) : ℚ) = 5 ^ n := by
  simp [pow5]

namespace Double

variable {m m' : Nat} {e e' exponent leading : ℤ}

/-- The number that a mantissa and an exponent stand for. -/
def binary (m : Nat) (e : ℤ) : ℚ :=
  m * 2 ^ e

theorem binary_nonneg (m : Nat) (e : ℤ) : 0 ≤ binary m e :=
  mul_nonneg (Nat.cast_nonneg m) (two_zpow_pos e).le

theorem binary_pos (hm : 0 < m) (e : ℤ) : 0 < binary m e :=
  mul_pos (Nat.cast_pos.mpr hm) (two_zpow_pos e)

/-! ## The interval of numbers that read back -/

/-- By how many quarters of the last place a number may be less than the double: the doubles below the least mantissa
are closer by half. -/
def below (m : Nat) (e : ℤ) : Nat :=
  if m = pow2 52 ∧ -1074 < e then 1 else 2

/-- The lower end of the interval. -/
def least (m : Nat) (e : ℤ) : ℚ :=
  (4 * m - below m e) * 2 ^ (e - 2)

/-- The upper end of the interval. -/
def greatest (m : Nat) (e : ℤ) : ℚ :=
  (4 * m + 2) * 2 ^ (e - 2)

theorem below_le (m : Nat) (e : ℤ) : 1 ≤ below m e ∧ below m e ≤ 2 := by
  unfold below
  split <;> omega

theorem binary_eq_quarters (m : Nat) (e : ℤ) : binary m e = 4 * m * 2 ^ (e - 2) := by
  rw [binary, zpow_sub₀ (by norm_num)]
  norm_num
  ring

theorem binary_lt_greatest (m : Nat) (e : ℤ) : binary m e < greatest m e := by
  rw [binary_eq_quarters]
  exact mul_lt_mul_of_pos_right (by linarith) (two_zpow_pos _)

theorem least_lt_binary (m : Nat) (e : ℤ) : least m e < binary m e := by
  have hbelow : (1 : ℚ) ≤ below m e := by exact_mod_cast (below_le m e).1
  rw [binary_eq_quarters]
  exact mul_lt_mul_of_pos_right (by linarith) (two_zpow_pos _)

/-- The two sides that are compared, counted in quarters of the last place. -/
theorem cast_scaledDigits (e exponent : ℤ) (digits : Nat) :
    ((digits * pow10 exponent.toNat * pow2 (2 - e).toNat : Nat) : ℚ) =
      magnitude digits exponent / 2 ^ (e - 2) * (pow10 (-exponent).toNat * pow2 (e - 2).toNat : Nat) := by
  rw [magnitude, zpow_eq_div (by norm_num) exponent, zpow_eq_div (by norm_num) (e - 2), neg_sub]
  push_cast [Decimal.cast_pow10, cast_pow2]
  field_simp

/-- What reads back lies in the interval, which has its ends in it for even mantissas. -/
theorem readsBack_iff (hm : 0 < m) (digits : Nat) : readsBack m e digits exponent = true ↔
    if m % 2 = 0 then least m e ≤ magnitude digits exponent ∧ magnitude digits exponent ≤ greatest m e
    else least m e < magnitude digits exponent ∧ magnitude digits exponent < greatest m e := by
  have hq := two_zpow_pos (e - 2)
  have hscaled := cast_scaledDigits e exponent digits
  have hden : (0 : ℚ) < (pow10 (-exponent).toNat * pow2 (e - 2).toNat : Nat) := by
    push_cast [Decimal.cast_pow10, cast_pow2]
    positivity
  have hbelow := below_le m e
  have hleast : ((4 * m - below m e : Nat) : ℚ) * 2 ^ (e - 2) = least m e := by
    rw [least, Nat.cast_sub (by omega), Nat.cast_mul, Nat.cast_ofNat]
  have hgreatest : ((4 * m + 2 : Nat) : ℚ) * 2 ^ (e - 2) = greatest m e := by
    rw [greatest]
    push_cast
    rfl
  unfold readsBack
  dsimp only
  rw [← below]
  generalize digits * pow10 exponent.toNat * pow2 (2 - e).toNat = num at hscaled ⊢
  generalize pow10 (-exponent).toNat * pow2 (e - 2).toNat = den at hscaled hden ⊢
  have atLeast : ∀ a : Nat, a * den ≤ num ↔ a * 2 ^ (e - 2) ≤ magnitude digits exponent := by
    intro a
    rw [← le_div_iff₀ hq, ← mul_le_mul_iff_of_pos_right hden, ← hscaled]
    exact_mod_cast Iff.rfl
  have atMost : ∀ a : Nat, num ≤ a * den ↔ magnitude digits exponent ≤ a * 2 ^ (e - 2) := by
    intro a
    rw [← div_le_iff₀ hq, ← mul_le_mul_iff_of_pos_right hden, ← hscaled]
    exact_mod_cast Iff.rfl
  split
  next => rw [Bool.and_eq_true, decide_eq_true_eq, decide_eq_true_eq, atLeast, atMost, hleast, hgreatest]
  next =>
    rw [Bool.and_eq_true, decide_eq_true_eq, decide_eq_true_eq, ← not_le, ← not_le, atLeast, atMost, hleast,
      hgreatest, not_le, not_le]

theorem bounds_of_readsBack (hm : 0 < m) {digits : Nat} (h : readsBack m e digits exponent = true) :
    least m e ≤ magnitude digits exponent ∧ magnitude digits exponent ≤ greatest m e := by
  rw [readsBack_iff hm] at h
  split at h
  next => exact h
  next => exact ⟨h.1.le, h.2.le⟩

theorem readsBack_of_between (hm : 0 < m) {digits : Nat} (hlow : least m e < magnitude digits exponent)
    (hhigh : magnitude digits exponent < greatest m e) : readsBack m e digits exponent = true := by
  rw [readsBack_iff hm]
  split
  next => exact ⟨hlow.le, hhigh.le⟩
  next => exact ⟨hlow, hhigh⟩

/-- A double with a greater exponent is the greater one. -/
theorem binary_lt_of_exponent_lt (hs : HasBits m e) (hs' : HasBits m' e') (h : e < e') : binary m e < binary m' e' := by
  obtain ⟨hlt, hleast, -⟩ := hs
  obtain ⟨-, -, hfull⟩ := hs'
  have hfull' : ((pow2 52 : Nat) : ℚ) ≤ m' := by
    exact_mod_cast hfull.resolve_right (by omega)
  have hlt' : (m : ℚ) < (pow2 53 : Nat) := by exact_mod_cast hlt
  have hpow : (2 : ℚ) ^ (e + 1) ≤ 2 ^ e' := zpow_le_zpow_right₀ (by norm_num) (by omega)
  calc binary m e < (pow2 53 : Nat) * 2 ^ e := mul_lt_mul_of_pos_right hlt' (two_zpow_pos e)
    _ = (pow2 52 : Nat) * 2 ^ (e + 1) := by
        rw [zpow_add₀ (by norm_num), cast_pow2, cast_pow2]
        ring
    _ ≤ binary m' e' := mul_le_mul hfull' hpow (two_zpow_pos _).le (Nat.cast_nonneg _)

/-- The interval of a double ends before that of a greater one begins. -/
theorem greatest_le_least (hs : HasBits m e) (hs' : HasBits m' e') (h : binary m e < binary m' e') :
    greatest m e ≤ least m' e' := by
  have hee' : e ≤ e' := by
    by_contra hlt
    exact lt_asymm h (binary_lt_of_exponent_lt hs' hs (not_le.mp hlt))
  rcases hee'.eq_or_lt with rfl | hlt
  · have hmm' : (m : ℚ) < m' := (mul_lt_mul_iff_of_pos_right (two_zpow_pos e)).mp h
    have hnext : (m : ℚ) + 1 ≤ m' := by exact_mod_cast hmm'
    have hbelow : (below m' e : ℚ) ≤ 2 := by exact_mod_cast (below_le m' e).2
    exact mul_le_mul_of_nonneg_right (by linarith) (two_zpow_pos _).le
  · -- The greater double has all its bits, and below the least mantissa the interval is half as wide.
    obtain ⟨hmax, hleast, -⟩ := hs
    obtain ⟨-, -, hfull⟩ := hs'
    have hm : (4 * m + 2 : ℚ) ≤ 2 * (4 * m' - below m' e') := by
      have hfull : pow2 52 ≤ m' := hfull.resolve_right (by omega)
      have hnat : 4 * m + 2 + 2 * below m' e' ≤ 8 * m' := by
        have hpow : pow2 53 = 2 * pow2 52 := by decide +kernel
        unfold below
        split <;> omega
      have hnat' : (4 * m + 2 + 2 * below m' e' : ℚ) ≤ 8 * m' := by exact_mod_cast hnat
      linarith
    have hpow : (2 : ℚ) ^ (e - 2) * 2 ≤ 2 ^ (e' - 2) := by
      rw [← zpow_add_one₀ (by norm_num)]
      exact zpow_le_zpow_right₀ (by norm_num) (by omega)
    have hnonneg : (0 : ℚ) ≤ 4 * m' - below m' e' := by
      have : (0 : ℚ) ≤ m := Nat.cast_nonneg m
      linarith
    calc greatest m e ≤ 2 * (4 * m' - below m' e') * 2 ^ (e - 2) := mul_le_mul_of_nonneg_right hm (two_zpow_pos _).le
      _ = (4 * m' - below m' e') * (2 ^ (e - 2) * 2) := by ring
      _ ≤ least m' e' := mul_le_mul_of_nonneg_left hpow hnonneg

/-! ## Seventeen digits suffice -/

/-- The leading digit of a quotient stands where the search begins. -/
theorem zpow_leadingExponent_le {num den : Nat} (hnum : 0 < num) (hden : 0 < den) :
    (10 : ℚ) ^ leadingExponent num den ≤ num / den := by
  have hden' : (0 : ℚ) < den := by exact_mod_cast hden
  unfold leadingExponent
  split
  next hle =>
    have hquot : 0 < num / den := Nat.div_pos hle hden
    obtain ⟨k, hk⟩ : ∃ k, digitCount (num / den) = k + 1 := Nat.exists_eq_add_one.mpr (digitCount_pos _)
    have hpow := pow10_le_of_pos hquot
    rw [hk, Nat.add_sub_cancel, Nat.le_div_iff_mul_le hden] at hpow
    rw [hk, le_div_iff₀ hden', show ((k + 1 : Nat) : ℤ) - 1 = k by omega, zpow_natCast, ← Decimal.cast_pow10]
    exact_mod_cast hpow
  next hlt =>
    have fraction : ∀ k : Nat, den ≤ num * pow10 k → (10 : ℚ) ^ (-(k : ℤ)) ≤ num / den := by
      intro k hk
      have hten : (0 : ℚ) < (pow10 k : Nat) := by exact_mod_cast pow10_pos k
      rw [zpow_neg, zpow_natCast, ← Decimal.cast_pow10, inv_eq_one_div, div_le_div_iff₀ hten hden', one_mul]
      exact_mod_cast hk
    dsimp only
    split
    next hpow => exact fraction _ hpow.ge
    next =>
      refine fraction _ ((Nat.lt_mul_div_succ den hnum).le.trans (Nat.mul_le_mul_left num ?_))
      exact lt_pow10_digitCount (den / num)

/-- The double as the quotient that the search works with. -/
theorem binary_div_zpow (m : Nat) (e exponent : ℤ) : binary m e / 10 ^ exponent =
    (m * pow2 e.toNat * pow10 (-exponent).toNat : Nat) / (pow2 (-e).toNat * pow10 exponent.toNat : Nat) := by
  rw [binary, zpow_eq_div (by norm_num) e, zpow_eq_div (by norm_num) exponent]
  push_cast [Decimal.cast_pow10, cast_pow2]
  field_simp

/-- On a grid of seventeen digits, one of the neighbours of the double lies strictly within the interval. -/
theorem readsBack_neighbour (hs : HasBits m e) (hm : 0 < m) (hfine : 10 ^ (exponent + 16) ≤ binary m e) {low : Nat}
    (hlow : magnitude low exponent ≤ binary m e) (hhigh : binary m e < magnitude (low + 1) exponent) :
    readsBack m e low exponent = true ∨ readsBack m e (low + 1) exponent = true := by
  have hq := two_zpow_pos (e - 2)
  have hstep : magnitude (low + 1) exponent = magnitude low exponent + 10 ^ exponent := by
    unfold magnitude
    push_cast
    ring
  have hspacing : (10 : ℚ) ^ exponent * 10 ^ 16 ≤ 4 * (m : ℚ) * 2 ^ (e - 2) := by
    rw [← binary_eq_quarters]
    refine le_trans (le_of_eq ?_) hfine
    rw [zpow_add₀ (by norm_num)]
    rfl
  -- The step of the grid is less than the width of the interval, also where its lower half is the narrow one.
  have hwide : (10 : ℚ) ^ exponent < (2 + below m e) * 2 ^ (e - 2) := by
    have hmax : 4 * (m : ℚ) < (2 + below m e) * 10 ^ 16 := by
      have hnat : 4 * m < (2 + below m e) * 10 ^ 16 := by
        have hlt := hs.1
        have hpow : pow2 53 = 9007199254740992 := by decide +kernel
        have hpow' : pow2 52 = 4503599627370496 := by decide +kernel
        unfold below
        split <;> omega
      exact_mod_cast hnat
    have hlt := mul_lt_mul_of_pos_right hmax hq
    linarith
  rcases lt_or_ge (magnitude (low + 1) exponent) (greatest m e) with hup | hup
  · exact .inr (readsBack_of_between hm ((least_lt_binary m e).trans hhigh) hup)
  · refine .inl (readsBack_of_between hm ?_ (hlow.trans_lt (binary_lt_greatest m e)))
    unfold least
    unfold greatest at hup
    linarith

theorem readsBack_of_onGrid? {digits : Nat} (h : onGrid? m e exponent = some digits) :
    readsBack m e digits exponent = true := by
  unfold onGrid? at h
  dsimp only at h
  split at h
  next hlow hhigh =>
    cases h
    unfold roundHalfEven
    dsimp only
    rcases Nat.mod_two_eq_zero_or_one
      (m * pow2 e.toNat * pow10 (-exponent).toNat / (pow2 (-e).toNat * pow10 exponent.toNat)) with heven | hodd
    · split_ifs
      · exact hlow
      · rwa [heven, Nat.add_zero]
      · exact hhigh
    · split_ifs
      · exact hlow
      · rwa [hodd]
      · exact hhigh
  next hlow hhigh =>
    cases h
    exact hlow
  next hlow hhigh =>
    cases h
    exact hhigh
  next => cases h

theorem exists_onGrid? (hs : HasBits m e) (hm : 0 < m) (hfine : 10 ^ (exponent + 16) ≤ binary m e) :
    ∃ digits, onGrid? m e exponent = some digits := by
  have hten := Decimal.ten_zpow_pos exponent
  have hquot := binary_div_zpow m e exponent
  have hden : 0 < pow2 (-e).toNat * pow10 exponent.toNat := Nat.mul_pos (pow2_pos _) (pow10_pos _)
  unfold onGrid?
  dsimp only
  generalize m * pow2 e.toNat * pow10 (-exponent).toNat = num at hquot ⊢
  generalize pow2 (-e).toNat * pow10 exponent.toNat = den at hquot hden ⊢
  have hden' : (0 : ℚ) < den := by exact_mod_cast hden
  have hlow : magnitude (num / den) exponent ≤ binary m e := by
    rw [magnitude, ← le_div_iff₀ hten, hquot, le_div_iff₀ hden']
    exact_mod_cast Nat.div_mul_le_self num den
  have hhigh : binary m e < magnitude (num / den + 1) exponent := by
    rw [magnitude, ← div_lt_iff₀ hten, hquot, div_lt_iff₀ hden', ← Nat.cast_mul, Nat.mul_comm]
    exact_mod_cast Nat.lt_mul_div_succ num hden
  rcases readsBack_neighbour hs hm hfine hlow hhigh with h | h
  · rw [h]
    cases readsBack m e (num / den + 1) exponent <;> exact ⟨_, rfl⟩
  · rw [h]
    cases readsBack m e (num / den) exponent <;> exact ⟨_, rfl⟩

theorem readsBack_of_firstGrid? {ks : List Nat} {found : Nat × ℤ} (h : firstGrid? m e leading ks = some found) :
    readsBack m e found.1 found.2 = true := by
  induction ks with
  | nil => cases h
  | cons k ks ih =>
    unfold firstGrid? at h
    split at h
    next digits hgrid =>
      cases h
      exact readsBack_of_onGrid? hgrid
    next => exact ih h

theorem exists_firstGrid? {ks : List Nat} {k : Nat} (hk : k ∈ ks) {digits : Nat}
    (h : onGrid? m e (leading - k + 1) = some digits) : ∃ found, firstGrid? m e leading ks = some found := by
  induction ks with
  | nil => cases hk
  | cons j ks ih =>
    unfold firstGrid?
    split
    next => exact ⟨_, rfl⟩
    next hnone =>
      rcases List.mem_cons.mp hk with rfl | hmem
      · rw [h] at hnone
        cases hnone
      · exact ih hmem

/-! ## The decimal that the text shows -/

theorem shortest_bounds (hs : HasBits m e) (hm : 0 < m) :
    least m e ≤ magnitude (shortest m e).1 (shortest m e).2 ∧
      magnitude (shortest m e).1 (shortest m e).2 ≤ greatest m e := by
  have hleading : (10 : ℚ) ^ leadingExponent (m * pow2 e.toNat) (pow2 (-e).toNat) ≤ binary m e := by
    refine (zpow_leadingExponent_le (Nat.mul_pos hm (pow2_pos _)) (pow2_pos _)).trans_eq ?_
    simpa [pow10, pow2] using (binary_div_zpow m e 0).symm
  unfold shortest
  dsimp only
  generalize leadingExponent (m * pow2 e.toNat) (pow2 (-e).toNat) = leading at hleading ⊢
  have hfine : (10 : ℚ) ^ (leading - (17 : Nat) + 1 + 16) ≤ binary m e := by
    rwa [show leading - (17 : Nat) + 1 + 16 = leading by push_cast; ring]
  obtain ⟨digits, hdigits⟩ := exists_onGrid? hs hm hfine
  obtain ⟨found, hfound⟩ := exists_firstGrid? (show 17 ∈ List.range' 1 17 by decide) hdigits
  rw [hfound, Option.getD_some, ← Decimal.magnitude_mul_pow10, dropZeros_mul_pow]
  exact bounds_of_readsBack hm (readsBack_of_firstGrid? hfound)

/-- The number that the text of a double shows, without its sign. -/
def shown (m : Nat) (e : ℤ) : ℚ :=
  if m = 0 then 0 else magnitude (shortest m e).1 (shortest m e).2

@[simp] theorem shown_zero (e : ℤ) : shown 0 e = 0 :=
  rfl

theorem shown_nonneg (m : Nat) (e : ℤ) : 0 ≤ shown m e := by
  unfold shown
  split
  · exact le_rfl
  · exact Decimal.magnitude_nonneg _ _

theorem toDecimal_value? (negative : Bool) (m : Nat) (e : ℤ) :
    (finite negative m e).toDecimal.value? = some (if negative then -shown m e else shown m e) := by
  have hdecimal : ∃ c f, (finite negative m e).toDecimal = .finite negative c f ∧ magnitude c f = shown m e := by
    unfold toDecimal shown
    dsimp only
    split
    next => exact ⟨0, -1, rfl, Decimal.magnitude_zero _⟩
    next =>
      split
      next hwhole =>
        refine ⟨_, _, rfl, ?_⟩
        rw [Decimal.magnitude_mul_pow10]
        congr 1
        omega
      next => exact ⟨_, _, rfl, rfl⟩
  obtain ⟨c, f, hdecimal, hvalue⟩ := hdecimal
  rw [hdecimal, Decimal.value?, Decimal.signedMagnitude, hvalue]

theorem exact_value? (negative : Bool) (m : Nat) (e : ℤ) :
    (finite negative m e).exact.value? = some (if negative then -binary m e else binary m e) := by
  unfold exact binary
  dsimp only
  split
  next hpos =>
    obtain ⟨k, rfl⟩ := Int.eq_ofNat_of_zero_le hpos
    rw [Decimal.value?, Decimal.signedMagnitude, magnitude, zpow_zero, mul_one, Int.toNat_natCast, Nat.cast_mul,
      cast_pow2, zpow_natCast]
  next hneg =>
    obtain ⟨k, rfl⟩ : ∃ k : Nat, e = -(k : ℤ) := ⟨(-e).toNat, by omega⟩
    have hfive : magnitude (m * pow5 k) (-(k : ℤ)) = m * 2 ^ (-(k : ℤ)) := by
      rw [magnitude, Nat.cast_mul, cast_pow5, zpow_neg, zpow_neg, zpow_natCast, zpow_natCast,
        show (10 : ℚ) ^ k = 5 ^ k * 2 ^ k by rw [← mul_pow]; norm_num]
      field_simp
    rw [neg_neg, Int.toNat_natCast, Decimal.value?, Decimal.signedMagnitude, hfive]

/-- The texts of greater doubles show greater numbers, and those of equal ones the same. -/
theorem shown_le_shown (hs : HasBits m e) (hs' : HasBits m' e') (h : binary m e ≤ binary m' e') :
    shown m e ≤ shown m' e' := by
  rcases Nat.eq_zero_or_pos m with rfl | hm
  · rw [shown_zero]
    exact shown_nonneg m' e'
  · have hm' : 0 < m' := by
      by_contra hzero
      rw [Nat.eq_zero_of_not_pos hzero] at h
      exact absurd h (by simpa [binary] using binary_pos hm e)
    rcases h.lt_or_eq with hlt | heq
    · have hupper := (shortest_bounds hs hm).2
      have hlower := (shortest_bounds hs' hm').1
      rw [shown, if_neg hm.ne', shown, if_neg hm'.ne']
      exact hupper.trans ((greatest_le_least hs hs' hlt).trans hlower)
    · -- Equal doubles have one exponent, and so one mantissa.
      obtain rfl : e = e' := by
        rcases lt_trichotomy e e' with hexp | hexp | hexp
        · exact absurd heq (binary_lt_of_exponent_lt hs hs' hexp).ne
        · exact hexp
        · exact absurd heq (binary_lt_of_exponent_lt hs' hs hexp).ne'
      have hmantissa : (m : ℚ) = m' := mul_right_cancel₀ (two_zpow_pos e).ne' heq
      rw [Nat.cast_inj.mp hmantissa]

/-- The decimals that the texts of finite doubles show are in the order of the doubles. -/
theorem value_toDecimal_le {c d : Double} (hc : c.Stored) (hd : d.Stored) (h : c.exact.AtMost d.exact) {x y : ℚ}
    (hx : c.toDecimal.value? = some x) (hy : d.toDecimal.value? = some y) : x ≤ y := by
  cases c with
  | infinite => cases hx
  | nan => cases hx
  | finite s m e =>
    cases d with
    | infinite => cases hy
    | nan => cases hy
    | finite t m' e' =>
      rw [Decimal.atMost_iff (exact_value? s m e) (exact_value? t m' e')] at h
      rw [toDecimal_value?, Option.some.injEq] at hx hy
      subst hx hy
      have hm := binary_nonneg m e
      have hm' := binary_nonneg m' e'
      have hshown := shown_nonneg m e
      have hshown' := shown_nonneg m' e'
      cases s <;> cases t <;> simp only [Bool.false_eq_true, if_true, if_false] at h ⊢
      · exact shown_le_shown hc hd h
      · -- Both are zero, one of them with a sign.
        have hzero : binary m e ≤ binary 0 (-1074) := by simpa [binary] using h.trans (neg_nonpos.mpr hm')
        have hzero' : binary m' e' ≤ binary 0 (-1074) := by simpa [binary] using le_trans hm h
        have hle := shown_le_shown hc hasBits_zero hzero
        have hle' := shown_le_shown hd hasBits_zero hzero'
        rw [shown_zero] at hle hle'
        linarith
      · linarith
      · exact neg_le_neg (shown_le_shown hd hc (neg_le_neg_iff.mp h))

end Double

end RowRecipe
