import RowRecipe.Number.Double
import RowRecipe.Proofs.Number.Rounding

/-!
# Doubles as they are stored

A double has a mantissa of 53 bits, unless its exponent is the least one. Conversions and sums choose the exponent so
that the mantissa of the rounded quotient has this form, and a mantissa that is rounded up to 54 bits is shifted once.
-/

namespace RowRecipe

theorem cast_pow2 (n : Nat) : ((pow2 n : Nat) : ℚ) = 2 ^ n := by
  simp [pow2]

theorem pow2_pos (n : Nat) : 0 < pow2 n :=
  Nat.pow_pos two_pos

theorem two_zpow_pos (k : ℤ) : (0 : ℚ) < 2 ^ k :=
  zpow_pos (by norm_num) k

namespace Double

variable {num den : Nat}

/-- A mantissa and an exponent as doubles have them: all 53 bits are used, except at the least exponent. -/
def HasBits (m : Nat) (e : ℤ) : Prop :=
  m < pow2 53 ∧ -1074 ≤ e ∧ (pow2 52 ≤ m ∨ e = -1074)

/-- A double with a mantissa and an exponent that can be stored. -/
def Stored : Double → Prop
  | .finite _ m e => HasBits m e
  | _ => True

theorem hasBits_zero : HasBits 0 (-1074) :=
  ⟨by decide, le_rfl, .inr rfl⟩

/-- The quotient in units of the last place, as it is rounded. -/
theorem div_two_zpow (num den : Nat) (e : ℤ) : (num : ℚ) / den / 2 ^ e =
    (num * pow2 (-e).toNat : Nat) / (den * pow2 e.toNat : Nat) := by
  rw [zpow_eq_div (by norm_num) e]
  push_cast [cast_pow2]
  field_simp

/-- A quotient lies within one binary place of the quotient of the leading bits. -/
theorem quotient_between (hnum : 0 < num) (hden : 0 < den) :
    (2 : ℚ) ^ ((num.log2 : ℤ) - den.log2 - 1) ≤ num / den ∧ (num : ℚ) / den < 2 ^ ((num.log2 : ℤ) - den.log2 + 1) := by
  have hnumLow : (2 : ℚ) ^ num.log2 ≤ num := by exact_mod_cast Nat.log2_self_le hnum.ne'
  have hnumHigh : (num : ℚ) < 2 ^ (num.log2 + 1) := by exact_mod_cast Nat.lt_log2_self
  have hdenLow : (2 : ℚ) ^ den.log2 ≤ den := by exact_mod_cast Nat.log2_self_le hden.ne'
  have hdenHigh : (den : ℚ) < 2 ^ (den.log2 + 1) := by exact_mod_cast Nat.lt_log2_self
  have hden' : (0 : ℚ) < den := by exact_mod_cast hden
  constructor
  · calc (2 : ℚ) ^ ((num.log2 : ℤ) - den.log2 - 1) = 2 ^ num.log2 / 2 ^ (den.log2 + 1) := by
          rw [← zpow_natCast, ← zpow_natCast, ← zpow_sub₀ (by norm_num)]
          congr 1
          omega
      _ ≤ num / den := div_le_div₀ (Nat.cast_nonneg _) hnumLow hden' hdenHigh.le
  · calc (num : ℚ) / den < 2 ^ (num.log2 + 1) / 2 ^ den.log2 :=
          div_lt_div₀ hnumHigh hdenLow (by positivity) (by positivity)
      _ = 2 ^ ((num.log2 : ℤ) - den.log2 + 1) := by
          rw [← zpow_natCast, ← zpow_natCast, ← zpow_sub₀ (by norm_num)]
          congr 1
          omega

/-- In units of the chosen last place, the quotient has 53 bits, or fewer at the least exponent. -/
theorem exponentFor_spec (hnum : 0 < num) (hden : 0 < den) : -1074 ≤ exponentFor num den ∧
    (num : ℚ) / den / 2 ^ exponentFor num den < 2 ^ 53 ∧
      (2 ^ 52 ≤ (num : ℚ) / den / 2 ^ exponentFor num den ∨ exponentFor num den = -1074) := by
  obtain ⟨hlow, hhigh⟩ := quotient_between hnum hden
  unfold exponentFor
  dsimp only
  generalize hx : (num : ℚ) / den = x at hlow hhigh
  generalize hfirst : (num.log2 : ℤ) - den.log2 - 53 = first
  -- The first guess leaves 53 bits or 54, and the second one 53 of them.
  obtain ⟨second, hsecond, hbelow, habove⟩ : ∃ second,
      (if num * pow2 (-first).toNat / (den * pow2 first.toNat) < pow2 53 then first else first + 1) = second ∧
        x / 2 ^ second < 2 ^ 53 ∧ 2 ^ 52 ≤ x / 2 ^ second := by
    have hcut : num * pow2 (-first).toNat / (den * pow2 first.toNat) < pow2 53 ↔ x / 2 ^ first < 2 ^ 53 := by
      have hunit : 0 < den * pow2 first.toNat := Nat.mul_pos hden (pow2_pos _)
      have hunit' : (0 : ℚ) < (den * pow2 first.toNat : Nat) := by exact_mod_cast hunit
      rw [← hx, div_two_zpow, Nat.div_lt_iff_lt_mul hunit, div_lt_iff₀ hunit', ← cast_pow2]
      exact_mod_cast Iff.rfl
    have hstart := two_zpow_pos first
    split
    next hsmall =>
      refine ⟨first, rfl, hcut.mp hsmall, ?_⟩
      rw [le_div_iff₀ hstart]
      refine le_trans (le_of_eq ?_) hlow
      rw [← zpow_natCast, ← zpow_add₀ (by norm_num)]
      congr 1
      omega
    next hlarge =>
      rw [hcut, not_lt, le_div_iff₀ hstart] at hlarge
      have hnext := two_zpow_pos (first + 1)
      refine ⟨first + 1, rfl, ?_, ?_⟩
      · rw [div_lt_iff₀ hnext]
        refine hhigh.trans_eq ?_
        rw [← zpow_natCast, ← zpow_add₀ (by norm_num)]
        congr 1
        omega
      · rw [le_div_iff₀ hnext]
        refine le_trans (le_of_eq ?_) hlarge
        rw [zpow_add_one₀ (by norm_num)]
        ring
  rw [hsecond]
  refine ⟨le_max_right _ _, ?_, ?_⟩
  · have hpos := two_zpow_pos second
    have hle : (2 : ℚ) ^ second ≤ 2 ^ max second (-1074) := zpow_le_zpow_right₀ (by norm_num) (le_max_left _ _)
    have hx0 : 0 ≤ x := hx ▸ div_nonneg (Nat.cast_nonneg _) (Nat.cast_nonneg _)
    exact (div_le_div_of_nonneg_left hx0 hpos hle).trans_lt hbelow
  · rcases le_total (-1074) second with hle | hle
    · left
      rwa [max_eq_left hle]
    · right
      exact max_eq_right hle

/-- The double nearest to a quotient can be stored. -/
theorem stored_ofRatio (negative : Bool) (num : Nat) (hden : 0 < den) : (ofRatio negative num den).Stored := by
  unfold ofRatio
  split
  next => exact hasBits_zero
  next hne =>
    obtain ⟨hleast, hbelow, habove⟩ := exponentFor_spec (Nat.pos_of_ne_zero hne) hden
    dsimp only
    generalize exponentFor num den = e at hleast hbelow habove
    have hunit : 0 < den * pow2 e.toNat := Nat.mul_pos hden (pow2_pos _)
    have hrounded := roundHalfEven_eq (num * pow2 (-e).toNat) hunit
    rw [← div_two_zpow] at hrounded
    generalize roundHalfEven (num * pow2 (-e).toNat) (den * pow2 e.toNat) = m at hrounded
    have hle : m ≤ pow2 53 := by
      have hmax : (num : ℚ) / den / 2 ^ e ≤ ((pow2 53 : Nat) : ℤ) := by
        rw [Int.cast_natCast, cast_pow2]
        exact hbelow.le
      have hmono := nearestEven_mono hmax
      rw [← hrounded, nearestEven_intCast] at hmono
      exact_mod_cast hmono
    have hfull : pow2 52 ≤ m ∨ e = -1074 := by
      refine habove.imp_left fun hlow => ?_
      have hmin : (((pow2 52 : Nat) : ℤ) : ℚ) ≤ num / den / 2 ^ e := by
        rw [Int.cast_natCast, cast_pow2]
        exact hlow
      have hmono := nearestEven_mono hmin
      rw [← hrounded, nearestEven_intCast] at hmono
      exact_mod_cast hmono
    generalize hr : (if m = pow2 53 then (pow2 52, e + 1) else (m, e)) = r
    have hbits : HasBits r.1 r.2 := by
      rw [← hr]
      split
      next =>
        have hlt : pow2 52 < pow2 53 := by decide +kernel
        exact ⟨hlt, hleast.trans (by simp), .inl le_rfl⟩
      next hne => exact ⟨lt_of_le_of_ne hle hne, hleast, hfull⟩
    split
    next => exact trivial
    next => exact hbits

/-- The double nearest to a decimal can be stored. -/
theorem stored_ofDecimal {d : Decimal} {x : Double} (h : ofDecimal d = .ok x) : x.Stored := by
  cases d with
  | infinite =>
    cases h
    exact trivial
  | nan negative signaling =>
    cases signaling with
    | true => cases h
    | false =>
      cases h
      exact trivial
  | finite negative c e =>
    cases h
    unfold ofFinite
    dsimp only
    split_ifs
    · exact hasBits_zero
    · exact trivial
    · exact stored_ofRatio negative _ (pow10_pos _)

theorem stored_ofInt {n : ℤ} {x : Double} (h : ofInt n = .ok x) : x.Stored := by
  have hratio := stored_ofRatio (decide (n < 0)) n.natAbs one_pos
  unfold ofInt at h
  split at h
  next => cases h
  next =>
    cases h
    exact hratio

theorem stored_add {x y : Double} : (x.add y).Stored := by
  cases x <;> cases y <;> unfold add
  case finite.finite => exact stored_ofRatio _ _ (pow2_pos _)
  case infinite.infinite =>
    dsimp only
    split <;> exact trivial
  all_goals exact trivial

end Double

end RowRecipe
