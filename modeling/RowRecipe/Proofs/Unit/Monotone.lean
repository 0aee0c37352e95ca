import RowRecipe.Proofs.Number.Shortest
import RowRecipe.Proofs.Unit.Computed

/-!
# Scaling keeps the order

An amount goes through several roundings: a product is rounded to sixty digits and then to a whole number, and a
computed amount is divided, written, read and multiplied again. None of these steps turns an order around, so greater
numbers of one unit have amounts that are not smaller, and greater factors give products that are not smaller, of
whatever size. A factor that is a double counts as the number that its text shows. Between doubles this makes no
difference to the order, but a double and an integer may change places.
-/

namespace RowRecipe

open Decimal (magnitude rounded nearest)

namespace Quantity

variable {kind : UnitKind} {text text' : String} {w w' : Quantity.Written} {f : UnitFactor} {a b q r s : Quantity}
  {p p' : Value}

/-- Rounding to a whole number, a half going up, keeps the order. -/
theorem halfUp_mono {x y : ℚ} (h : x ≤ y) : ⌊x + 1 / 2⌋ ≤ ⌊y + 1 / 2⌋ :=
  Int.floor_mono (by linarith)

/-- The first of two quantities of one kind is not greater than the second. -/
def AtMost (a b : Quantity) : Prop :=
  a.compareValue? (.quantity b) = some .lt ∨ a.compareValue? (.quantity b) = some .eq

theorem atMost_iff : a.AtMost b ↔ b.kind = a.kind ∧ a.canonical ≤ b.canonical := by
  unfold AtMost compareValue?
  dsimp only
  split
  next hkind => simp [hkind, Nat.compare_eq_lt, Nat.le_iff_lt_or_eq]
  next hkind => simp [hkind]

/-! ## Literals -/

theorem Spells.numeric_value? (h : Spells kind text w f) : w.numeric.value? = some w.magnitude := by
  unfold Written.numeric Written.magnitude Decimal.value? Decimal.signedMagnitude
  dsimp only
  split
  next hnegative => rw [h.sign hnegative, Decimal.magnitude_zero, neg_zero]
  next => rfl

/-- The amount of a literal is in the order of its number. -/
theorem scaled_mono {c d : Nat} {e g : ℤ} (h : magnitude c e ≤ magnitude d g) (f : UnitFactor) :
    scaled c e f ≤ scaled d g f := by
  have hvalue := f.value_nonneg
  have hproduct : magnitude c e * f.value ≤ magnitude d g * f.value := mul_le_mul_of_nonneg_right h hvalue
  have hrounded := Decimal.rounded_le_rounded precision_pos
    (mul_nonneg (Decimal.magnitude_nonneg c e) hvalue) hproduct
  have hfloor := halfUp_mono hrounded
  rw [← scaled_eq, ← scaled_eq] at hfloor
  exact_mod_cast hfloor

theorem atMost_of_numeric (h : ofText kind text = .ok q) (h' : ofText kind text' = .ok r)
    (hunit : kind.factor? q.unit = kind.factor? r.unit) (hle : q.numeric.AtMost r.numeric) : q.AtMost r := by
  obtain ⟨w, f, hspells⟩ := exists_spells h
  obtain ⟨w', f', hspells'⟩ := exists_spells h'
  rw [ofText_of_spells hspells] at h
  rw [ofText_of_spells hspells'] at h'
  cases h
  cases h'
  obtain rfl : f = f' := by
    dsimp only at hunit
    rw [(UnitKind.factor?_eq_some_iff w.unit_letters).mpr hspells.unit,
      (UnitKind.factor?_eq_some_iff w'.unit_letters).mpr hspells'.unit] at hunit
    exact Option.some.inj hunit
  rw [Decimal.atMost_iff hspells.numeric_value? hspells'.numeric_value?] at hle
  exact atMost_iff.mpr ⟨rfl, scaled_mono hle f⟩

/-! ## Products -/

theorem steps_of_product? {factor : Decimal} {n : ℤ} (h : q.product? factor = .ok (some n)) :
    ∃ o d, factor.compareZero = .ok o ∧ o ≠ .lt ∧ Decimal.mul precision (.ofNat q.canonical 0) factor = .ok d ∧
      d.toIntHalfUp = .ok n := by
  unfold product? at h
  obtain ⟨o, ho, h⟩ := bind_eq_ok_iff.mp h
  split at h
  next => cases h
  next hsign =>
    obtain ⟨d, hd, h⟩ := bind_eq_ok_iff.mp h
    obtain ⟨k, hk, h⟩ := bind_eq_ok_iff.mp h
    cases h
    exact ⟨o, d, ho, by rintro rfl; exact hsign rfl, hd, hk⟩

/-- A product that is found is the rounded one of the amount and a factor that is a number and not below zero. -/
theorem exists_of_product? {factor : Decimal} {n : ℤ} (h : q.product? factor = .ok (some n)) :
    ∃ x, factor.value? = some x ∧ 0 ≤ x ∧ n = ⌊nearest precision (q.canonical * x) + 1 / 2⌋ := by
  obtain ⟨o, d, horder, hsign, hmul, hwhole⟩ := steps_of_product? h
  cases factor with
  | nan => cases horder
  | infinite negative =>
    unfold Decimal.mul Decimal.ofNat at hmul
    dsimp only at hmul
    split at hmul
    next => cases hmul
    next =>
      cases hmul
      cases hwhole
  | finite negative c e =>
    have hnonneg : 0 ≤ Decimal.signedMagnitude negative c e := by
      have hzero : Decimal.signedMagnitude false 0 0 = 0 := Decimal.magnitude_zero 0
      unfold Decimal.compareZero at horder
      rw [Decimal.compare?_finite, hzero] at horder
      cases horder
      exact not_lt.mp fun hlt => hsign ((cmp_eq_lt_iff _ _).mpr hlt)
    obtain ⟨c', e', rfl, hvalue⟩ := Decimal.shows_of_mul precision_pos hmul
    rw [show magnitude q.canonical 0 = q.canonical by simp [magnitude]] at hvalue
    have hfloor := Decimal.wholeHalfUp_eq_floor c' e'
    rw [hvalue] at hfloor
    cases hwhole
    refine ⟨_, rfl, hnonneg, ?_⟩
    cases negative with
    | false => exact hfloor
    | true =>
      -- A factor with a sign that is not below zero is zero, and so is its product.
      have hc : magnitude c e = 0 := by
        have hle : 0 ≤ -magnitude c e := hnonneg
        linarith [Decimal.magnitude_nonneg c e]
      have hwhole : Decimal.wholeHalfUp c' e' = 0 := by
        rw [hc, mul_zero, Decimal.nearest_zero] at hfloor
        norm_num at hfloor
        exact hfloor
      rw [hwhole, Decimal.signedMagnitude, if_pos rfl, hc, neg_zero, mul_zero, Decimal.nearest_zero]
      norm_num
      rfl

/-- The amount of a product, through all its roundings. -/
theorem canonical_of_multiply {factor : Decimal} (h : q.multiply factor = .ok r) :
    ∃ x, factor.value? = some x ∧ 0 ≤ x ∧ r.kind = q.kind ∧
      (r.canonical : ℚ) = rounded precision ⌊nearest precision (q.canonical * x) + 1 / 2⌋ := by
  unfold multiply at h
  split at h
  next n hproduct =>
    obtain ⟨x, hx, hnonneg, rfl⟩ := exists_of_product? hproduct
    have hnearest : 0 ≤ nearest precision (q.canonical * x) :=
      Decimal.nearest_nonneg (mul_nonneg (Nat.cast_nonneg _) hnonneg)
    obtain ⟨k, hk⟩ := Int.eq_ofNat_of_zero_le (Int.floor_nonneg.mpr (add_nonneg hnearest one_half_pos.le))
    rw [hk] at h
    refine ⟨x, hx, hnonneg, (computes_of_ofCanonical h).kind_eq, ?_⟩
    rw [hk, canonical_of_ofCanonical h, Int.cast_natCast]
  next => cases h
  next => cases h

theorem multiplyValue_eq_ok_iff : q.multiplyValue p = .ok r ↔ ∃ c, p.toDecimal = .ok c ∧ q.multiply c = .ok r := by
  unfold multiplyValue
  rw [bind_eq_ok_iff]
  simp only [mapError_eq_ok_iff]

/-- The first factor is not greater than the second: of two doubles as numbers, of any others as the decimals that
the amounts are multiplied by. -/
inductive FactorAtMost : Value → Value → Prop
  | doubles {c d : Double} (hc : c.Stored) (hd : d.Stored) (h : c.exact.AtMost d.exact) :
      FactorAtMost (.double c) (.double d)
  | decimals {p p' : Value} {c d : Decimal} (hp : p.toDecimal = .ok c) (hp' : p'.toDecimal = .ok d) (h : c.AtMost d) :
      FactorAtMost p p'

theorem FactorAtMost.value_le (h : FactorAtMost p p') {c d : Decimal} (hc : p.toDecimal = .ok c)
    (hd : p'.toDecimal = .ok d) {x y : ℚ} (hx : c.value? = some x) (hy : d.value? = some y) : x ≤ y := by
  cases h with
  | doubles hstored hstored' hle =>
    cases hc
    cases hd
    exact Double.value_toDecimal_le hstored hstored' hle hx hy
  | decimals hp hp' hle =>
    rw [hc] at hp
    rw [hd] at hp'
    cases hp
    cases hp'
    exact (Decimal.atMost_iff hx hy).mp hle

theorem atMost_of_multiplyValue (hab : a.AtMost b) (hp : FactorAtMost p p') (hr : a.multiplyValue p = .ok r)
    (hs : b.multiplyValue p' = .ok s) : r.AtMost s := by
  obtain ⟨hkind, hcanonical⟩ := atMost_iff.mp hab
  obtain ⟨c, hc, hr⟩ := multiplyValue_eq_ok_iff.mp hr
  obtain ⟨d, hd, hs⟩ := multiplyValue_eq_ok_iff.mp hs
  obtain ⟨x, hx, hnonneg, hrkind, hramount⟩ := canonical_of_multiply hr
  obtain ⟨y, hy, -, hskind, hsamount⟩ := canonical_of_multiply hs
  have hxy := hp.value_le hc hd hx hy
  have hcanonical' : (a.canonical : ℚ) ≤ b.canonical := by exact_mod_cast hcanonical
  have hproduct : 0 ≤ (a.canonical : ℚ) * x := mul_nonneg (Nat.cast_nonneg _) hnonneg
  have hle : (a.canonical : ℚ) * x ≤ b.canonical * y := mul_le_mul hcanonical' hxy hnonneg (Nat.cast_nonneg _)
  have hnearest := Decimal.nearest_le_nearest precision_pos hproduct hle
  have hwhole : (⌊nearest precision (a.canonical * x) + 1 / 2⌋ : ℚ) ≤ ⌊nearest precision (b.canonical * y) + 1 / 2⌋ :=
    Int.cast_mono (halfUp_mono hnearest)
  have hwholeNonneg : (0 : ℚ) ≤ ⌊nearest precision (a.canonical * x) + 1 / 2⌋ := by
    exact_mod_cast Int.floor_nonneg.mpr (add_nonneg (Decimal.nearest_nonneg hproduct) one_half_pos.le)
  refine atMost_iff.mpr ⟨by rw [hskind, hrkind, hkind], ?_⟩
  have hamount := Decimal.rounded_le_rounded precision_pos hwholeNonneg hwhole
  rw [← hramount, ← hsamount] at hamount
  exact_mod_cast hamount

/-- Greater numbers of one unit are quantities that are not smaller, and greater factors of greater quantities give
products that are not smaller, whatever is rounded on the way. -/
theorem scaling_mono (kind : UnitKind) :
    (∀ (text text' : String) (q r : Quantity), ofText kind text = .ok q → ofText kind text' = .ok r →
      kind.factor? q.unit = kind.factor? r.unit → q.numeric.AtMost r.numeric → q.AtMost r) ∧
      ∀ (a b r s : Quantity) (p p' : Value), a.kind = kind → a.AtMost b → FactorAtMost p p' →
        a.multiplyValue p = .ok r → b.multiplyValue p' = .ok s → r.AtMost s :=
  ⟨fun _ _ _ _ => atMost_of_numeric, fun _ _ _ _ _ _ _ => atMost_of_multiplyValue⟩

/-- Numbers of one unit, and a size times a double and times the next greater one. -/
theorem scaling_mono_sizes : Decimal.AtMost (.ofNat 1 0) (.ofNat 25 (-1)) ∧
    ∃ q r s t, ofText .size "1KiB" = .ok q ∧ ofText .size "2.5KiB" = .ok r ∧ q.AtMost r ∧
      q.multiplyValue (.double (.finite false (pow2 52) (-52))) = .ok s ∧
      r.multiplyValue (.double (.finite false (pow2 52 + 1) (-52))) = .ok t ∧ s.AtMost t := by
  obtain ⟨q, hq, hqparts⟩ := exists_eq_ok_of_toOption (ofText .size "1KiB") id
    (b := ⟨.size, "1KiB", .ofNat 1 0, "KiB", 1024⟩) (by decide +kernel)
  obtain ⟨r, hr, hrparts⟩ := exists_eq_ok_of_toOption (ofText .size "2.5KiB") id
    (b := ⟨.size, "2.5KiB", .ofNat 25 (-1), "KiB", 2560⟩) (by decide +kernel)
  rw [id] at hqparts hrparts
  subst hqparts hrparts
  obtain ⟨s, hs, -⟩ := exists_eq_ok_of_toOption
    (multiplyValue ⟨.size, "1KiB", .ofNat 1 0, "KiB", 1024⟩ (.double (.finite false (pow2 52) (-52)))) (·.canonical)
    (b := 1024) (by decide +kernel)
  obtain ⟨t, ht, -⟩ := exists_eq_ok_of_toOption
    (multiplyValue ⟨.size, "2.5KiB", .ofNat 25 (-1), "KiB", 2560⟩ (.double (.finite false (pow2 52 + 1) (-52))))
    (·.canonical) (b := 2560) (by decide +kernel)
  have hnumeric : Decimal.AtMost (.ofNat 1 0) (.ofNat 25 (-1)) := .inl (by decide +kernel)
  have hliterals := (scaling_mono .size).1 _ _ _ _ hq hr rfl hnumeric
  have hfactors :
      FactorAtMost (.double (.finite false (pow2 52) (-52))) (.double (.finite false (pow2 52 + 1) (-52))) :=
    .doubles ⟨by decide +kernel, by decide, .inl le_rfl⟩ ⟨by decide +kernel, by decide, .inl (Nat.le_succ _)⟩
      (.inl (by decide +kernel))
  exact ⟨hnumeric, _, _, s, t, hq, hr, hliterals, hs, ht,
    (scaling_mono .size).2 _ _ _ _ _ _ rfl hliterals hfactors hs ht⟩

/-- The double that is the integer 99999999999999991611392 shows as 10²³, and a byte times the double is more than a
byte times the integer. -/
theorem double_exceeds_integer : Double.Stored (.finite false 5960464477539062 24) ∧
    (Double.exact (.finite false 5960464477539062 24)).AtMost (.ofInt 99999999999999991611392) ∧
    ∃ q r s, ofText .size "1B" = .ok q ∧ q.multiplyValue (.double (.finite false 5960464477539062 24)) = .ok r ∧
      q.multiplyValue (.int 99999999999999991611392) = .ok s ∧ ¬r.AtMost s := by
  obtain ⟨q, hq, hqparts⟩ := exists_eq_ok_of_toOption (ofText .size "1B") id
    (b := ⟨.size, "1B", .ofNat 1 0, "B", 1⟩) (by decide +kernel)
  rw [id] at hqparts
  subst hqparts
  obtain ⟨r, hr, hramount⟩ := exists_eq_ok_of_toOption
    (multiplyValue ⟨.size, "1B", .ofNat 1 0, "B", 1⟩ (.double (.finite false 5960464477539062 24))) (·.canonical)
    (b := pow10 23) (by decide +kernel)
  obtain ⟨s, hs, hsamount⟩ := exists_eq_ok_of_toOption
    (multiplyValue ⟨.size, "1B", .ofNat 1 0, "B", 1⟩ (.int 99999999999999991611392)) (·.canonical)
    (b := 99999999999999991611392) (by decide +kernel)
  refine ⟨⟨by decide +kernel, by decide, .inl (by decide +kernel)⟩, .inr (by decide +kernel), _, r, s, hq, hr, hs, ?_⟩
  rw [atMost_iff, hramount, hsamount]
  rintro ⟨-, hle⟩
  exact absurd hle (by decide +kernel)

end Quantity

end RowRecipe
