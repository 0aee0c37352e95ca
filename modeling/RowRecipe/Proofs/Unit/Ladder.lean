import RowRecipe.Proofs.Unit.Display

/-!
# The unit of a computed quantity

A computed amount of at most sixty digits is shown in the first unit of the ladder in which the rounded quotient gives
the amount back. Every unit in which the quotient ends within sixty digits is one of them, so none that could show the
amount exactly is passed over. The converse fails for times: a rounded quotient can give the amount back although the
exact one does not end, and then the number shown is off by a part of 10⁻⁵⁹ of it at most.
-/

namespace RowRecipe.Quantity

open Decimal (HasDigits rounded)

variable {kind : UnitKind} {unit : String} {f : UnitFactor} {n : Nat} {q : Quantity}

/-- A quantity that shows the amount exactly, in a unit of the ladder before which no unit that is not larger than the
amount has a quotient that ends within sixty digits. -/
def LargestExact (q : Quantity) (kind : UnitKind) (n : Nat) : Prop :=
  ∃ pre post f x, kind.displayUnits = pre ++ q.unit :: post ∧ kind.factor? q.unit = some f ∧ q.numeric.Shows false x ∧
    x * f.value = n ∧ ∀ u ∈ pre, ∀ g, kind.factor? u = some g → g.value ≤ n → ¬HasDigits precision (n / g.value)

/-- A hundred seconds are shown as a number of minutes, which they are not: the quotient does not end. -/
theorem shows_minutes_inexactly : 100000 < pow10 60 ∧
    ∃ q, ofCanonical .time 100000 = .ok q ∧ q.unit = "m" ∧ ¬q.LargestExact .time 100000 := by
  obtain ⟨q, hq, hparts⟩ := exists_eq_ok_of_toOption (ofCanonical .time 100000) (fun q => (q.unit, q.numeric))
    (b := ("m", .finite false 166666666666666666666666666666666666666666666666666666666667 (-59))) (by decide +kernel)
  obtain ⟨hunit, hnumeric⟩ := Prod.mk.inj hparts
  refine ⟨by decide +kernel, q, hq, hunit, ?_⟩
  rintro ⟨pre, post, f, x, -, hfactor, ⟨c, e, hshown, rfl⟩, hexact, -⟩
  have hminute : UnitKind.factor? .time "m" = some ⟨60000, 0⟩ := by decide +kernel
  rw [hunit, hminute] at hfactor
  cases hfactor
  rw [hnumeric] at hshown
  cases hshown
  norm_num [Decimal.magnitude, UnitFactor.value] at hexact

/-! ## What the ladder does -/

/-- A quotient that ends within sixty digits gives the amount back. -/
theorem displayable_of_hasDigits (hf : 0 < f.value) (htried : f.value ≤ n ∨ unit = kind.canonicalUnit)
    (hn : HasDigits precision n) (h : HasDigits precision (n / f.value)) : Displayable kind n unit f := by
  refine ⟨htried, ?_⟩
  rw [Decimal.rounded_of_hasDigits precision_pos h, div_mul_cancel₀ _ hf.ne',
    Decimal.rounded_of_hasDigits precision_pos hn]

/-- The factors of the ladder of sizes are powers of ten. -/
theorem exists_pow10_of_mem (h : unit ∈ UnitKind.size.displayUnits) :
    ∃ k, UnitKind.size.factor? unit = some ⟨pow10 k, 0⟩ := by
  have powers : ∀ unit ∈ UnitKind.size.displayUnits,
      ((List.range 25).any fun k => UnitKind.size.factor? unit == some ⟨pow10 k, 0⟩) = true := by
    decide +kernel
  obtain ⟨k, -, hk⟩ := List.any_eq_true.mp (powers unit h)
  exact ⟨k, beq_iff_eq.mp hk⟩

theorem hasDigits_div_pow10 (hn : n < pow10 precision) (k : Nat) :
    HasDigits precision (n / UnitFactor.value ⟨pow10 k, 0⟩) := by
  refine ⟨n, -(k : Int), hn, ?_⟩
  rw [Decimal.magnitude_neg, UnitFactor.value, Decimal.magnitude, zpow_zero, mul_one]

/-- How an amount of at most sixty digits is shown: as the number `x` in the unit of the factor, behind the units `pre`
of the ladder. -/
structure ShownAs (q : Quantity) (kind : UnitKind) (n : Nat) (pre post : List String) (f : UnitFactor) (x : ℚ) :
    Prop where
  canonical : q.canonical = n
  ladder : kind.displayUnits = pre ++ q.unit :: post
  factor : kind.factor? q.unit = some f
  fits : f.value ≤ n ∨ q.unit = kind.canonicalUnit
  numeric : q.numeric.Shows false x
  quotient : x = rounded precision (n / f.value)
  givesBack : rounded precision (x * f.value) = n
  exact_iff : x * f.value = n ↔ HasDigits precision (n / f.value)
  size : kind = .size → x * f.value = n
  error_le : |x * f.value - n| ≤ n * (10 ^ (1 - precision : ℤ) / 2)
  /-- The units that are passed over neither show the amount exactly nor give it back. -/
  first : ∀ u ∈ pre, ∀ g, kind.factor? u = some g → g.value ≤ n →
    ¬HasDigits precision (n / g.value) ∧ rounded precision (rounded precision (n / g.value) * g.value) ≠ n

theorem shownAs_of_displayed {pre post : List String} (hn : n < pow10 precision)
    (hladder : kind.displayUnits = pre ++ unit :: post) (hfactor : kind.factor? unit = some f)
    (hdisplayable : Displayable kind n unit f) (hdisplays : q.Displays kind unit f (rounded precision (n / f.value)))
    (hfirst : ∀ u ∈ pre, ∀ g, kind.factor? u = some g → ¬Displayable kind n u g) (hcanonical : q.canonical = n) :
    q.ShownAs kind n pre post f (rounded precision (n / f.value)) := by
  obtain rfl := hdisplays.unit_eq
  have hpos := UnitKind.value_pos hfactor
  have hquot : 0 ≤ (n : ℚ) / f.value := div_nonneg (Nat.cast_nonneg n) hpos.le
  have hdigits : HasDigits precision (n : ℚ) := Decimal.hasDigits_natCast hn
  have hexact : rounded precision (n / f.value) * f.value = n ↔ HasDigits precision (n / f.value) := by
    rw [← eq_div_iff hpos.ne', Decimal.rounded_eq_self_iff precision_pos hquot]
  refine ⟨hcanonical, hladder, hfactor, hdisplayable.1, hdisplays.numeric, rfl, hdisplayable.2, hexact, ?_, ?_, ?_⟩
  · rintro rfl
    obtain ⟨k, hk⟩ := exists_pow10_of_mem (show q.unit ∈ UnitKind.size.displayUnits by simp [hladder])
    rw [hfactor] at hk
    cases hk
    exact hexact.mpr (hasDigits_div_pow10 hn k)
  · exact Decimal.abs_rounded_div_mul_sub_le (Nat.cast_nonneg n) hpos
  · intro u hu g hg hle
    have hposG := UnitKind.value_pos hg
    refine ⟨fun h => ?_, fun h => ?_⟩
    · exact hfirst u hu g hg (displayable_of_hasDigits hposG (.inl hle) hdigits h)
    · exact hfirst u hu g hg ⟨.inl hle, h⟩

/-- An amount of at most sixty digits is shown in the first unit of the ladder that gives it back, off by half of the
sixtieth digit at most, and exactly if the quotient ends within sixty digits, as all those of sizes do. No unit that
could show it exactly is passed over. -/
theorem shown_on_ladder (kind : UnitKind) {n : Nat} (hn : n < pow10 60) :
    ∃ q pre post f x, ofCanonical kind (n : Int) = .ok q ∧ q.ShownAs kind n pre post f x := by
  have hdigits : HasDigits precision (n : ℚ) := Decimal.hasDigits_natCast hn
  obtain ⟨q, hq⟩ := exists_ofCanonical kind (convertible_of_lt (by decide) (by decide) hn)
  have hcanonical := canonical_of_ofCanonical hq
  rw [Decimal.rounded_of_hasDigits precision_pos hdigits, Nat.cast_inj] at hcanonical
  cases displayedAs_of_ofCanonical hq with
  | rung ladder factor displayable displays first =>
    exact ⟨q, _, _, _, _, hq, shownAs_of_displayed hn ladder factor displayable displays first hcanonical⟩
  | digits long displays => exact absurd hdigits long

/-- A hundred seconds. -/
theorem shown_on_ladder_seconds :
    ∃ q pre post f x, ofCanonical .time 100000 = .ok q ∧ q.ShownAs .time 100000 pre post f x :=
  shown_on_ladder .time (n := 100000) (by decide +kernel)

end RowRecipe.Quantity
