import RowRecipe.Proofs.Number.Order
import RowRecipe.Proofs.Number.Positional
import RowRecipe.Proofs.Number.Quotient
import RowRecipe.Proofs.Unit.Literal

/-!
# Display of amounts

A computed amount is written in the first unit of the ladder in which sixty digits of the quotient give the amount
back, or in the canonical unit with all its digits, and the literal is read again. What is read is the number that was
written, and its amount is the computed one, rounded half to even to sixty digits. The quotient of a size is exact;
that of a time can be rounded and still give its amount back.
-/

namespace RowRecipe

open Decimal (magnitude rounded nearest HasDigits)

/-! ## Literals that show a number -/

namespace Decimal

theorem Shows.normalize {d : Decimal} {negative : Bool} {x : ℚ} (h : d.Shows negative x) :
    d.normalize.Shows negative x := by
  obtain ⟨c, e, rfl, rfl⟩ := h
  unfold Decimal.normalize
  dsimp only
  split
  next hc => exact ⟨0, 0, rfl, by rw [hc, magnitude_zero, magnitude_zero]⟩
  next => exact ⟨_, _, rfl, by rw [← magnitude_mul_pow10, Nat.mul_comm, Nat.mul_comm, dropZeros_mul_pow]⟩

end Decimal

namespace Quantity

variable {kind : UnitKind} {unit : String} {f : UnitFactor} {n : Nat}

/-- A whole number in front of letters is a written quantity. -/
theorem exists_written_whole (m : Nat) {letters : List Char} (hne : letters ≠ [])
    (hletters : ∀ ch ∈ letters, Text.isUnitLetter ch = true) : ∃ w : Written,
      (toString m).toList ++ letters = w.text ∧ w.unit = letters ∧ w.negative = false ∧
        w.magnitude = magnitude m 0 := by
  refine ⟨{ sign? := none, whole := Nat.toDigits 10 m, fraction? := none, blanks := [], unit := letters
            sign_mem := by simp, whole_ne := Nat.toDigits_ne_nil
            whole_digits := fun ch hch => Text.isDigit_of_isDigit (Text.isDigit_of_mem_toDigits hch)
            fraction_ne := by simp, fraction_digits := by simp, blanks_blank := by simp
            unit_ne := hne, unit_letters := hletters }, ?_, rfl, rfl, ?_⟩
  · simp [Written.text, Written.number]
  · simp [Written.magnitude, Written.coefficient, Written.places, Text.digitsValue_toDigits]

/-- The positional text of a number in front of letters is a written quantity. -/
theorem exists_written (c : Nat) (e : Int) {letters : List Char} (hne : letters ≠ [])
    (hletters : ∀ ch ∈ letters, Text.isUnitLetter ch = true) : ∃ w : Written,
      (Decimal.finite false c e).positionalText.toList ++ letters = w.text ∧ w.unit = letters ∧ w.negative = false ∧
        w.magnitude = magnitude c e := by
  simp only [Decimal.positionalText, Bool.false_eq_true, if_false, String.empty_append]
  rcases lt_trichotomy e 0 with hneg | rfl | hpos
  · obtain ⟨places, hplaces, rfl⟩ : ∃ places : Nat, 0 < places ∧ e = -(places : Int) :=
      ⟨(-e).toNat, by omega, by omega⟩
    obtain ⟨whole, fraction, htext, hwhole, hlength, hdigits, hvalue⟩ := Decimal.exists_pointed c hplaces
    have hdigit : ∀ ch ∈ whole ++ fraction, Text.isDigit ch = true :=
      fun ch hch => Text.isDigit_of_isDigit (hdigits ch hch)
    refine ⟨{ sign? := none, whole, fraction? := some fraction, blanks := [], unit := letters
              sign_mem := by simp, whole_ne := hwhole
              whole_digits := fun ch hch => hdigit ch (List.mem_append_left _ hch)
              fraction_ne := by
                rintro ds ⟨⟩
                exact List.ne_nil_of_length_pos (hlength ▸ hplaces)
              fraction_digits := by
                rintro ds ⟨⟩ ch hch
                exact hdigit ch (List.mem_append_right _ hch)
              blanks_blank := by simp, unit_ne := hne, unit_letters := hletters }, ?_, rfl, rfl, ?_⟩
    · rw [if_pos hneg.le, neg_neg, Int.toNat_natCast, htext]
      simp [Written.text, Written.number]
    · simp [Written.magnitude, Written.coefficient, Written.places, hvalue, hlength]
  · simpa [Decimal.pointed] using exists_written_whole c hne hletters
  · obtain ⟨k, rfl⟩ := Int.eq_ofNat_of_zero_le hpos.le
    obtain ⟨w, htext, hunit, hsign, hvalue⟩ := exists_written_whole (c * pow10 k) hne hletters
    refine ⟨w, ?_, hunit, hsign, ?_⟩
    · rw [← htext, if_neg (not_le.mpr hpos), Int.toNat_natCast]
    · rw [hvalue, Decimal.magnitude_mul_pow10, zero_add]

/-- A written quantity has no blanks at its ends. -/
theorem Written.trimmed_text (w : Written) : Text.trimmed (String.ofList w.text) = String.ofList w.text := by
  have notBlank : ∀ {ch : Char}, Text.isDigit ch = true → Text.isBlank ch = false := by
    intro ch hdigit
    by_contra hblank
    rw [Text.not_isDigit_of_isBlank (by simpa using hblank)] at hdigit
    cases hdigit
  have hlast : ∀ ch ∈ w.text.getLast?, Text.isBlank ch = false := by
    have hlast : w.text.getLast? = w.unit.getLast? := by
      rw [text, ← List.append_assoc, ← List.append_assoc, List.getLast?_append_of_ne_nil _ w.unit_ne]
    intro ch hch
    rw [hlast] at hch
    exact Text.not_isBlank_of_isUnitLetter (w.unit_letters ch (List.mem_of_mem_getLast? hch))
  obtain ⟨d, ds, hwhole⟩ := List.exists_cons_of_ne_nil w.whole_ne
  obtain ⟨rest, hnumber⟩ : ∃ rest, w.number = d :: rest := by
    unfold number
    cases w.fraction? <;> simp [hwhole]
  cases hsign : w.sign? with
  | none =>
    have htext : w.text = d :: (rest ++ (w.blanks ++ w.unit)) := by simp [text, hsign, hnumber]
    rw [htext] at hlast ⊢
    exact Text.trimmed_of_ends (notBlank (w.whole_digits d (by simp [hwhole]))) hlast
  | some ch =>
    have htext : w.text = ch :: (w.number ++ (w.blanks ++ w.unit)) := by simp [text, hsign]
    rw [htext] at hlast ⊢
    refine Text.trimmed_of_ends ?_ hlast
    rcases w.sign_mem ch hsign with rfl | rfl <;> decide

/-- The quantity was read from a literal that shows the number `x` in front of a unit. -/
structure Displays (q : Quantity) (kind : UnitKind) (unit : String) (f : UnitFactor) (x : ℚ) : Prop where
  kind_eq : q.kind = kind
  unit_eq : q.unit = unit
  numeric : q.numeric.Shows false x
  canonical : (q.canonical : Int) = ⌊rounded precision (x * f.value) + 1 / 2⌋
  /-- The literal reads as the quantity itself. -/
  reads : ofText kind q.literal = .ok q

/-- A unit that can stand behind numbers in literals. -/
structure Readable (kind : UnitKind) (unit : String) (f : UnitFactor) : Prop where
  factor : kind.factor? unit = some f
  letters_ne : unit.toList ≠ []
  letters : ∀ ch ∈ unit.toList, Text.isUnitLetter ch = true

theorem displays_of_spells {text : String} {w : Written} (h : Spells kind text w f) (hsign : w.negative = false)
    (htrimmed : Text.trimmed text = text) : ∃ q, ofText kind text = .ok q ∧
      q.Displays kind (String.ofList w.unit) f w.magnitude := by
  have hread := ofText_of_spells h
  generalize hq : ({ kind, literal := Text.trimmed text, numeric := w.numeric, unit := String.ofList w.unit
                     canonical := scaled w.coefficient (-(w.places : Int)) f } : Quantity) = q at hread
  refine ⟨q, hread, ?_, ?_, ?_, ?_, ?_⟩
  · rw [← hq]
  · rw [← hq]
  · rw [← hq]
    exact ⟨_, _, by rw [Written.numeric, hsign], rfl⟩
  · rw [← hq]
    exact scaled_eq _ _ _
  · rw [← hread, ← hq, htrimmed]

/-- The positional text of a number in front of a unit reads as that number of units. -/
theorem ofText_positionalText (hunit : Readable kind unit f) (c : Nat) (e : Int) :
    ∃ q, ofText kind ((Decimal.finite false c e).positionalText ++ unit) = .ok q ∧
      q.Displays kind unit f (magnitude c e) := by
  obtain ⟨w, htext, hwunit, hsign, hvalue⟩ := exists_written c e hunit.letters_ne hunit.letters
  have hlist : (Decimal.finite false c e).positionalText ++ unit = String.ofList w.text := by
    rw [← String.toList_inj, String.toList_append, htext, String.toList_ofList]
  have hspells : Spells kind (String.ofList w.text) w f := by
    refine ⟨?_, ?_, by simp [hsign]⟩
    · simpa [Text.trimmed] using congrArg String.toList w.trimmed_text
    · refine (UnitKind.factor?_eq_some_iff w.unit_letters).mp ?_
      rw [hwunit, String.ofList_toList]
      exact hunit.factor
  have hread := displays_of_spells hspells hsign w.trimmed_text
  rwa [hwunit, String.ofList_toList, hvalue, ← hlist] at hread

/-- A whole number is written with all its digits. -/
theorem ofText_whole (hunit : Readable kind unit f) (n : Nat) :
    ∃ q, ofText kind (toString n ++ unit) = .ok q ∧ q.Displays kind unit f n := by
  obtain ⟨q, hq, hdisplays⟩ := ofText_positionalText hunit n 0
  have htext : (Decimal.finite false n 0).positionalText = toString n := by
    simp [Decimal.positionalText, Decimal.pointed]
  rw [htext] at hq
  rw [show magnitude n 0 = n by simp [magnitude]] at hdisplays
  exact ⟨q, hq, hdisplays⟩

/-! ## The choice of a unit -/

theorem holds_iff : holds n f = true ↔ f.value ≤ n := by
  have hpos : (0 : ℚ) < (pow10 (-f.exponent).toNat : Nat) := by exact_mod_cast pow10_pos _
  unfold holds UnitFactor.value
  rw [decide_eq_true_eq, Decimal.magnitude_eq_div, div_le_iff₀ hpos]
  norm_cast

theorem one_le_value_iff : 1 ≤ f.value ↔ pow10 (-f.exponent).toNat ≤ f.coefficient * pow10 f.exponent.toNat := by
  have hpos : (0 : ℚ) < (pow10 (-f.exponent).toNat : Nat) := by exact_mod_cast pow10_pos _
  unfold UnitFactor.value
  rw [Decimal.magnitude_eq_div, le_div_iff₀ hpos, one_mul, Nat.cast_le]

/-- The quotient is rounded, and its product with the factor is rounded again before the comparison. -/
theorem exactIn?_ok {found? : Option Decimal} (hf : 0 < f.coefficient) (h : exactIn? n f = .ok found?) :
    ∃ d, d.Shows false (nearest precision (n / f.value)) ∧
      found? = if nearest precision (nearest precision (n / f.value) * f.value) = n then some d else none := by
  have hnat : magnitude n 0 = n := by simp [magnitude]
  unfold exactIn? at h
  obtain ⟨q, hdiv, h⟩ := bind_eq_ok_iff.mp h
  obtain ⟨back, hmul, h⟩ := bind_eq_ok_iff.mp h
  obtain ⟨c, e, rfl, hvalue⟩ := Decimal.shows_of_div precision_pos hf hdiv
  obtain ⟨c', e', rfl, hback⟩ := Decimal.shows_of_mul precision_pos hmul
  rw [hnat] at hvalue
  rw [hvalue] at hback
  cases h
  refine ⟨_, Decimal.Shows.normalize ⟨c, e, rfl, hvalue⟩, ?_⟩
  have hcompare : (Decimal.finite ((false != false) != false) c' e').compare? (.ofNat n 0) = some .eq ↔
      nearest precision (nearest precision (n / f.value) * f.value) = n := by
    rw [Decimal.ofNat, Decimal.compare?_finite, Option.some.injEq, cmp_eq_eq_iff]
    simp only [Decimal.signedMagnitude, bne_self_eq_false, Bool.false_eq_true, if_false, hnat]
    rw [hback]
    rfl
  simp only [hcompare]
  rfl

/-- The unit can show the amount: it is not larger than the amount, or it is the one that is always tried, and sixty
digits of the quotient give the amount back. -/
def Displayable (kind : UnitKind) (n : Nat) (unit : String) (f : UnitFactor) : Prop :=
  (f.value ≤ n ∨ unit = kind.canonicalUnit) ∧ rounded precision (rounded precision (n / f.value) * f.value) = n

/-- An amount that some unit gives back has no more than sixty digits. -/
theorem Displayable.hasDigits (h : Displayable kind n unit f) : HasDigits precision n := by
  have hquot : 0 ≤ rounded precision (n / f.value) :=
    Decimal.rounded_nonneg (div_nonneg (Nat.cast_nonneg n) f.value_nonneg)
  rw [← h.2]
  exact Decimal.hasDigits_rounded precision_pos (mul_nonneg hquot f.value_nonneg)

/-- The units of the ladder stand behind numbers in literals and are no parts of the canonical unit. -/
theorem exists_readable (h : unit ∈ kind.displayUnits) : ∃ f, Readable kind unit f ∧ 1 ≤ f.value := by
  have rungs : ∀ kind : UnitKind, (kind.displayUnits.all fun unit =>
      (kind.factor? unit).any (fun f => decide (pow10 (-f.exponent).toNat ≤ f.coefficient * pow10 f.exponent.toNat)) &&
        (!unit.toList.isEmpty && unit.toList.all Text.isUnitLetter)) = true := by
    intro kind
    cases kind <;> decide +kernel
  have hrung := List.all_eq_true.mp (rungs kind) unit h
  rw [Bool.and_eq_true, Bool.and_eq_true] at hrung
  obtain ⟨hfactor, hne, hletters⟩ := hrung
  cases hf : kind.factor? unit with
  | none => simp [hf] at hfactor
  | some f =>
    rw [hf] at hfactor
    exact ⟨f, ⟨hf, by simpa using hne, List.all_eq_true.mp hletters⟩, one_le_value_iff.mpr (of_decide_eq_true hfactor)⟩

theorem factor?_canonicalUnit (kind : UnitKind) : kind.factor? kind.canonicalUnit = some ⟨1, 0⟩ := by
  cases kind <;> decide +kernel

theorem canonicalUnit_mem (kind : UnitKind) : kind.canonicalUnit ∈ kind.displayUnits := by
  cases kind <;> decide

/-- The canonical unit stands behind whole amounts. -/
theorem readable_canonicalUnit (kind : UnitKind) : Readable kind kind.canonicalUnit ⟨1, 0⟩ := by
  obtain ⟨f, hf, -⟩ := exists_readable (canonicalUnit_mem kind)
  obtain rfl : f = ⟨1, 0⟩ := Option.some.inj (hf.factor.symm.trans (factor?_canonicalUnit kind))
  exact hf

theorem value_canonical : (⟨1, 0⟩ : UnitFactor).value = 1 := by
  simp [UnitFactor.value, magnitude]

/-- A unit of the ladder that is tried for an amount other than zero is not larger than it. -/
theorem value_le_of_tried (hf : kind.factor? unit = some f) (hn : 0 < n)
    (h : f.value ≤ n ∨ unit = kind.canonicalUnit) : f.value ≤ n := by
  rcases h with hle | rfl
  · exact hle
  · rw [factor?_canonicalUnit] at hf
    cases hf
    rw [value_canonical]
    exact_mod_cast hn

/-- What one step down the ladder finds. -/
theorem displayedIn?_ok {text? : Option String} (hf : kind.factor? unit = some f) (hone : 1 ≤ f.value)
    (h : displayedIn? kind n unit = .ok text?) :
    (text? = none ∧ ¬Displayable kind n unit f) ∨
      (Displayable kind n unit f ∧ ∃ c e, text? = some ((Decimal.finite false c e).positionalText ++ unit) ∧
        magnitude c e = rounded precision (n / f.value)) := by
  unfold displayedIn? at h
  simp only [hf, Bool.or_eq_true, holds_iff, beq_iff_eq] at h
  split at h
  next htried =>
    have hpos : 0 < f.value := by linarith
    -- Neither the quotient nor its product is a fraction of one, so no digit is beyond the places of decimals.
    have hquot : nearest precision (n / f.value) = rounded precision (n / f.value) ∧
        nearest precision (rounded precision (n / f.value) * f.value) =
          rounded precision (rounded precision (n / f.value) * f.value) := by
      rcases Nat.eq_zero_or_pos n with rfl | hn
      · simp
      · have hge : (10 : ℚ) ^ (0 : ℤ) ≤ n / f.value := (one_le_div hpos).mpr (value_le_of_tried hf hn htried)
        have hrounded := Decimal.zpow_le_rounded precision_pos hge
        have hproduct : (10 : ℚ) ^ (0 : ℤ) ≤ rounded precision (n / f.value) * f.value :=
          one_le_mul_of_one_le_of_one_le hrounded hone
        exact ⟨Decimal.nearest_eq_rounded_of_zpow_le (by decide) hge,
          Decimal.nearest_eq_rounded_of_zpow_le (by decide) hproduct⟩
    obtain ⟨found?, hexact, h⟩ := bind_eq_ok_iff.mp h
    cases h
    obtain ⟨d, ⟨c, e, rfl, hvalue⟩, rfl⟩ := exactIn?_ok (UnitKind.usable_of_factor? hf).1 hexact
    rw [hquot.1] at hvalue
    rw [hquot.1, hquot.2]
    split
    next hgives => exact .inr ⟨⟨htried, hgives⟩, c, e, rfl, hvalue⟩
    next hfails => exact .inl ⟨rfl, fun hd => hfails hd.2⟩
  next htried =>
    cases h
    exact .inl ⟨rfl, fun hd => htried hd.1⟩

section Search

variable {α β ε : Type} {find : α → Except ε (Option β)} {as : List α}

theorem findSomeM?_eq_some {b : β} (h : as.findSomeM? find = .ok (some b)) : ∃ pre a post, as = pre ++ a :: post ∧
    (∀ x ∈ pre, find x = .ok none) ∧ find a = .ok (some b) := by
  induction as with
  | nil => cases h
  | cons a as ih =>
    rw [List.findSomeM?_cons] at h
    cases ha : find a with
    | error e =>
      rw [ha] at h
      cases h
    | ok found? =>
      rw [ha] at h
      cases found? with
      | some c =>
        cases h
        exact ⟨[], a, as, rfl, by simp, ha⟩
      | none =>
        obtain ⟨pre, x, post, rfl, hpre, hx⟩ := ih h
        exact ⟨a :: pre, x, post, rfl, by simpa [ha] using hpre, hx⟩

theorem exists_findSomeM? (h : ∀ a ∈ as, ∃ found?, find a = .ok found?) :
    ∃ found?, as.findSomeM? find = .ok found? := by
  induction as with
  | nil => exact ⟨none, rfl⟩
  | cons a as ih =>
    rw [List.forall_mem_cons] at h
    obtain ⟨found?, ha⟩ := h.1
    rw [List.findSomeM?_cons, ha]
    cases found? with
    | some b => exact ⟨some b, rfl⟩
    | none => exact ih h.2

theorem findSomeM?_eq_none (h : as.findSomeM? find = .ok none) : ∀ x ∈ as, find x = .ok none := by
  induction as with
  | nil => simp
  | cons a as ih =>
    rw [List.findSomeM?_cons] at h
    cases ha : find a with
    | error e =>
      rw [ha] at h
      cases h
    | ok found? =>
      rw [ha] at h
      cases found? with
      | some c => cases h
      | none => simpa [ha] using ih h

end Search

/-- How an amount is displayed: in the first unit of the ladder that can show it, else with all its digits. -/
inductive DisplayedAs (kind : UnitKind) (n : Nat) (q : Quantity) : Prop
  | rung {pre post : List String} {unit : String} {f : UnitFactor} (ladder : kind.displayUnits = pre ++ unit :: post)
      (factor : kind.factor? unit = some f) (displayable : Displayable kind n unit f)
      (displays : q.Displays kind unit f (rounded precision (n / f.value)))
      (first : ∀ u ∈ pre, ∀ g, kind.factor? u = some g → ¬Displayable kind n u g)
  | digits (long : ¬HasDigits precision n) (displays : q.Displays kind kind.canonicalUnit ⟨1, 0⟩ n)

theorem ofCanonical_eq_ok_iff {q : Quantity} : ofCanonical kind (n : Int) = .ok q ↔
    ∃ found?, kind.displayUnits.findSomeM? (displayedIn? kind n) = .ok found? ∧
      ofText kind (found?.getD (toString n ++ kind.canonicalUnit)) = .ok q := by
  unfold ofCanonical displayText
  rw [if_neg (by omega), Int.toNat_natCast]
  cases kind.displayUnits.findSomeM? (displayedIn? kind n) with
  | error e => simp [bind, Except.bind]
  | ok found? =>
    simp only [Except.ok.injEq, exists_eq_left']
    exact mapError_eq_ok_iff

/-- Whatever the search finds is a literal that reads. -/
theorem exists_displayedAs {found? : Option String}
    (hsearch : kind.displayUnits.findSomeM? (displayedIn? kind n) = .ok found?) :
    ∃ q, ofText kind (found?.getD (toString n ++ kind.canonicalUnit)) = .ok q ∧ DisplayedAs kind n q := by
  have undisplayable : ∀ u ∈ kind.displayUnits, displayedIn? kind n u = .ok none →
      ∀ g, kind.factor? u = some g → ¬Displayable kind n u g := by
    intro u hu hnone g hg
    obtain ⟨f, hf, hone⟩ := exists_readable hu
    rw [hf.factor] at hg
    cases hg
    rcases displayedIn?_ok hf.factor hone hnone with ⟨-, hnot⟩ | ⟨-, c, e, hsome, -⟩
    · exact hnot
    · cases hsome
  cases found? with
  | some text =>
    obtain ⟨pre, unit, post, hladder, hpre, hunit⟩ := findSomeM?_eq_some hsearch
    obtain ⟨f, hf, hone⟩ := exists_readable (show unit ∈ kind.displayUnits by simp [hladder])
    rcases displayedIn?_ok hf.factor hone hunit with ⟨hnone, -⟩ | ⟨hdisplayable, c, e, hsome, hvalue⟩
    · cases hnone
    · cases hsome
      obtain ⟨q, hq, hdisplays⟩ := ofText_positionalText hf c e
      rw [hvalue] at hdisplays
      refine ⟨q, hq, .rung hladder hf.factor hdisplayable hdisplays fun u hu => undisplayable u ?_ (hpre u hu)⟩
      simp [hladder, hu]
  | none =>
    have hnone := findSomeM?_eq_none hsearch _ (canonicalUnit_mem kind)
    obtain ⟨q, hq, hdisplays⟩ := ofText_whole (readable_canonicalUnit kind) n
    refine ⟨q, hq, .digits (fun hdigits => ?_) hdisplays⟩
    have hrounded := Decimal.rounded_of_hasDigits precision_pos hdigits
    refine undisplayable _ (canonicalUnit_mem kind) hnone _ (factor?_canonicalUnit kind) ⟨.inr rfl, ?_⟩
    rw [value_canonical, div_one, mul_one, hrounded, hrounded]

theorem displayedAs_of_ofCanonical {q : Quantity} (h : ofCanonical kind (n : Int) = .ok q) : DisplayedAs kind n q := by
  obtain ⟨found?, hsearch, hread⟩ := ofCanonical_eq_ok_iff.mp h
  obtain ⟨r, hr, hdisplayed⟩ := exists_displayedAs hsearch
  rw [hread] at hr
  cases hr
  exact hdisplayed

/-! ## Every amount of a moderate length can be displayed -/

theorem exists_exactIn? (hf : kind.factor? unit = some f) (hn : Convertible n) :
    ∃ found?, exactIn? n f = .ok found? := by
  obtain ⟨hcoeff, hexp⟩ := UnitKind.usable_of_factor? hf
  obtain ⟨hexp', hlt⟩ := UnitKind.factor_lt_of_factor? hf
  have hdigits := digitCount_le (by decide) hlt
  have hpos := digitCount_pos f.coefficient
  unfold Convertible at hn
  obtain ⟨c, e, hdiv, hplace⟩ := Decimal.div_of_place_lt precision_pos false false hcoeff
      (c := n) (e := 0) (f := f.exponent) <| by
    unfold Decimal.greatestPlace
    omega
  obtain ⟨c', e', hmul, -⟩ := Decimal.fitted_of_place_lt precision_pos ((false != false) != false)
      (c := c * f.coefficient) (e := e + f.exponent) <| by
    refine hplace.imp (fun hzero => by rw [hzero, Nat.zero_mul]) fun hle => ?_
    have hproduct := digitCount_mul_le c f.coefficient
    unfold Decimal.place Decimal.leastPlace Decimal.greatestPlace at *
    omega
  have hmul : Decimal.mul precision (.finite (false != false) c e) f.toDecimal =
      .ok (.finite ((false != false) != false) c' e') := hmul
  have hdiv : Decimal.div precision (.ofNat n 0) f.toDecimal = .ok (.finite (false != false) c e) := hdiv
  unfold exactIn?
  rw [hdiv]
  simp only [bind, Except.bind, hmul]
  exact ⟨_, rfl⟩

theorem exists_displayedIn? (hunit : unit ∈ kind.displayUnits) (hn : Convertible n) :
    ∃ text?, displayedIn? kind n unit = .ok text? := by
  obtain ⟨f, hf, -⟩ := exists_readable hunit
  obtain ⟨found?, hfound⟩ := exists_exactIn? hf.factor hn
  unfold displayedIn?
  simp only [hf.factor]
  split
  next =>
    rw [hfound]
    exact ⟨_, rfl⟩
  next => exact ⟨_, rfl⟩

theorem exists_ofCanonical (kind : UnitKind) (hn : Convertible n) : ∃ q, ofCanonical kind (n : Int) = .ok q := by
  have hsteps : ∀ unit ∈ kind.displayUnits, ∃ text?, displayedIn? kind n unit = .ok text? :=
    fun unit hunit => exists_displayedIn? hunit hn
  obtain ⟨found?, hsearch⟩ := exists_findSomeM? hsteps
  obtain ⟨q, hq, -⟩ := exists_displayedAs hsearch
  exact ⟨q, ofCanonical_eq_ok_iff.mpr ⟨found?, hsearch, hq⟩⟩

/-! ## The amount that is read back -/

theorem floor_natCast_add_half (k : Nat) : ⌊(k : ℚ) + 1 / 2⌋ = k := by
  rw [Int.floor_natCast_add]
  norm_num

/-- A whole number of canonical units amounts to that number, rounded to sixty digits. -/
theorem Displays.canonical_eq_rounded {q : Quantity} (h : q.Displays kind unit ⟨1, 0⟩ n) :
    (q.canonical : ℚ) = rounded precision n := by
  obtain ⟨m, hm⟩ : ∃ m : Nat, rounded precision n = m := ⟨_, Decimal.rounded_natCast precision_pos n⟩
  have hcanonical := h.canonical
  rw [value_canonical, mul_one, hm, floor_natCast_add_half, Nat.cast_inj] at hcanonical
  rw [hcanonical, hm]

/-- The amount of a computed quantity is the given one, rounded to sixty digits. -/
theorem canonical_of_ofCanonical {q : Quantity} (h : ofCanonical kind (n : Int) = .ok q) :
    (q.canonical : ℚ) = rounded precision n := by
  cases displayedAs_of_ofCanonical h with
  | rung ladder factor displayable displays first =>
    have hcanonical := displays.canonical
    rw [displayable.2, floor_natCast_add_half, Nat.cast_inj] at hcanonical
    rw [hcanonical, Decimal.rounded_of_hasDigits precision_pos displayable.hasDigits]
  | digits long displays => exact displays.canonical_eq_rounded

/-- A literal of canonical units reads as its number, if sixty digits are enough for it. -/
theorem exists_ofText_whole (kind : UnitKind) (h : HasDigits precision n) :
    ∃ q, ofText kind (toString n ++ kind.canonicalUnit) = .ok q ∧ q.canonical = n := by
  obtain ⟨q, hq, hdisplays⟩ := ofText_whole (readable_canonicalUnit kind) n
  have hcanonical := hdisplays.canonical_eq_rounded
  rw [Decimal.rounded_of_hasDigits precision_pos h, Nat.cast_inj] at hcanonical
  exact ⟨q, hq, hcanonical⟩

end Quantity

end RowRecipe
