import RowRecipe.Proofs.Grammar.Numbers
import RowRecipe.Proofs.Number.Rounding
import RowRecipe.Proofs.Unit.Conversion

/-!
# Literals of quantities

Which texts are quantities, and which quantities they are. Between blanks a literal is a sign that may be left out, a
number with digits of any script, blanks, and the letters of a unit that the kind knows. The amount is the number
times the factor of the unit, a half going up, wherever sixty digits are enough for the exact product.
-/

namespace RowRecipe

namespace Text

/-- A Latin letter, or the sign for a millionth. -/
def isUnitLetter (c : Char) : Bool :=
  isLatin c || c == 'µ'

theorem lt_of_isLatin {c : Char} (h : isLatin c = true) : c.toNat < 123 := by
  have hz : 'Z'.val.toNat = 90 := rfl
  have hz' : 'z'.val.toNat = 122 := rfl
  simp only [isLatin, Bool.or_eq_true, Bool.and_eq_true, decide_eq_true_eq, Char.le_def, UInt32.le_iff_toNat_le] at h
  change c.val.toNat < 123
  omega

/-- What holds of all the letters of units, by trying them out. -/
theorem of_isUnitLetter {p : Char → Bool}
    (h : ((List.range 123).map Char.ofNat ++ ['µ']).all (fun c => !isUnitLetter c || p c) = true) {c : Char}
    (hc : isUnitLetter c = true) : p c = true := by
  have hmem : c ∈ (List.range 123).map Char.ofNat ++ ['µ'] := by
    simp only [isUnitLetter, Bool.or_eq_true, beq_iff_eq] at hc
    rcases hc with hlatin | rfl
    · refine List.mem_append_left _ (List.mem_map.mpr ⟨c.toNat, List.mem_range.mpr (lt_of_isLatin hlatin), ?_⟩)
      simp
    · simp
  simpa [hc] using List.all_eq_true.mp h c hmem

theorem lowerChar_of_isUnitLetter {c : Char} (hc : isUnitLetter c = true) : lowerChar c = [c.toLower] :=
  beq_iff_eq.mp (of_isUnitLetter (p := fun c => lowerChar c == [c.toLower]) (by decide +kernel) hc)

theorem not_isDigit_of_isUnitLetter {c : Char} (hc : isUnitLetter c = true) : isDigit c = false := by
  simpa using of_isUnitLetter (p := fun c => !isDigit c) (by decide +kernel) hc

theorem not_isBlank_of_isUnitLetter {c : Char} (hc : isUnitLetter c = true) : isBlank c = false := by
  simpa using of_isUnitLetter (p := fun c => !isBlank c) (by decide +kernel) hc

/-- No digit is blank. -/
theorem not_isDigit_of_isBlank {c : Char} (hc : isBlank c = true) : isDigit c = false := by
  rw [← Bool.not_eq_true]
  intro hd
  rw [not_isBlank_of_isWordChar (by simp [isWordChar, isAlphanumeric_of_isDigit hd])] at hc
  cases hc

end Text

namespace UnitKind

/-- The kind knows the unit: symbols as they are spelled, the long names of times in any case. -/
inductive Knows : UnitKind → List Char → UnitFactor → Prop
  | size {unit : List Char} {f : UnitFactor} (h : (String.ofList unit, f) ∈ sizeUnits) : Knows size unit f
  | symbol {unit : List Char} {f : UnitFactor} (h : (String.ofList unit, f) ∈ timeSymbols) : Knows time unit f
  | name {unit : List Char} {name : String} {f : UnitFactor} (h : (name, f) ∈ timeNames)
      (same : unit.map Char.toLower = name.toList) : Knows time unit f

theorem lower_of_letters {unit : List Char} (h : ∀ c ∈ unit, Text.isUnitLetter c = true) :
    Text.lower (String.ofList unit) = String.ofList (unit.map Char.toLower) := by
  have hchars : unit.flatMap Text.lowerChar = unit.map Char.toLower := by
    induction unit with
    | nil => rfl
    | cons c unit ih =>
      rw [List.forall_mem_cons] at h
      simp [Text.lowerChar_of_isUnitLetter h.1, ih h.2]
  simp [Text.lower, hchars]

/-- In the tables, every entry is the one that its unit leads to. -/
theorem lookup_of_mem {table : List (String × UnitFactor)}
    (h : (table.all fun e => table.lookup e.1 == some e.2) = true) {unit : String} {f : UnitFactor}
    (hmem : (unit, f) ∈ table) : table.lookup unit = some f :=
  beq_iff_eq.mp (List.all_eq_true.mp h _ hmem)

/-- A unit of letters has a factor exactly if the kind knows it. -/
theorem factor?_eq_some_iff {kind : UnitKind} {unit : List Char} {f : UnitFactor}
    (hletters : ∀ c ∈ unit, Text.isUnitLetter c = true) :
    kind.factor? (String.ofList unit) = some f ↔ kind.Knows unit f := by
  have hlower := lower_of_letters hletters
  cases kind with
  | size =>
    constructor
    · intro h
      exact .size (Mapping.mem_of_get? h)
    · rintro ⟨h⟩
      exact lookup_of_mem (by decide +kernel) h
  | time =>
    simp only [factor?, hlower, Option.orElse_eq_orElse, Option.orElse_eq_or]
    constructor
    · intro h
      rcases Option.or_eq_some_iff.mp h with h | ⟨-, h⟩
      · exact .symbol (Mapping.mem_of_get? h)
      · exact .name (Mapping.mem_of_get? h) (by simp)
    · intro h
      cases h with
      | symbol h => simp [lookup_of_mem (by decide +kernel) h]
      | @name _ name _ h same =>
        have hname : String.ofList (unit.map Char.toLower) = name := by simp [same]
        have hfound : timeNames.lookup name = some f := lookup_of_mem (by decide +kernel) h
        rw [hname, hfound]
        -- A symbol has small letters only, so it would be the long name itself, and none is one.
        cases hs : timeSymbols.lookup (String.ofList unit) with
        | none => rfl
        | some g =>
          have apart : ∀ e ∈ timeSymbols, e.1.toList.map Char.toLower = e.1.toList ∧ timeNames.lookup e.1 = none := by
            decide +kernel
          obtain ⟨hsmall, hnone⟩ := apart _ (Mapping.mem_of_get? hs)
          simp only [String.toList_ofList] at hsmall
          rw [← hsmall, hname, hfound] at hnone
          cases hnone

end UnitKind

/-- How many canonical units a unit of the factor is. -/
def UnitFactor.value (f : UnitFactor) : ℚ :=
  Decimal.magnitude f.coefficient f.exponent

theorem UnitFactor.value_nonneg (f : UnitFactor) : 0 ≤ f.value :=
  Decimal.magnitude_nonneg _ _

theorem UnitKind.value_pos {kind : UnitKind} {unit : String} {f : UnitFactor} (h : kind.factor? unit = some f) :
    0 < f.value :=
  Decimal.magnitude_pos (usable_of_factor? h).1 _

namespace Quantity

/-- The parts of a written quantity. -/
structure Written where
  sign? : Option Char
  whole : List Char
  fraction? : Option (List Char)
  blanks : List Char
  unit : List Char
  sign_mem : ∀ c ∈ sign?, c = '+' ∨ c = '-'
  whole_ne : whole ≠ []
  whole_digits : ∀ c ∈ whole, Text.isDigit c = true
  fraction_ne : ∀ ds ∈ fraction?, ds ≠ []
  fraction_digits : ∀ ds ∈ fraction?, ∀ c ∈ ds, Text.isDigit c = true
  blanks_blank : ∀ c ∈ blanks, Text.isBlank c = true
  unit_ne : unit ≠ []
  unit_letters : ∀ c ∈ unit, Text.isUnitLetter c = true

namespace Written

variable (w : Written)

/-- The number as written, without its sign. -/
def number : List Char :=
  match w.fraction? with
  | some ds => w.whole ++ '.' :: ds
  | none => w.whole

/-- The whole literal. -/
def text : List Char :=
  w.sign?.toList ++ (w.number ++ (w.blanks ++ w.unit))

def negative : Bool :=
  w.sign? == some '-'

/-- The number of digits behind the point. -/
def places : Nat :=
  (w.fraction?.getD []).length

/-- The digits of the number, read without the point. -/
def coefficient : Nat :=
  Text.digitsValue (w.whole ++ w.fraction?.getD [])

/-- The number with all its digits. -/
def numeric : Decimal :=
  .finite w.negative w.coefficient (-(w.places : Int))

/-- The number ends where its digits end. -/
theorem head?_blanks_unit : ∀ c ∈ (w.blanks ++ w.unit).head?, Text.isDigit c = false ∧ c ≠ '.' := by
  intro c hc
  have hmem : c ∈ w.blanks ++ w.unit := List.mem_of_mem_head? hc
  rcases List.mem_append.mp hmem with hblank | hletter
  · have hblank := w.blanks_blank c hblank
    refine ⟨Text.not_isDigit_of_isBlank hblank, ?_⟩
    rintro rfl
    exact absurd hblank (by decide)
  · have hletter := w.unit_letters c hletter
    refine ⟨Text.not_isDigit_of_isUnitLetter hletter, ?_⟩
    rintro rfl
    exact absurd hletter (by decide)

theorem trimLeft_blanks_unit : Text.trimLeft (w.blanks ++ w.unit) = w.unit := by
  unfold Text.trimLeft
  rw [List.dropWhile_append_of_pos w.blanks_blank]
  cases hunit : w.unit with
  | nil => rfl
  | cons c cs =>
    have hletter := Text.not_isBlank_of_isUnitLetter (w.unit_letters c (by simp [hunit]))
    simp [hletter]

theorem splitSign_of_isDigit {c : Char} (h : Text.isDigit c = true) (cs : List Char) :
    Decimal.splitSign (c :: cs) = (false, c :: cs) := by
  unfold Decimal.splitSign
  split
  next hc =>
    cases hc
    exact absurd h (by decide)
  next hc =>
    cases hc
    exact absurd h (by decide)
  next => rfl

theorem splitSign_text : Decimal.splitSign w.text = (w.negative, w.number ++ (w.blanks ++ w.unit)) := by
  unfold text negative
  cases hsign : w.sign? with
  | some c => rcases w.sign_mem c hsign with rfl | rfl <;> rfl
  | none =>
    obtain ⟨d, ds, hwhole⟩ := List.exists_cons_of_ne_nil w.whole_ne
    have hd := w.whole_digits d (by simp [hwhole])
    have hnumber : ∃ rest, w.number = d :: rest := by
      unfold number
      cases w.fraction? <;> simp [hwhole]
    obtain ⟨rest, hrest⟩ := hnumber
    simp [hrest, splitSign_of_isDigit hd]

/-- The parts of a literal are a sign, an unsigned number as in recipes, and letters behind blanks. -/
theorem splitLiteral?_eq (cs : List Char) : splitLiteral? cs =
    (Grammar.unsignedCut? (Decimal.splitSign cs).2).bind fun r =>
      if (Text.trimLeft r.2).isEmpty || !(Text.trimLeft r.2).all Text.isUnitLetter then none
      else some ((Decimal.splitSign cs).1, r.1, Text.trimLeft r.2) := by
  unfold splitLiteral? Grammar.unsignedCut?
  dsimp only
  rcases Decimal.spanDigits (Decimal.splitSign cs).2 with ⟨_ | ⟨d, ds⟩, rest⟩
  · rfl
  · rcases Classical.em (∃ r, rest = '.' :: r) with ⟨r, rfl⟩ | hpoint
    · simp only
      rcases Decimal.spanDigits r with ⟨_ | ⟨e, es⟩, behind⟩ <;> rfl
    · split
      next r hr => exact absurd ⟨r, hr⟩ hpoint
      next =>
        simp only [List.isEmpty_cons, Bool.false_eq_true, if_false, Option.bind_some, Bool.false_or]
        rfl

/-- The number is cut off as a whole. -/
theorem unsignedCut?_number :
    Grammar.unsignedCut? (w.number ++ (w.blanks ++ w.unit)) = some (w.number, w.blanks ++ w.unit) := by
  have hrest := w.head?_blanks_unit
  refine Grammar.unsignedCut?_eq_some.mpr ⟨rfl, fun c hc => (hrest c hc).1, w.whole, w.whole_ne, w.whole_digits, ?_⟩
  unfold number
  cases hfraction : w.fraction? with
  | some ds => exact .inr ⟨ds, w.fraction_ne ds hfraction, w.fraction_digits ds hfraction, rfl⟩
  | none =>
    refine .inl ⟨rfl, fun r hr => ?_⟩
    exact absurd rfl (hrest '.' (by simp [hr])).2

/-- A written quantity is split into its parts. -/
theorem splitLiteral?_text : splitLiteral? w.text = some (w.negative, w.number, w.unit) := by
  rw [splitLiteral?_eq, splitSign_text]
  simpa [w.unsignedCut?_number, trimLeft_blanks_unit] using And.intro w.unit_ne w.unit_letters

theorem exists_sign (cs : List Char) : ∃ sign? : Option Char, (∀ c ∈ sign?, c = '+' ∨ c = '-') ∧
    cs = sign?.toList ++ (Decimal.splitSign cs).2 ∧ (Decimal.splitSign cs).1 = (sign? == some '-') := by
  unfold Decimal.splitSign
  split
  · exact ⟨some '-', by simp, rfl, rfl⟩
  · exact ⟨some '+', by simp, rfl, rfl⟩
  · exact ⟨none, by simp, rfl, rfl⟩

/-- Every text that is split is a written quantity. -/
theorem exists_of_splitLiteral? {cs number unit : List Char} {negative : Bool}
    (h : splitLiteral? cs = some (negative, number, unit)) :
    ∃ w : Written, w.text = cs ∧ w.negative = negative ∧ w.number = number ∧ w.unit = unit := by
  obtain ⟨sign?, hsign, hcs, hnegative⟩ := exists_sign cs
  rw [splitLiteral?_eq, Option.bind_eq_some_iff] at h
  obtain ⟨⟨run, rest⟩, hcut, h⟩ := h
  obtain ⟨htext, -, ds, hne, hds, hform⟩ := Grammar.unsignedCut?_eq_some.mp hcut
  split at h
  next => cases h
  next hunit =>
    simp only [Option.some.injEq, Prod.mk.injEq] at h
    obtain ⟨rfl, rfl, rfl⟩ := h
    simp only [Bool.or_eq_true, List.isEmpty_iff, Bool.not_eq_true', List.all_eq_false, not_or, not_exists, not_and,
      Bool.not_eq_true, Bool.not_eq_false] at hunit
    have hrest : rest.takeWhile Text.isBlank ++ Text.trimLeft rest = rest := List.takeWhile_append_dropWhile
    have hfraction : ∃ fraction? : Option (List Char), (∀ es ∈ fraction?, es ≠ []) ∧
        (∀ es ∈ fraction?, ∀ c ∈ es, Text.isDigit c = true) ∧
        run = match fraction? with | some es => ds ++ '.' :: es | none => ds := by
      rcases hform with ⟨rfl, -⟩ | ⟨es, hesne, hes, rfl⟩
      · exact ⟨none, by simp, by simp, rfl⟩
      · exact ⟨some es, by simpa using hesne, by simpa using hes, rfl⟩
    obtain ⟨fraction?, hfractionNe, hfractionDigits, hrun⟩ := hfraction
    refine ⟨{ sign?, whole := ds, fraction?, blanks := rest.takeWhile Text.isBlank, unit := Text.trimLeft rest
              sign_mem := hsign, whole_ne := hne, whole_digits := hds, fraction_ne := hfractionNe
              fraction_digits := hfractionDigits, blanks_blank := fun c => List.mem_takeWhile_imp
              unit_ne := hunit.1, unit_letters := hunit.2 }, ?_, hnegative.symm, hrun.symm, rfl⟩
    unfold text number
    simp only [← hrun, hrest, ← htext, ← hcs]

/-- The digits of a written number, read without the point. -/
theorem numberParts_number : numberParts w.number = (w.coefficient, -(w.places : Int)) := by
  have hwhole : ∀ c ∈ w.whole, (c != '.') = true := by
    intro c hc
    rw [bne_iff_ne]
    rintro rfl
    exact absurd (w.whole_digits '.' hc) (by decide)
  unfold numberParts number coefficient places
  cases w.fraction? with
  | some ds => simp [List.takeWhile_append_of_pos hwhole, List.dropWhile_append_of_pos hwhole]
  | none => simp [List.takeWhile_eq_self_iff.mpr hwhole, List.dropWhile_eq_nil_iff.mpr hwhole]

/-- The number without its sign. -/
def magnitude : ℚ :=
  Decimal.magnitude w.coefficient (-(w.places : Int))

end Written

/-- Between blanks, the text is the written quantity, in a unit that the kind knows and not below zero. -/
structure Spells (kind : UnitKind) (text : String) (w : Written) (f : UnitFactor) : Prop where
  text : Text.trim text.toList = w.text
  unit : kind.Knows w.unit f
  sign : w.negative = true → w.coefficient = 0

/-- The amount is the product, rounded to sixty digits and then to a whole number, a half going up. -/
theorem scaled_eq (c : Nat) (e : Int) (f : UnitFactor) :
    (scaled c e f : Int) = ⌊Decimal.rounded precision (Decimal.magnitude c e * f.value) + 1 / 2⌋ := by
  unfold scaled UnitFactor.value
  rw [Decimal.wholeHalfUp_eq_floor, Decimal.magnitude_roundedParts precision_pos, Decimal.magnitude_mul]

/-- The amount of a product that sixty digits are enough for is the product, a half going up. -/
theorem scaled_eq_floor {c : Nat} {e : Int} {f : UnitFactor}
    (h : Decimal.HasDigits precision (Decimal.magnitude c e * Decimal.magnitude f.coefficient f.exponent)) :
    (scaled c e f : Int) = ⌊Decimal.magnitude c e * Decimal.magnitude f.coefficient f.exponent + 1 / 2⌋ := by
  rw [scaled_eq, UnitFactor.value, Decimal.rounded_of_hasDigits precision_pos h]

variable {kind : UnitKind} {text : String} {w : Written} {f : UnitFactor} {q : Quantity}

theorem ofText_of_spells (h : Spells kind text w f) : ofText kind text = .ok
    { kind, literal := Text.trimmed text, numeric := w.numeric, unit := String.ofList w.unit
      canonical := scaled w.coefficient (-(w.places : Int)) f } := by
  have hunit := (UnitKind.factor?_eq_some_iff w.unit_letters).mpr h.unit
  have hsign : (w.negative && w.coefficient != 0) = false := by
    cases hn : w.negative with
    | false => rfl
    | true => simp [h.sign hn]
  have htext : (Text.trimmed text).toList = w.text := by simp [Text.trimmed, h.text]
  have hne : (Text.trimmed text).isEmpty = false := by
    rw [← Bool.not_eq_true, String.isEmpty_iff, ← String.toList_inj, htext]
    simp [Written.text, w.unit_ne]
  unfold ofText
  simp [hne, htext, w.splitLiteral?_text, w.numberParts_number, hsign, hunit, Written.numeric, pure, Except.pure]

theorem exists_spells (h : ofText kind text = .ok q) : ∃ w f, Spells kind text w f := by
  unfold ofText at h
  dsimp only at h
  split at h
  next => cases h
  next =>
    split at h
    next => cases h
    next negative number unit hsplit =>
      simp only [Text.trimmed, String.toList_ofList] at hsplit
      obtain ⟨w, htext, rfl, rfl, rfl⟩ := Written.exists_of_splitLiteral? hsplit
      split at h
      next => cases h
      next hsign =>
        split at h
        next => cases h
        next f hf =>
          refine ⟨w, f, htext.symm, (UnitKind.factor?_eq_some_iff w.unit_letters).mp hf, fun hn => ?_⟩
          simpa [w.numberParts_number, hn] using hsign

/-- What a quantity that was read from a text shows of it. -/
structure Shows (q : Quantity) (text : String) (w : Written) (f : UnitFactor) : Prop where
  literal : q.literal = Text.trimmed text
  numeric : q.numeric = w.numeric
  unit : q.unit = String.ofList w.unit
  canonical (h : Decimal.HasDigits precision (w.magnitude * Decimal.magnitude f.coefficient f.exponent)) :
    (q.canonical : Int) = ⌊w.magnitude * Decimal.magnitude f.coefficient f.exponent + 1 / 2⌋

/-- A text is a quantity of a kind exactly if it spells one, and every other text is refused. The quantity is the one
that the text spells, and its amount is exact but for one rounding. -/
theorem ofText_spelled (kind : UnitKind) (text : String) :
    ((∃ q, ofText kind text = .ok q) ↔ ∃ w f, Spells kind text w f) ∧
      ((∃ e, ofText kind text = .error e) ↔ ¬∃ w f, Spells kind text w f) ∧
      ∀ q w f, ofText kind text = .ok q → Spells kind text w f → q.kind = kind ∧ q.Shows text w f := by
  have hiff : (∃ q, ofText kind text = .ok q) ↔ ∃ w f, Spells kind text w f := by
    constructor
    · rintro ⟨q, hq⟩
      exact exists_spells hq
    · rintro ⟨w, f, h⟩
      exact ⟨_, ofText_of_spells h⟩
  refine ⟨hiff, ?_, ?_⟩
  · rw [← hiff]
    cases ofText kind text <;> simp
  · intro q w f hq h
    rw [ofText_of_spells h] at hq
    cases hq
    exact ⟨rfl, rfl, rfl, rfl, scaled_eq_floor⟩

end Quantity

end RowRecipe
