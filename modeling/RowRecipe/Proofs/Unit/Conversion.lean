import RowRecipe.Mapping
import RowRecipe.Proofs.Number.Range
import RowRecipe.Unit.Operation

/-!
# Conversion to units

Every unit of the tables has a factor that is not zero and at most six places behind the point. So an amount
can be converted to every known unit, unless it has close to a million digits, which is more than decimals
have room for.
-/

namespace RowRecipe

section Results

variable {α β ε ε' : Type} {x : Except ε α} {f : α → Except ε β} {g : ε → ε'}

/-- Two steps have a result if the first has one and the second has it from there. -/
theorem bind_eq_ok_iff {b : β} : (x >>= f) = .ok b ↔ ∃ a, x = .ok a ∧ f a = .ok b := by
  cases x with
  | error e => simp [bind, Except.bind]
  | ok a => simp [bind, Except.bind]

theorem mapError_eq_ok_iff {a : α} : x.mapError g = .ok a ↔ x = .ok a := by
  cases x <;> simp [Except.mapError]

theorem exists_eq_ok_of_toOption (x : Except ε α) (part : α → β) {b : β} (h : x.toOption.map part = some b) :
    ∃ a, x = .ok a ∧ part a = b := by
  cases x with
  | error e => cases h
  | ok a => exact ⟨a, rfl, Option.some.inj h⟩

end Results

/-! ## The tables -/

namespace Text

/-- The letters in which long names of units are written. -/
def smallLetters : List Char := "abcdefghijklmnopqrstuvwxyz".toList

theorem lowerChar_of_small : ∀ c ∈ smallLetters, lowerChar c = [c] := by
  have hall : smallLetters.all (fun c => lowerChar c == [c]) = true := by decide +kernel
  intro c hc
  exact beq_iff_eq.mp (List.all_eq_true.mp hall c hc)

theorem lower_of_small {s : String} (h : ∀ c ∈ s.toList, c ∈ smallLetters) : lower s = s := by
  have hchars : ∀ cs : List Char, (∀ c ∈ cs, c ∈ smallLetters) → cs.flatMap lowerChar = cs := by
    intro cs hcs
    induction cs with
    | nil => rfl
    | cons c cs ih =>
      rw [List.forall_mem_cons] at hcs
      rw [List.flatMap_cons, lowerChar_of_small c hcs.1, ih hcs.2]
      rfl
  rw [lower, hchars _ h, String.ofList_toList]

end Text

theorem mem_of_lookup {α : Type} {table : List (String × α)} {key : String} {value : α}
    (h : table.lookup key = some value) : ∃ entry ∈ table, entry.2 = value :=
  ⟨_, Mapping.mem_of_get? h, rfl⟩

theorem lookup_isSome_of_mem {α : Type} {table : List (String × α)} {key : String}
    (h : key ∈ table.map (·.1)) : (table.lookup key).isSome :=
  (Mapping.get?_isSome_iff table key).mpr h

namespace UnitKind

/-- A factor that amounts can be divided by. -/
def Usable (f : UnitFactor) : Prop := 0 < f.coefficient ∧ -6 ≤ f.exponent

instance (f : UnitFactor) : Decidable (Usable f) := inferInstanceAs (Decidable (_ ∧ _))

/-- What holds of all factors of the tables holds of the factor of every known unit. -/
theorem of_factor? {P : UnitFactor → Prop} (sizes : ∀ e ∈ sizeUnits, P e.2) (symbols : ∀ e ∈ timeSymbols, P e.2)
    (names : ∀ e ∈ timeNames, P e.2) {kind : UnitKind} {unit : String} {f : UnitFactor}
    (h : kind.factor? unit = some f) : P f := by
  cases kind with
  | size =>
    obtain ⟨e, he, rfl⟩ := mem_of_lookup h
    exact sizes e he
  | time =>
    cases hs : timeSymbols.lookup unit with
    | some g =>
      simp only [factor?, hs] at h
      cases h
      obtain ⟨e, he, rfl⟩ := mem_of_lookup hs
      exact symbols e he
    | none =>
      simp only [factor?, hs] at h
      have h : timeNames.lookup (Text.lower unit) = some f := h
      obtain ⟨e, he, rfl⟩ := mem_of_lookup h
      exact names e he

theorem usable_of_factor? {kind : UnitKind} {unit : String} {f : UnitFactor}
    (h : kind.factor? unit = some f) : Usable f :=
  of_factor? (by decide +kernel) (by decide +kernel) (by decide +kernel) h

theorem factor_lt_of_factor? {kind : UnitKind} {unit : String} {f : UnitFactor}
    (h : kind.factor? unit = some f) : f.exponent ≤ 0 ∧ f.coefficient < pow10 25 :=
  of_factor? (P := fun f => f.exponent ≤ 0 ∧ f.coefficient < pow10 25) (by decide +kernel) (by decide +kernel)
    (by decide +kernel) h

/-- Every spelling of the tables has a factor. -/
theorem factor?_isSome_of_mem {kind : UnitKind} {unit : String} (h : unit ∈ kind.unitNames) :
    (kind.factor? unit).isSome := by
  have names : ∀ name ∈ timeNames.map (·.1), name.toList.all Text.smallLetters.contains = true := by
    decide +kernel
  have small : ∀ name ∈ timeNames.map (·.1), ∀ c ∈ name.toList, c ∈ Text.smallLetters := by
    intro name hname c hc
    exact List.contains_iff_mem.mp (List.all_eq_true.mp (names name hname) c hc)
  cases kind with
  | size => exact lookup_isSome_of_mem h
  | time =>
    rcases List.mem_append.mp h with h | h
    · obtain ⟨f, hf⟩ := Option.isSome_iff_exists.mp (lookup_isSome_of_mem h)
      simp [factor?, hf]
    · obtain ⟨f, hf⟩ := Option.isSome_iff_exists.mp (lookup_isSome_of_mem h)
      cases hs : timeSymbols.lookup unit <;> simp [factor?, hs, Text.lower_of_small (small unit h), hf]

/-- A unit that was found in the tables has a factor. -/
theorem factor?_isSome_of_resolveUnit? {kind : UnitKind} {unit name : String} {anyCase : Bool}
    (h : kind.resolveUnit? unit anyCase = some name) : (kind.factor? name).isSome := by
  unfold resolveUnit? at h
  dsimp only at h
  split at h
  · next hs =>
    cases h
    exact hs
  · split at h
    · exact factor?_isSome_of_mem (List.mem_of_find?_eq_some h)
    · cases h

end UnitKind

/-! ## Converted amounts -/

namespace Quantity

theorem precision_pos : 0 < precision := by
  decide

/-- An amount with so few digits that decimals have room for it in every unit: results end at the place
999999. -/
def Convertible (amount : Nat) : Prop := digitCount amount ≤ 999990

theorem convertible_of_lt {amount digits : Nat} (hpos : 0 < digits) (hdigits : digits ≤ 999990)
    (h : amount < pow10 digits) : Convertible amount :=
  (digitCount_le hpos h).trans hdigits

theorem convertAmount_ok {kind : UnitKind} {unit : String} (hu : (kind.factor? unit).isSome)
    {amount divisor : Nat} (ha : Convertible amount) (hd : 0 < divisor) :
    ∃ c e, convertAmount kind (.ofNat amount 0) unit (.ofNat divisor 0) = .ok (.finite false c e) := by
  obtain ⟨f, hf⟩ := Option.isSome_iff_exists.mp hu
  obtain ⟨hcoeff, hexp⟩ := UnitKind.usable_of_factor? hf
  have hfd := digitCount_pos f.coefficient
  have hdd := digitCount_pos divisor
  unfold Convertible at ha
  have hfirst : (0 : Int) - f.exponent + digitCount amount - digitCount f.coefficient <
      Decimal.greatestPlace - 1 := by
    unfold Decimal.greatestPlace
    omega
  obtain ⟨c, e, hq, hplace⟩ := Decimal.div_of_place_lt precision_pos false false hcoeff
    (c := amount) (e := 0) (f := f.exponent) (.inr (by omega))
  obtain ⟨c', e', hq', -⟩ := Decimal.div_of_place_lt precision_pos false false hd (c := c) (e := e) (f := 0) <| by
    refine hplace.imp id fun hle => ?_
    unfold Decimal.place Decimal.leastPlace Decimal.greatestPlace at *
    omega
  refine ⟨c', e', ?_⟩
  rw [bne_self_eq_false] at hq hq'
  simp only [convertAmount, hf, Decimal.ofNat, UnitFactor.toDecimal, bind, Except.bind, hq, hq']
  rfl

end Quantity

end RowRecipe
