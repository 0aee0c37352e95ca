import RowRecipe.Proofs.Unit.Display
import RowRecipe.Unit.Operation

/-!
# Computed quantities

What is computed for an amount is a quantity that its own literal reads as, with the amount itself wherever sixty
digits are enough for it. Sums are computed from the sum of the amounts, so their laws are those of whole numbers as
long as no sum is rounded.
-/

namespace RowRecipe.Quantity

open Decimal (HasDigits rounded)

variable {kind : UnitKind} {n : Nat} {q a b c : Quantity}

/-- What is computed for an amount: a quantity that its literal reads as. Its amount is the given one without the digits
behind the sixtieth, rounded half to even. -/
structure Computes (q : Quantity) (kind : UnitKind) (n : Nat) : Prop where
  kind_eq : q.kind = kind
  reads : ofText kind q.literal = .ok q
  canonical : q.canonical = roundHalfEven n (pow10 (digitCount n - precision)) * pow10 (digitCount n - precision)
  exact_iff : q.canonical = n ↔ HasDigits precision n

theorem computes_of_ofCanonical (h : ofCanonical kind (n : Int) = .ok q) : q.Computes kind n := by
  have hcanonical := canonical_of_ofCanonical h
  obtain ⟨hkind, hreads⟩ : q.kind = kind ∧ ofText kind q.literal = .ok q := by
    cases displayedAs_of_ofCanonical h with
    | rung ladder factor displayable displays first => exact ⟨displays.kind_eq, displays.reads⟩
    | digits long displays => exact ⟨displays.kind_eq, displays.reads⟩
  refine ⟨hkind, hreads, ?_, ?_⟩
  · rw [Decimal.rounded_natCast precision_pos] at hcanonical
    exact_mod_cast hcanonical
  · rw [← Decimal.rounded_eq_self_iff precision_pos (Nat.cast_nonneg n), ← hcanonical, Nat.cast_inj]

/-! ## Sums -/

theorem addValue_quantity (ha : a.kind = kind) (hb : b.kind = kind) : a.addValue (.quantity b) =
    (ofCanonical kind (a.canonical + b.canonical : Nat)).mapError .ofQuantity := by
  rw [addValue, if_pos (hb.trans ha.symm), add, ha]

/-- A sum that needs no rounding is the sum of the amounts. -/
theorem exists_addValue (ha : a.kind = kind) (hb : b.kind = kind) (hn : Convertible (a.canonical + b.canonical))
    (hdigits : HasDigits precision (a.canonical + b.canonical : Nat)) :
    ∃ q, a.addValue (.quantity b) = .ok q ∧ q.kind = kind ∧ q.canonical = a.canonical + b.canonical := by
  obtain ⟨q, hq⟩ := exists_ofCanonical kind hn
  have hcomputes := computes_of_ofCanonical hq
  refine ⟨q, ?_, hcomputes.kind_eq, hcomputes.exact_iff.mpr hdigits⟩
  rw [addValue_quantity ha hb, hq]
  rfl

/-- Every amount of less than 4300 digits is computed, and sums of quantities are commutative, and exact and
associative where the sums need no rounding. -/
theorem computed_and_summed (kind : UnitKind) :
    (∀ n : Nat, digitCount n < 4300 → ∃ q, ofCanonical kind (n : Int) = .ok q ∧ q.Computes kind n) ∧
      (∀ a b : Quantity, a.kind = kind → b.kind = kind → a.addValue (.quantity b) = b.addValue (.quantity a)) ∧
      (∀ a b : Quantity, a.kind = kind → b.kind = kind → Convertible (a.canonical + b.canonical) →
        HasDigits precision (a.canonical + b.canonical : Nat) →
          ∃ q, a.addValue (.quantity b) = .ok q ∧ q.kind = kind ∧ q.canonical = a.canonical + b.canonical) ∧
      ∀ a b c : Quantity, a.kind = kind → b.kind = kind → c.kind = kind →
        Convertible (a.canonical + b.canonical) → HasDigits precision (a.canonical + b.canonical : Nat) →
        Convertible (b.canonical + c.canonical) → HasDigits precision (b.canonical + c.canonical : Nat) →
          (a.addValue (.quantity b)).bind (fun sum => sum.addValue (.quantity c)) =
            (b.addValue (.quantity c)).bind fun sum => a.addValue (.quantity sum) := by
  refine ⟨?_, ?_, ?_, ?_⟩
  · intro n hn
    obtain ⟨q, hq⟩ := exists_ofCanonical kind (n := n) (by unfold Convertible; omega)
    exact ⟨q, hq, computes_of_ofCanonical hq⟩
  · intro a b ha hb
    rw [addValue_quantity ha hb, addValue_quantity hb ha, Nat.add_comm]
  · intro a b ha hb hn hdigits
    exact exists_addValue ha hb hn hdigits
  · intro a b c ha hb hc hab hdigitsAB hbc hdigitsBC
    obtain ⟨ab, hsumAB, hkindAB, hvalueAB⟩ := exists_addValue ha hb hab hdigitsAB
    obtain ⟨bc, hsumBC, hkindBC, hvalueBC⟩ := exists_addValue hb hc hbc hdigitsBC
    rw [hsumAB, hsumBC]
    -- Both ways end with the same three amounts, and only their sum matters, rounded or not.
    calc ab.addValue (.quantity c)
        = (ofCanonical kind (a.canonical + b.canonical + c.canonical : Nat)).mapError .ofQuantity := by
          rw [addValue_quantity hkindAB hc, hvalueAB]
      _ = (ofCanonical kind (a.canonical + (b.canonical + c.canonical) : Nat)).mapError .ofQuantity := by
          rw [Nat.add_assoc]
      _ = a.addValue (.quantity bc) := by rw [addValue_quantity ha hkindBC, hvalueBC]

/-- An amount of sixty-one digits, and three durations. -/
theorem computed_and_summed_times :
    (∃ q, ofCanonical .time (pow10 60 + 5 : Nat) = .ok q ∧ q.Computes .time (pow10 60 + 5)) ∧
      (addValue ⟨.time, "1s", .ofNat 1 0, "s", 1000⟩ (.quantity ⟨.time, "7ms", .ofNat 7 0, "ms", 7⟩)).bind
          (fun sum => sum.addValue (.quantity ⟨.time, "1m", .ofNat 1 0, "m", 60000⟩)) =
        (addValue ⟨.time, "7ms", .ofNat 7 0, "ms", 7⟩ (.quantity ⟨.time, "1m", .ofNat 1 0, "m", 60000⟩)).bind
          fun sum => addValue ⟨.time, "1s", .ofNat 1 0, "s", 1000⟩ (.quantity sum) := by
  have hfirst : 1000 + 7 < pow10 precision := by decide +kernel
  have hsecond : 7 + 60000 < pow10 precision := by decide +kernel
  refine ⟨(computed_and_summed .time).1 _ (by decide +kernel), ?_⟩
  exact (computed_and_summed .time).2.2.2 _ _ _ rfl rfl rfl
    (by unfold Convertible; decide +kernel) (Decimal.hasDigits_natCast hfirst)
    (by unfold Convertible; decide +kernel) (Decimal.hasDigits_natCast hsecond)

end RowRecipe.Quantity
