import RowRecipe.Number.Digits

/-!
# Decimal numbers

A decimal keeps the digits it was written with: `1.50` and `1.5` are equal numbers and different
decimals. Every operation computes the exact result and rounds it once, half to even, to a given number
of significant digits; a result that needs no rounding keeps the exponent that its operands suggest. The
leading digit of a result stands at most 999999 places before the point, and a result that is too small
to have one within 999999 places behind it loses digits at its end, down to zero.
-/

namespace RowRecipe

/-- A decimal number: `(-1) ^ negative * coefficient * 10 ^ exponent`, an infinity, or no number. -/
inductive Decimal
  | finite (negative : Bool) (coefficient : Nat) (exponent : Int)
  | infinite (negative : Bool)
  | nan (negative signaling : Bool) (payload : Nat)
  deriving DecidableEq

/-- Why a number could not be computed. -/
inductive NumberError
  /-- The operands have no result: `0 / 0`, an order question about no number, any question about a
  signaling one. -/
  | invalidOperation
  /-- A number other than zero was divided by zero. -/
  | divisionByZero
  /-- A result whose leading digit stands too far before the point. -/
  | outOfRange
  /-- An infinity where the result must be an integer. -/
  | infinite
  /-- An integer that is larger than every double. -/
  | tooLarge
  /-- No number where the result must be a number. -/
  | notANumber
  deriving DecidableEq

namespace Decimal

instance : Inhabited Decimal := ⟨.finite false 0 0⟩

/-- The integer `n` as a decimal with exponent zero. -/
def ofInt (n : Int) : Decimal :=
  .finite (decide (n < 0)) n.natAbs 0

/-- `coefficient * 10 ^ exponent` for a coefficient that is written without sign. -/
def ofNat (coefficient : Nat) (exponent : Int) : Decimal :=
  .finite false coefficient exponent

/-- The coefficient rounded to at most `precision` digits, half to even, and by how much its exponent
grows. -/
def roundedParts (precision coefficient : Nat) : Nat × Nat :=
  if digitCount coefficient ≤ precision then (coefficient, 0)
  else
    let excess := digitCount coefficient - precision
    let q := roundHalfEven coefficient (pow10 excess)
    if digitCount q ≤ precision then (q, excess) else (q / 10, excess + 1)

/-- The place of the leading digit, counted from the digit before the point. -/
def place (coefficient : Nat) (exponent : Int) : Int :=
  exponent + digitCount coefficient - 1

/-- The farthest place before the point that the leading digit of a result may have. -/
def greatestPlace : Int := 999999

/-- The place behind the point from which on a result loses digits at its end. -/
def leastPlace : Int := -999999

/-- The exponent of the last digit that a result can have. -/
def leastExponent (precision : Nat) : Int :=
  leastPlace - precision + 1

/-- A coefficient without its last `count` digits, rounded half to even. -/
def withoutDigits (coefficient count : Nat) : Nat :=
  if digitCount coefficient < count then 0 else roundHalfEven coefficient (pow10 count)

/-- The result that is nearest to `coefficient * 10 ^ exponent`. -/
def fitted (precision : Nat) (negative : Bool) (coefficient : Nat) (exponent : Int) :
    Except NumberError Decimal :=
  let least := leastExponent precision
  if coefficient = 0 then pure (.finite negative 0 (max least (min exponent greatestPlace)))
  else if place coefficient exponent < leastPlace ∧ exponent < least then
    pure (.finite negative (withoutDigits coefficient (least - exponent).toNat) least)
  else
    let r := roundedParts precision coefficient
    if greatestPlace < place r.1 (exponent + r.2) then throw .outOfRange
    else pure (.finite negative r.1 (exponent + r.2))

/-- The whole number nearest to `coefficient * 10 ^ exponent`; a half goes up. -/
def wholeHalfUp (coefficient : Nat) (exponent : Int) : Nat :=
  if 0 ≤ exponent then coefficient * pow10 exponent.toNat
  else if exponent + digitCount coefficient < 0 then 0
  else roundHalfUp coefficient (pow10 (-exponent).toNat)

/-- The whole part of `coefficient * 10 ^ exponent`. -/
def wholePart (coefficient : Nat) (exponent : Int) : Nat :=
  if 0 ≤ exponent then coefficient * pow10 exponent.toNat
  else if exponent + digitCount coefficient < 0 then 0
  else coefficient / pow10 (-exponent).toNat

/-- No number as a result: its payload keeps the last digits that the precision leaves room for. -/
def propagated (precision : Nat) (negative : Bool) (payload : Nat) : Decimal :=
  .nan negative false (payload % pow10 precision)

def mul (precision : Nat) : Decimal → Decimal → Except NumberError Decimal
  | .finite n₁ c₁ e₁, .finite n₂ c₂ e₂ => fitted precision (n₁ != n₂) (c₁ * c₂) (e₁ + e₂)
  | .infinite n₁, .infinite n₂ => pure (.infinite (n₁ != n₂))
  | .infinite n₁, .finite n₂ c₂ _ =>
    if c₂ = 0 then throw .invalidOperation else pure (.infinite (n₁ != n₂))
  | .finite n₁ c₁ _, .infinite n₂ =>
    if c₁ = 0 then throw .invalidOperation else pure (.infinite (n₁ != n₂))
  | .nan _ true _, _ | _, .nan _ true _ => throw .invalidOperation
  | .nan n _ p, _ | _, .nan n _ p => pure (propagated precision n p)

/-- Marks a truncated quotient as inexact: its last digit becomes one that no rounding takes for a tie
or for an exact quotient. -/
def marked (q : Nat) : Nat :=
  if q % 5 = 0 then q + 1 else q

/-- The quotient of two positive coefficients with at least one digit more than `precision`, and its
exponent. An exact quotient gets the exponent nearest to `ideal` at which it is a whole number. -/
def quotientParts (precision num den : Nat) (ideal : Int) : Nat × Int :=
  let shift : Int := precision + 1 + digitCount den - digitCount num
  let scaledNum := num * pow10 shift.toNat
  let scaledDen := den * pow10 (-shift).toNat
  if scaledNum % scaledDen = 0 then
    let r := dropZeros (scaledNum / scaledDen) shift.toNat
    (r.1, ideal - shift + r.2)
  else (marked (scaledNum / scaledDen), ideal - shift)

def div (precision : Nat) : Decimal → Decimal → Except NumberError Decimal
  | .finite n₁ c₁ e₁, .finite n₂ c₂ e₂ =>
    if c₂ = 0 then throw (if c₁ = 0 then .invalidOperation else .divisionByZero)
    else if c₁ = 0 then fitted precision (n₁ != n₂) 0 (e₁ - e₂)
    else
      let q := quotientParts precision c₁ c₂ (e₁ - e₂)
      fitted precision (n₁ != n₂) q.1 q.2
  | .infinite _, .infinite _ => throw .invalidOperation
  | .infinite n₁, .finite n₂ _ _ => pure (.infinite (n₁ != n₂))
  | .finite n₁ _ _, .infinite n₂ => pure (.finite (n₁ != n₂) 0 (leastExponent precision))
  | .nan _ true _, _ | _, .nan _ true _ => throw .invalidOperation
  | .nan n _ p, _ | _, .nan n _ p => pure (propagated precision n p)

/-- A natural number with a sign. -/
def signed (negative : Bool) (n : Nat) : Int :=
  if negative then -(n : Int) else n

/-- The coefficient of the same number at a lower exponent. -/
def lowered (coefficient : Nat) (start exponent : Int) : Nat :=
  if coefficient = 0 then 0 else coefficient * pow10 (start - exponent).toNat

/-- The lower of two summands as far as it can be seen in the sum. If it lies far below the last digit
that is kept of the higher one, a single digit there stands for it. -/
def visiblePart (precision high : Nat) (highExponent : Int) (low : Nat) (lowExponent : Int) : Nat × Int :=
  let floor := highExponent - 1 - (precision + 1 - digitCount high : Nat)
  if high ≠ 0 ∧ place low lowExponent < floor then (min low 1, floor) else (low, lowExponent)

/-- The sum of two finite numbers, of which the first does not have the lower exponent. -/
def addLower (precision : Nat) (n₁ : Bool) (c₁ : Nat) (e₁ : Int) (n₂ : Bool) (c₂ : Nat) (e₂ : Int) :
    Except NumberError Decimal :=
  let low := visiblePart precision c₁ e₁ c₂ e₂
  let sum := signed n₁ (lowered c₁ e₁ low.2) + signed n₂ low.1
  fitted precision (if sum = 0 then n₁ && n₂ else decide (sum < 0)) sum.natAbs low.2

def add (precision : Nat) : Decimal → Decimal → Except NumberError Decimal
  | .finite n₁ c₁ e₁, .finite n₂ c₂ e₂ =>
    if e₁ < e₂ then addLower precision n₂ c₂ e₂ n₁ c₁ e₁ else addLower precision n₁ c₁ e₁ n₂ c₂ e₂
  | .infinite n₁, .infinite n₂ =>
    if n₁ = n₂ then pure (.infinite n₁) else throw .invalidOperation
  | d@(.infinite _), .finite .. | .finite .., d@(.infinite _) => pure d
  | .nan _ true _, _ | _, .nan _ true _ => throw .invalidOperation
  | .nan n _ p, _ | _, .nan n _ p => pure (propagated precision n p)

/-- The same number without trailing zeros. -/
def normalize : Decimal → Decimal
  | .finite n c e =>
    if c = 0 then .finite n 0 0
    else
      let r := dropZeros c (digitCount c)
      .finite n r.1 (e + r.2)
  | d => d

/-- The nearest integer; a tie goes away from zero. -/
def toIntHalfUp : Decimal → Except NumberError Int
  | .finite n c e => pure (signed n (wholeHalfUp c e))
  | .infinite _ => throw .infinite
  | .nan .. => throw .notANumber

/-- The integer part. -/
def toIntTruncated : Decimal → Except NumberError Int
  | .finite n c e => pure (signed n (wholePart c e))
  | .infinite _ => throw .infinite
  | .nan .. => throw .notANumber

end Decimal

end RowRecipe
