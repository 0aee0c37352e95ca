import RowRecipe.Number.Double

/-!
# The order of numbers

Numbers of all kinds are compared as decimals, by their exact values: every integer and every double is
a decimal. Neither of two magnitudes is written out beyond the digits of the other. No number has no place
in the order, and a signaling one may not even be asked whether it is equal to something.
-/

namespace RowRecipe

namespace Double

/-- The decimal that a double is. A negative power of two is a power of five with the point moved. -/
def exact : Double → Decimal
  | .finite n m e =>
    if 0 ≤ e then .finite n (m * pow2 e.toNat) 0 else .finite n (m * pow5 (-e).toNat) e
  | .infinite n => .infinite n
  | .nan => .nan false false 0

end Double

namespace Decimal

/-- The order of `c * 10 ^ e` and `d * 10 ^ f`. -/
def compareMagnitude (c : Nat) (e : Int) (d : Nat) (f : Int) : Ordering :=
  if c = 0 ∨ d = 0 then compare c d
  else (compare (place c e) (place d f)).then
    (compare (c * pow10 (e - f).toNat) (d * pow10 (f - e).toNat))

/-- Minus one, zero or one. -/
def sign (negative : Bool) (coefficient : Nat) : Int :=
  signed negative (min coefficient 1)

/-- The order of two decimals, whatever their exponents. No number has none. -/
def compare? : Decimal → Decimal → Option Ordering
  | .finite n₁ c₁ e₁, .finite n₂ c₂ e₂ =>
    some <| (compare (sign n₁ c₁) (sign n₂ c₂)).then <|
      if n₁ then compareMagnitude c₂ e₂ c₁ e₁ else compareMagnitude c₁ e₁ c₂ e₂
  | .infinite n₁, .infinite n₂ => some (compare (sign n₁ 1) (sign n₂ 1))
  | .infinite n, .finite .. => some (if n then .lt else .gt)
  | .finite .., .infinite n => some (if n then .gt else .lt)
  | .nan .., _ | _, .nan .. => none

/-- Whether a decimal is no number and may not be asked about. -/
def isSignaling : Decimal → Bool
  | .nan _ signaling _ => signaling
  | _ => false

/-- Whether two decimals are the same number. -/
def same (c d : Decimal) : Except NumberError Bool :=
  if c.isSignaling || d.isSignaling then throw .invalidOperation
  else pure (c.compare? d == some .eq)

/-- The order of a decimal and zero. The question has no answer for no number. -/
def compareZero (d : Decimal) : Except NumberError Ordering :=
  match d.compare? (.finite false 0 0) with
  | some o => pure o
  | none => throw .invalidOperation

end Decimal

end RowRecipe
