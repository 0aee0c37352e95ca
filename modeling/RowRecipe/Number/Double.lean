import RowRecipe.Number.Digits
import RowRecipe.Number.Decimal

/-!
# Double precision numbers

A finite double is `mantissa * 2 ^ exponent` with at most 53 bits of mantissa and an exponent of at
least -1074. Conversion computes exactly and rounds once, to the nearest double, half to even.
-/

namespace RowRecipe

/-- A double precision number. -/
inductive Double
  | finite (negative : Bool) (mantissa : Nat) (exponent : Int)
  | infinite (negative : Bool)
  | nan
  deriving DecidableEq

namespace Double

instance : Inhabited Double := ⟨.finite false 0 (-1074)⟩

/-- The exponent at which the quotient of two positive numbers has 53 bits, or the least exponent. -/
def exponentFor (num den : Nat) : Int :=
  let e : Int := (num.log2 : Int) - den.log2 - 53
  let e := if num * pow2 (-e).toNat / (den * pow2 e.toNat) < pow2 53 then e else e + 1
  max e (-1074)

/-- The double nearest to `num / den`. -/
def ofRatio (negative : Bool) (num den : Nat) : Double :=
  if num = 0 then .finite negative 0 (-1074)
  else
    let e := exponentFor num den
    let m := roundHalfEven (num * pow2 (-e).toNat) (den * pow2 e.toNat)
    let r : Nat × Int := if m = pow2 53 then (pow2 52, e + 1) else (m, e)
    if 971 < r.2 then .infinite negative else .finite negative r.1 r.2

/-- The double nearest to a finite decimal. Beyond four hundred places on either side of the point there
is nothing to compute: the decimal is out of range or next to zero. -/
def ofFinite (negative : Bool) (coefficient : Nat) (exponent : Int) : Double :=
  let places := exponent + digitCount coefficient
  if coefficient = 0 ∨ places < -400 then .finite negative 0 (-1074)
  else if 400 < places then .infinite negative
  else ofRatio negative (coefficient * pow10 exponent.toNat) (pow10 (-exponent).toNat)

/-- The double nearest to a decimal. There is none for a signaling decimal. -/
def ofDecimal : Decimal → Except NumberError Double
  | .finite n c e => pure (ofFinite n c e)
  | .infinite n => pure (.infinite n)
  | .nan _ false _ => pure .nan
  | .nan _ true _ => throw .notANumber

/-- The double nearest to an integer, which has to be finite. -/
def ofInt (n : Int) : Except NumberError Double :=
  match ofRatio (decide (n < 0)) n.natAbs 1 with
  | .infinite _ => throw .tooLarge
  | d => pure d

/-- The integer `s` for which the number is `s * 2 ^ -1074`. -/
def scaled (negative : Bool) (mantissa : Nat) (exponent : Int) : Int :=
  let m : Int := (mantissa * pow2 (exponent + 1074).toNat : Nat)
  if negative then -m else m

def add : Double → Double → Double
  | .finite n₁ m₁ e₁, .finite n₂ m₂ e₂ =>
    let sum := scaled n₁ m₁ e₁ + scaled n₂ m₂ e₂
    ofRatio (if sum = 0 then n₁ && n₂ else decide (sum < 0)) sum.natAbs (pow2 1074)
  | .infinite n₁, .infinite n₂ => if n₁ = n₂ then .infinite n₁ else .nan
  | .infinite n, .finite .. | .finite .., .infinite n => .infinite n
  | .nan, _ | _, .nan => .nan

/-- The integer part. -/
def toIntTruncated : Double → Except NumberError Int
  | .finite n m e =>
    let k : Nat := if 0 ≤ e then m * pow2 e.toNat else m / pow2 (-e).toNat
    pure (if n then -(k : Int) else k)
  | .infinite _ => throw .infinite
  | .nan => throw .notANumber

end Double

end RowRecipe
