import RowRecipe.Number.Decimal.Text
import RowRecipe.Number.Order
import RowRecipe.Text.Letter
import RowRecipe.Unit.Error

/-!
# Quantities

A quantity is read from a literal such as `10MB` or `1.5s` into an exact number, a unit, and the
canonical amount: the number of bytes or milliseconds, rounded half up. Two quantities of one kind are
the same if their canonical amounts are. Products and quotients are rounded to sixty digits before the
rounding to a whole amount.
-/

namespace RowRecipe

/-- A number with a unit. -/
structure Quantity where
  kind : UnitKind
  /-- The text the quantity was read from, without blanks at its ends. -/
  literal : String
  /-- The number as written. -/
  numeric : Decimal
  /-- The unit as written. -/
  unit : String
  /-- The amount in canonical units. -/
  canonical : Nat
  deriving DecidableEq

/-- Why an operation on quantities has no result. -/
inductive QuantityError
  | format (error : FormatError)
  | number (error : NumberError)

namespace Quantity

/-- The number of significant digits of every product and quotient. -/
def precision : Nat := 60

/-- The product of a number and a unit factor as a whole amount, a half going up. There is one also for a
product beyond the range of decimals, which takes a literal of about a million digits. -/
def scaled (coefficient : Nat) (exponent : Int) (f : UnitFactor) : Nat :=
  let r := Decimal.roundedParts precision (coefficient * f.coefficient)
  Decimal.wholeHalfUp r.1 (exponent + f.exponent + r.2)

/-- The sign, the number and the unit of a literal. The number has digits of any script, and a point
only between digits; blanks may separate it from the unit, which is one or more letters. -/
def splitLiteral? (cs : List Char) : Option (Bool × List Char × List Char) :=
  let s := Decimal.splitSign cs
  let whole := Decimal.spanDigits s.2
  let (number, rest) := match whole.2 with
    | '.' :: r =>
      let part := Decimal.spanDigits r
      if part.1.isEmpty then (whole.1, whole.2) else (whole.1 ++ '.' :: part.1, part.2)
    | r => (whole.1, r)
  let unit := Text.trimLeft rest
  if whole.1.isEmpty || unit.isEmpty || !unit.all (fun c => Text.isLatin c || c == 'µ') then none
  else some (s.1, number, unit)

/-- The coefficient and exponent of a number such as `12.50`. -/
def numberParts (cs : List Char) : Nat × Int :=
  let part := (cs.dropWhile (· != '.')).drop 1
  (Text.digitsValue (cs.takeWhile (· != '.') ++ part), -(part.length : Int))

/-- Reads a quantity of the given kind. -/
def ofText (kind : UnitKind) (text : String) : Except FormatError Quantity :=
  let literal := Text.trimmed text
  if literal.isEmpty then throw (.empty kind)
  else match splitLiteral? literal.toList with
    | none => throw (.malformed kind literal)
    | some (negative, number, unitChars) =>
      let unit := String.ofList unitChars
      let n := numberParts number
      if negative && n.1 != 0 then throw (.negative kind literal)
      else match kind.factor? unit with
        | none => throw (.unknownUnit kind unit literal)
        | some f =>
          pure { kind, literal, unit, numeric := .finite negative n.1 n.2, canonical := scaled n.1 n.2 f }

/-- Whether the amount is at least one unit of the factor. -/
def holds (amount : Nat) (f : UnitFactor) : Bool :=
  f.coefficient * pow10 f.exponent.toNat ≤ amount * pow10 (-f.exponent).toNat

/-- The number of units that make up the amount, if the amount is what sixty digits of their product show. -/
def exactIn? (amount : Nat) (f : UnitFactor) : Except NumberError (Option Decimal) := do
  let q ← Decimal.div precision (.ofNat amount 0) f.toDecimal
  let back ← Decimal.mul precision q f.toDecimal
  return if back.compare? (.ofNat amount 0) = some .eq then some q.normalize else none

/-- The literal that displays an amount in a unit: one that is not larger than the amount, or the canonical
one, and that represents it exactly. -/
def displayedIn? (kind : UnitKind) (amount : Nat) (unit : String) : Except NumberError (Option String) :=
  match kind.factor? unit with
  | some f =>
    if holds amount f || unit == kind.canonicalUnit then do
      return (← exactIn? amount f).map fun q => q.positionalText ++ unit
    else return none
  | none => return none

/-- The literal that displays an amount: in the first unit of the ladder that can. -/
def displayText (kind : UnitKind) (amount : Nat) : Except NumberError String := do
  let displayed? ← kind.displayUnits.findSomeM? (displayedIn? kind amount)
  return displayed?.getD (toString amount ++ kind.canonicalUnit)

/-- The quantity with the given canonical amount, read back from the literal that displays it. -/
def ofCanonical (kind : UnitKind) (amount : Int) : Except QuantityError Quantity :=
  if amount < 0 then throw (.format (.negativeAmount kind amount))
  else match displayText kind amount.toNat with
    | .ok text => (ofText kind text).mapError .format
    | .error e => throw (.number e)

/-- A canonical amount, divided by `divisor`, in the given unit. -/
def convertAmount (kind : UnitKind) (amount : Decimal) (unit : String) (divisor : Decimal) :
    Except QuantityError Decimal :=
  match kind.factor? unit with
  | none => throw (.format (.noSuchUnit kind unit))
  | some f =>
    match (do Decimal.div precision (← Decimal.div precision amount f.toDecimal) divisor) with
    | .ok d => pure d
    | .error e => throw (.number e)

variable (q : Quantity)

/-- The canonical amount in the given unit, exact up to sixty digits. -/
def toDecimal (unit : String) : Except QuantityError Decimal :=
  convertAmount q.kind (.ofNat q.canonical 0) unit (.ofNat 1 0)

/-- The double nearest to the amount in the given unit. -/
def toDouble (unit : String) : Except QuantityError Double :=
  match q.toDecimal unit with
  | .ok d => (Double.ofDecimal d).mapError .number
  | .error e => throw e

/-- The sum of two quantities of one kind. -/
def add (other : Quantity) : Except QuantityError Quantity :=
  ofCanonical q.kind (q.canonical + other.canonical : Nat)

/-- The canonical amount times a factor, as a whole amount. There is none if the factor is below zero. -/
def product? (factor : Decimal) : Except NumberError (Option Int) := do
  if (← factor.compareZero).isLT then return none
  else
    let product ← Decimal.mul precision (.ofNat q.canonical 0) factor
    return some (← product.toIntHalfUp)

/-- The quantity times a factor that is not below zero. -/
def multiply (factor : Decimal) : Except QuantityError Quantity :=
  match q.product? factor with
  | .ok (some n) => ofCanonical q.kind n
  | .ok none => throw (.format .negativeFactor)
  | .error e => throw (.number e)

/-- Whether two quantities are of one kind and have the same canonical amount. -/
def same (other : Quantity) : Bool :=
  q.kind == other.kind && q.canonical == other.canonical

/-- The amount in milliseconds as days, seconds and microseconds, up to 999999999 days. -/
def toDays? : Option (Nat × Nat × Nat) :=
  let days := q.canonical / UnitKind.day
  let rest := q.canonical % UnitKind.day
  if days ≤ 999999999 then some (days, rest / 1000, rest % 1000 * 1000) else none

end Quantity

namespace UnitKind

/-- The table spelling of a unit. Where case does not matter, an exact spelling still wins, then the
first table entry that differs in case only. -/
def resolveUnit? (kind : UnitKind) (unit : String) (anyCase : Bool) : Option String :=
  let unit := Text.trimmed unit
  if (kind.factor? unit).isSome then some unit
  else if anyCase then kind.unitNames.find? fun name => Text.lower name == Text.lower unit
  else none

end UnitKind

end RowRecipe
