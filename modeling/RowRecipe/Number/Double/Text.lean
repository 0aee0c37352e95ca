import RowRecipe.Number.Double

/-!
# The text of a double

A double is written with the fewest decimal digits that read back as the same double, and of those with
the nearest ones. The digits are found on the decimal grids of one, two, and up to seventeen digits: on
each grid only the two neighbours of the number can lie in the interval of numbers that round to it.
-/

namespace RowRecipe.Double

/-- The decimal exponent of the leading digit of `num / den`, both positive. -/
def leadingExponent (num den : Nat) : Int :=
  if den ≤ num then digitCount (num / den) - 1
  else
    let d := digitCount (den / num)
    if num * pow10 (d - 1) = den then -(d - 1 : Nat) else -(d : Int)

/-- Whether `digits * 10 ^ exponent` rounds to the double `m * 2 ^ e`. In quarters of the last place
the ends of the interval are at `4 * m + 2` and at `4 * m - 2`, or at `4 * m - 1` below the least
mantissa of a binade; the ends count if `m` is even. -/
def readsBack (m : Nat) (e : Int) (digits : Nat) (exponent : Int) : Bool :=
  let num := digits * pow10 exponent.toNat * pow2 (2 - e).toNat
  let den := pow10 (-exponent).toNat * pow2 (e - 2).toNat
  let below := if m = pow2 52 ∧ -1074 < e then 1 else 2
  if m % 2 = 0 then (4 * m - below) * den ≤ num && num ≤ (4 * m + 2) * den
  else (4 * m - below) * den < num && num < (4 * m + 2) * den

/-- The neighbour of `m * 2 ^ e` on the grid of multiples of `10 ^ exponent` that reads back, the
nearer one if both do, the even one if both are equally near. -/
def onGrid? (m : Nat) (e exponent : Int) : Option Nat :=
  let num := m * pow2 e.toNat * pow10 (-exponent).toNat
  let den := pow2 (-e).toNat * pow10 exponent.toNat
  let low := num / den
  match readsBack m e low exponent, readsBack m e (low + 1) exponent with
  | true, true => some (roundHalfEven num den)
  | true, false => some low
  | false, true => some (low + 1)
  | false, false => none

/-- The first of the given numbers of digits that suffices, with the digits and their exponent. -/
def firstGrid? (m : Nat) (e leading : Int) : List Nat → Option (Nat × Int)
  | [] => none
  | k :: ks =>
    match onGrid? m e (leading - k + 1) with
    | some digits => some (digits, leading - k + 1)
    | none => firstGrid? m e leading ks

/-- The shortest digits of a positive double and the exponent of the last one, without trailing zeros. -/
def shortest (m : Nat) (e : Int) : Nat × Int :=
  let leading := leadingExponent (m * pow2 e.toNat) (pow2 (-e).toNat)
  let found := (firstGrid? m e leading (List.range' 1 17)).getD (0, 0)
  let r := dropZeros found.1 (digitCount found.1 - 1)
  (r.1, found.2 + r.2)

/-- How a double is written: from which decimal exponents on with an exponent mark. -/
structure Style where
  /-- The least decimal exponent of the leading digit that is written positionally. -/
  leastPositional : Int
  /-- The greatest such exponent. -/
  greatestPositional : Int
  /-- The least number of digits of a written exponent. -/
  exponentDigits : Nat

/-- Positional from a ten-thousandth up to below ten quadrillions, two digits of exponent at least. -/
def plain : Style :=
  { leastPositional := -4, greatestPositional := 15, exponentDigits := 2 }

/-- Whether digits with the given last exponent are written positionally. -/
def Style.isPositional (style : Style) (digits : Nat) (exponent : Int) : Bool :=
  let leading := exponent + digitCount digits - 1
  style.leastPositional ≤ leading && leading ≤ style.greatestPositional

/-- The decimal with exactly the digits that the text of the double shows. -/
def toDecimal : Double → Decimal
  | .finite n m e =>
    if m = 0 then .finite n 0 (-1)
    else
      let r := shortest m e
      if plain.isPositional r.1 r.2 ∧ 0 ≤ r.2 then .finite n (r.1 * pow10 (r.2 + 1).toNat) (-1)
      else .finite n r.1 r.2
  | .infinite n => .infinite n
  | .nan => .nan false false 0

/-- The text of positive digits. A positional text always shows a point. -/
def Style.digitsText (style : Style) (digits : Nat) (exponent : Int) : String :=
  let ds := toString digits
  let leading := exponent + ds.length - 1
  if style.isPositional digits exponent then
    if 0 ≤ exponent then ds ++ "".pushn '0' exponent.toNat ++ ".0"
    else
      let places := (-exponent).toNat
      let padded := ("".pushn '0' (places + 1 - ds.length) ++ ds).toList
      String.ofList (padded.take (padded.length - places)) ++ "." ++
        String.ofList (padded.drop (padded.length - places))
  else
    let point := if ds.length = 1 then ds
      else String.ofList (ds.toList.take 1) ++ "." ++ String.ofList (ds.toList.drop 1)
    let es := toString leading.natAbs
    point ++ "e" ++ (if leading < 0 then "-" else "+") ++
      "".pushn '0' (style.exponentDigits - es.length) ++ es

/-- The shortest text that reads back as the double. -/
def text : Double → String
  | .finite n m e =>
    (if n then "-" else "") ++
      if m = 0 then "0.0"
      else
        let r := shortest m e
        plain.digitsText r.1 r.2
  | .infinite n => if n then "-inf" else "inf"
  | .nan => "nan"

end RowRecipe.Double
