import RowRecipe.Number.Decimal
import RowRecipe.Text.Blank
import RowRecipe.Text.Digit

/-!
# The text of a decimal

A decimal is written with exactly its digits: positionally while its exponent is not positive and its
leading digit stands at most six places behind the point, with an exponent otherwise. Reading takes
every written form back, and also digits of other scripts, blanks at the ends, and underscores.
-/

namespace RowRecipe.Decimal

/-- The digits of a coefficient with a point before the last `places` of them; zeros fill up. -/
def pointed (digits : String) (places : Nat) : String :=
  if places = 0 then digits
  else
    let padded := ("".pushn '0' (places + 1 - digits.length) ++ digits).toList
    String.ofList (padded.take (padded.length - places)) ++ "." ++
      String.ofList (padded.drop (padded.length - places))

/-- An exponent with its sign. -/
def signedText (n : Int) : String :=
  if n < 0 then toString n else "+" ++ toString n

/-- The text that keeps all digits and the exponent. -/
def text : Decimal → String
  | .finite negative coefficient exponent =>
    let digits := toString coefficient
    let adjusted := exponent + digits.length - 1
    (if negative then "-" else "") ++
      if exponent ≤ 0 ∧ -6 ≤ adjusted then pointed digits (-exponent).toNat
      else pointed digits (digits.length - 1) ++ "E" ++ signedText adjusted
  | .infinite negative => (if negative then "-" else "") ++ "Infinity"
  | .nan negative signaling payload =>
    (if negative then "-" else "") ++ (if signaling then "sNaN" else "NaN") ++
      (if payload = 0 then "" else toString payload)

/-- The text without an exponent. -/
def positionalText : Decimal → String
  | .finite negative coefficient exponent =>
    (if negative then "-" else "") ++
      if exponent ≤ 0 then pointed (toString coefficient) (-exponent).toNat
      else toString (coefficient * pow10 exponent.toNat)
  | d => d.text

/-- Splits off the digits at the start of a text. -/
def spanDigits (cs : List Char) : List Char × List Char :=
  (cs.takeWhile Text.isDigit, cs.dropWhile Text.isDigit)

/-- Reads a sign, if there is one. -/
def splitSign : List Char → Bool × List Char
  | '-' :: cs => (true, cs)
  | '+' :: cs => (false, cs)
  | cs => (false, cs)

/-- Reads the exponent mark and the exponent; no text is exponent zero. -/
def exponentOf? : List Char → Option Int
  | [] => some 0
  | c :: cs =>
    if c = 'E' ∨ c = 'e' then
      let s := splitSign cs
      if s.2.isEmpty || !s.2.all Text.isDigit then none
      else some (if s.1 then -(Text.digitsValue s.2 : Int) else Text.digitsValue s.2)
    else none

/-- Reads a number without sign, with or without point and exponent. -/
def unsigned? (negative : Bool) (cs : List Char) : Option Decimal :=
  let whole := spanDigits cs
  let part := match whole.2 with
    | '.' :: r => spanDigits r
    | r => ([], r)
  if whole.1.isEmpty && part.1.isEmpty then none
  else (exponentOf? part.2).map fun e =>
    .finite negative (Text.digitsValue (whole.1 ++ part.1)) (e - part.1.length)

/-- Reads the names of the infinities and of no number, in any case. -/
def special? (negative : Bool) (cs : List Char) : Option Decimal :=
  let name := (cs.takeWhile fun c => !Text.isDigit c).map Char.toLower
  let rest := cs.dropWhile fun c => !Text.isDigit c
  if name = "nan".toList ∧ rest.all Text.isDigit then some (.nan negative false (Text.digitsValue rest))
  else if name = "snan".toList ∧ rest.all Text.isDigit then
    some (.nan negative true (Text.digitsValue rest))
  else if (name = "inf".toList ∨ name = "infinity".toList) ∧ rest = [] then some (.infinite negative)
  else none

/-- Reads a decimal. -/
def ofText? (s : String) : Option Decimal :=
  let r := splitSign ((Text.trim s.toList).filter (· != '_'))
  unsigned? r.1 r.2 <|> special? r.1 r.2

end RowRecipe.Decimal
