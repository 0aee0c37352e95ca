import RowRecipe.Fault
import RowRecipe.Value.Text

/-!
# Values as numbers

Conversion of values to decimals and to integers. A decimal can be given as a number, as a text, or as a
sequence of a sign, digits and an exponent; an integer as a number, which loses its fraction, or as a text.
-/

namespace RowRecipe

namespace Decimal

/-- The farthest place before the point that the leading digit of a given number may have. -/
def greatestGivenPlace : Int := 999999999999999999

/-- The exponent of the last digit that a given number can have. -/
def leastGivenExponent : Int := -1999999999999999997

/-- Whether a decimal is within the limits for given numbers, which are far beyond those of results. -/
def isStorable : Decimal → Bool
  | .finite _ c e => decide (place c e ≤ greatestGivenPlace) && decide (leastGivenExponent ≤ e)
  | _ => true

/-- The decimal itself if it is within the limits. -/
def stored (d : Decimal) : Except NumberError Decimal :=
  if d.isStorable then pure d else throw .invalidOperation

end Decimal

namespace Value

/-- The name of the type of an operand. -/
def operandName : Value → String
  | decimal _ => "decimal.Decimal"
  | v => v.typeName

/-- A whole number that has to fit into a word of 64 bits; all other values are refused. -/
def word (refusal wordName : String) (v : Value) : Except Fault Int :=
  let fitting (n : Int) : Except Fault Int :=
    if -(pow2 63 : Int) ≤ n ∧ n < pow2 63 then pure n
    else throw ⟨"OverflowError", s!"Python int too large to convert to C {wordName}"⟩
  match v with
  | int n => fitting n
  | bool b => fitting b.toInt
  | _ => throw (.value refusal)

/-- What the last part of a decimal says that is given in parts. -/
inductive Scale
  | power (exponent : Int)
  | infinite
  | nan (signaling : Bool)

/-- Reads the last part: an exponent, or a letter for an infinity or no number. -/
def scale : Value → Except Fault Scale
  | text s =>
    if s = "F" then pure .infinite
    else if s = "n" then pure (.nan false)
    else if s = "N" then pure (.nan true)
    else throw (.value "string argument in the third position must be 'F', 'n' or 'N'")
  | v => (v.word "exponent must be an integer" "ssize_t").map .power

/-- Reads the first part: one for a negative number, and zero. -/
def isMinus (v : Value) : Except Fault Bool := do
  let refusal := "sign must be an integer with the value 0 or 1"
  let n ← v.word refusal "long"
  if n = 0 then return false
  else if n = 1 then return true
  else throw (.value refusal)

/-- Reads the part in the middle: a sequence of digits. -/
def digits (v : Value) : Except Fault (List Nat) :=
  let refusal := "coefficient must be a tuple of digits"
  let digit (v : Value) : Except Fault Nat := do
    let n ← v.word refusal "long"
    if 0 ≤ n ∧ n ≤ 9 then return n.toNat else throw (.value refusal)
  match v with
  | list vs | tuple vs => vs.mapM digit
  | _ => throw (.value refusal)

/-- The decimal that is given in parts. An infinity has no digits, whatever is given. -/
def decimalOfParts : List Value → Except Fault Decimal
  | [first, second, third] => do
    let negative ← first.isMinus
    let scale ← third.scale
    let coefficient := (← second.digits).foldl (fun n d => 10 * n + d) 0
    match scale with
    | .power e => (Decimal.finite negative coefficient e).stored.mapError .ofNumber
    | .infinite => return .infinite negative
    | .nan signaling => return .nan negative signaling coefficient
  | _ => throw (.value "argument must be a sequence of length 3")

/-- The value as a decimal. A double becomes the decimal that its text shows. -/
def toDecimal : Value → Except Fault Decimal
  | decimal d => pure d
  | double d => pure d.toDecimal
  | int n => pure (.ofInt n)
  | bool b => pure (.ofInt b.toInt)
  | text s =>
    match Decimal.ofText? s with
    | some d => d.stored.mapError .ofNumber
    | none => throw ⟨"InvalidOperation", "[<class 'decimal.ConversionSyntax'>]"⟩
  | list vs | tuple vs => decimalOfParts vs
  | v => throw (.type s!"conversion from {v.operandName} to Decimal is not supported")

/-- Reads an integer: digits of any script, a sign, spaces at the ends, single underscores between
digits. -/
def integerOfText? (s : String) : Option Int :=
  let cs := s.toList.dropWhile Text.isSpace
  let r := Decimal.splitSign (cs.reverse.dropWhile Text.isSpace).reverse
  let groups := r.2.splitOn '_'
  if groups.all fun g => !g.isEmpty && g.all Text.isDigit then
    let n := Text.digitsValue groups.flatten
    some (if r.1 then -(n : Int) else n)
  else none

/-- The integer part of a value. -/
def toInt : Value → Except Fault Int
  | int n => pure n
  | bool b => pure b.toInt
  | double d => d.toIntTruncated.mapError .ofNumber
  | decimal d => d.toIntTruncated.mapError .ofNumber
  | text s =>
    match integerOfText? s with
    | some n => pure n
    | none => throw (.value s!"invalid literal for int() with base 10: {Text.quoted s}")
  | v => throw (.type ("int() argument must be a string, a bytes-like object or a real number, not " ++
      s!"'{v.operandName}'"))

end Value

end RowRecipe
