import RowRecipe.Value.Conversion

/-!
# Arithmetic on values

The sum of two values, and whether a value is positive. Numbers are added in the wider of their two kinds,
texts and sequences are joined, and quantities of one kind are added; decimals and doubles are never mixed.
-/

namespace RowRecipe.Value

/-- The significant digits of a sum of decimals. -/
def sumPrecision : Nat := 28

/-- A number as an operand of a sum. -/
inductive Summand
  | int (n : Int)
  | double (d : Double)
  | decimal (d : Decimal)

/-- The operand that a value is. -/
def summand? : Value → Option Summand
  | int n => some (.int n)
  | bool b => some (.int b.toInt)
  | double d => some (.double d)
  | decimal d => some (.decimal d)
  | _ => none

/-- The fault of a sum whose operands do not go together. -/
def unsupportedSum (v w : Value) : Fault :=
  .type s!"unsupported operand type(s) for +: '{v.operandName}' and '{w.operandName}'"

/-- The sum of two numbers; there is none of a double and a decimal. -/
def addNumbers : Summand → Summand → Option (Except NumberError Value)
  | .int m, .int n => some (pure (.int (m + n)))
  | .int m, .double d => some ((Double.ofInt m).map fun c => .double (c.add d))
  | .double c, .int n => some ((Double.ofInt n).map fun d => .double (c.add d))
  | .double c, .double d => some (pure (.double (c.add d)))
  | .int m, .decimal d => some ((Decimal.add sumPrecision (.ofInt m) d).map .decimal)
  | .decimal c, .int n => some ((Decimal.add sumPrecision c (.ofInt n)).map .decimal)
  | .decimal c, .decimal d => some ((Decimal.add sumPrecision c d).map .decimal)
  | .double _, .decimal _ | .decimal _, .double _ => none

/-- The sum of two values. -/
def add (v w : Value) : Except Fault Value :=
  match v, w with
  | text s, text t => pure (.text (s ++ t))
  | list xs, list ys => pure (.list (xs ++ ys))
  | tuple xs, tuple ys => pure (.tuple (xs ++ ys))
  | text _, _ | list _, _ | tuple _, _ =>
    let name := v.operandName
    throw (.type s!"can only concatenate {name} (not \"{w.operandName}\") to {name}")
  | quantity p, quantity q =>
    if p.kind = q.kind then
      match p.add q with
      | .ok r => pure (.quantity r)
      | .error (.format e) => throw ⟨"FormatError", e.message⟩
      | .error (.number e) => throw (.ofNumber e)
    else throw (unsupportedSum v w)
  | _, _ =>
    match v.summand?, w.summand? with
    | some x, some y =>
      match addNumbers x y with
      | some r => r.mapError .ofNumber
      | none => throw (unsupportedSum v w)
    | _, _ => throw (unsupportedSum v w)

/-- Whether a value is a number greater than zero. Only numbers can be asked. -/
def isPositive (v : Value) : Except Fault Bool :=
  match v, v.number? with
  | double .nan, _ => pure false
  | _, some d => (d.compareZero.map (· == .gt)).mapError .ofNumber
  | _, none => throw (.type s!"'>' not supported between instances of '{v.operandName}' and 'int'")

end RowRecipe.Value
