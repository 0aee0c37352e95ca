import RowRecipe.Value.Arithmetic

/-!
# Operations on quantities and values

A quantity, its unit, a factor, a divisor or a summand may be given as any value. A value that does not
fit is refused: as no unit, as a summand of another kind, or as an operand the arithmetic does not take.
-/

namespace RowRecipe

/-- Why an operation on quantities and values has no result. -/
inductive Refusal
  | format (error : FormatError)
  /-- A value that names no unit of the kind. -/
  | unknownUnit (kind : UnitKind) (unit : Value)
  /-- A value that is not a quantity of the kind. -/
  | otherKind (kind : UnitKind) (summand : Value)
  | fault (fault : Fault)

namespace Refusal

def ofQuantity : QuantityError → Refusal
  | .format e => .format e
  | .number e => .fault (.ofNumber e)

def message : Refusal → String
  | format e => e.message
  | unknownUnit kind unit => s!"Unknown {kind.label} unit '{unit.plain}'"
  | otherKind kind summand => s!"Cannot add {summand.typeName} to {kind.typeName}"
  | fault f => f.text

end Refusal

namespace UnitFactor

/-- An amount of canonical units, divided by `divisor`, in units of the factor. -/
def convert (f : UnitFactor) (amount divisor : Value) : Except Fault Decimal := do
  let amount ← amount.toDecimal
  let inUnits ← (Decimal.div Quantity.precision amount f.toDecimal).mapError .ofNumber
  let divisor ← divisor.toDecimal
  (Decimal.div Quantity.precision inUnits divisor).mapError .ofNumber

end UnitFactor

namespace UnitKind

/-- The factor of a unit. Only a text can name one, and only a value that can be looked up may be asked
for; the names of times are looked up in lower case, which other values than texts do not have. -/
def factorOf (kind : UnitKind) (unit : Value) : Except Refusal UnitFactor :=
  match kind, unit with
  | _, .text name =>
    match kind.factor? name with
    | some f => pure f
    | none => throw (.unknownUnit kind unit)
  | .time, .null => throw (.unknownUnit kind unit)
  | _, _ =>
    if !unit.isKey then throw (.fault (.type s!"unhashable type: '{unit.typeName}'"))
    else match kind with
      | .size => throw (.unknownUnit kind unit)
      | .time => throw (.fault (.lacking unit.operandName "lower"))

/-- An amount of canonical units, divided by `divisor`, in the given unit. -/
def convert (kind : UnitKind) (amount unit divisor : Value) : Except Refusal Decimal := do
  let f ← kind.factorOf unit
  (f.convert amount divisor).mapError .fault

/-- The table spelling of a unit that is given as a value. -/
def spelling? (kind : UnitKind) (unit : Value) (anyCase : Bool) : Except Fault (Option String) :=
  match unit with
  | .null => pure none
  | .text name => pure (kind.resolveUnit? name anyCase)
  | v => throw (.lacking v.operandName "strip")

end UnitKind

namespace Quantity

/-- The quantity that a value is, or that its text shows; null shows none. -/
def ofValue (kind : UnitKind) : Value → Except FormatError Quantity
  | .null => throw (.missing kind)
  | .quantity q => if q.kind = kind then pure q else ofText kind q.literal
  | v => ofText kind v.plain

/-- The quantity whose canonical amount is the integer part of a value. -/
def ofAmount (kind : UnitKind) (amount : Value) : Except Refusal Quantity := do
  let n ← amount.toInt.mapError .fault
  (ofCanonical kind n).mapError .ofQuantity

variable (q : Quantity)

/-- The canonical amount in a unit. -/
def decimalIn (unit : Value) : Except Refusal Decimal :=
  q.kind.convert (.int q.canonical) unit (.int 1)

/-- The double nearest to the amount in a unit. -/
def doubleIn (unit : Value) : Except Refusal Double := do
  (Double.ofDecimal (← q.decimalIn unit)).mapError fun e => .fault (.ofNumber e)

/-- Adds a value, which has to be a quantity of the same kind. -/
def addValue : Value → Except Refusal Quantity
  | .null => throw (.format (.nothingToAdd q.kind))
  | .quantity r =>
    if r.kind = q.kind then (q.add r).mapError .ofQuantity else throw (.otherKind q.kind (.quantity r))
  | v => throw (.otherKind q.kind v)

/-- The sum of two operands. -/
def plus : Value → Except Refusal Quantity
  | .quantity r =>
    if r.kind = q.kind then (q.add r).mapError .ofQuantity
    else throw (.fault (Value.unsupportedSum (.quantity q) (.quantity r)))
  | v => throw (.fault (Value.unsupportedSum (.quantity q) v))

/-- The quantity times whatever can be read as a number. -/
def multiplyValue (factor : Value) : Except Refusal Quantity := do
  let factor ← factor.toDecimal.mapError .fault
  (q.multiply factor).mapError .ofQuantity

/-- The product of two operands, of which one has to be a number; a truth value is none here. -/
def times (factor : Value) : Except Refusal Quantity :=
  match factor with
  | .int _ | .double _ | .decimal _ => q.multiplyValue factor
  | v => throw (.fault (.type s!"unsupported operand type(s) for *: '{q.kind.typeName}' and '{v.operandName}'"))

/-- How a quantity compares with a value; only quantities of the same kind have an order. -/
def compareValue? : Value → Option Ordering
  | .quantity r => if r.kind = q.kind then some (compare q.canonical r.canonical) else none
  | _ => none

end Quantity

end RowRecipe
