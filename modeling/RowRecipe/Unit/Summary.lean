import RowRecipe.Value.Text

/-!
# Summaries of quantities

A quantity is summed up as a mapping: its tag, its text, the canonical amount, the number, the unit, and
the amount in the usual larger units.
-/

namespace RowRecipe.Quantity

variable (q : Quantity)

/-- The amount in one of the units that a summary shows. -/
def conversion (unit : String) : Value :=
  match q.toDouble unit with
  | .ok d => .double d
  | .error _ => .null

/-- The double nearest to the number as written. -/
def numericDouble : Value :=
  match Double.ofDecimal q.numeric with
  | .ok d => .double d
  | .error _ => .null

/-- The conversions that can be asked for by name. -/
def measures : UnitKind → List String
  | .size => ["kilobytes", "megabytes", "gigabytes", "kibibytes", "mebibytes", "gibibytes"]
  | .time => ["seconds", "minutes", "hours", "days", "weeks", "months", "years"]

/-- What a quantity tells under a name. -/
def attribute? (name : String) : Option (Except QuantityError Value) :=
  if name = "value" || name = "literal" then some (pure (.text q.literal))
  else if name = "numeric_value" then some (pure (.decimal q.numeric))
  else if name = "unit" then some (pure (.text q.unit))
  else if name = "canonical" || name = q.kind.canonicalField then some (pure (.int q.canonical))
  else if (measures q.kind).contains name then
    (q.kind.conversions.lookup name).map fun unit => (q.toDouble unit).map .double
  else none

/-- The summary of a quantity. -/
def summary : List (String × Value) :=
  [("type", .text q.kind.tag), ("value", .text q.literal), (q.kind.canonicalField, .int q.canonical),
    ("numericValue", q.numericDouble), ("unit", .text q.unit)] ++
    q.kind.conversions.map fun c => (c.1, q.conversion c.2)

/-- The summary as JSON. -/
def summaryJson : String :=
  (Value.map q.summary).json

end RowRecipe.Quantity
