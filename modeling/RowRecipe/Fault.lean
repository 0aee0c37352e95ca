import RowRecipe.Number.Decimal

/-!
# Faults

An error that is not one of the engine's own: arithmetic that has no result, values of kinds that do not
go together, or whatever a directive of the host reports. A fault has the name of its kind and a text.
-/

namespace RowRecipe

/-- An error outside the engine's own kinds. -/
structure Fault where
  kind : String
  text : String
  deriving DecidableEq

namespace Fault

/-- An operand or argument of a kind that the operation does not take. -/
def type (text : String) : Fault := ⟨"TypeError", text⟩

/-- A value that the operation does not take. -/
def value (text : String) : Fault := ⟨"ValueError", text⟩

/-- A value that lacks what the operation asks of it. -/
def lacking (typeName part : String) : Fault :=
  ⟨"AttributeError", s!"'{typeName}' object has no attribute '{part}'"⟩

/-- An integer that is too long to be written. -/
def longInteger : Fault :=
  value ("Exceeds the limit (4300 digits) for integer string conversion; " ++
    "use sys.set_int_max_str_digits() to increase the limit")

/-- A fault of arithmetic. -/
def ofNumber : NumberError → Fault
  | .invalidOperation => ⟨"InvalidOperation", "[<class 'decimal.InvalidOperation'>]"⟩
  | .divisionByZero => ⟨"DivisionByZero", "[<class 'decimal.DivisionByZero'>]"⟩
  | .outOfRange => ⟨"Overflow", "[<class 'decimal.Overflow'>]"⟩
  | .infinite => ⟨"OverflowError", "cannot convert Infinity to integer"⟩
  | .tooLarge => ⟨"OverflowError", "int too large to convert to float"⟩
  | .notANumber => ⟨"ValueError", "cannot convert NaN to integer"⟩

/-- The kind and the text, as a message quotes them. -/
def describe (f : Fault) : String :=
  s!"{f.kind}: {f.text}"

end Fault

end RowRecipe
