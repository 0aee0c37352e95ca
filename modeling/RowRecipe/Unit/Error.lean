import RowRecipe.Unit.Kind

/-!
# Errors of quantities

Why a text is no quantity, or an operation on quantities is refused.
-/

namespace RowRecipe

/-- A refused quantity. -/
inductive FormatError
  | missing (kind : UnitKind)
  | empty (kind : UnitKind)
  | malformed (kind : UnitKind) (literal : String)
  | negative (kind : UnitKind) (literal : String)
  | unknownUnit (kind : UnitKind) (unit literal : String)
  | negativeAmount (kind : UnitKind) (amount : Int)
  | noSuchUnit (kind : UnitKind) (unit : String)
  | nothingToAdd (kind : UnitKind)
  | negativeFactor
  /-- Reported by a directive of the host in its own words. -/
  | reported (message : String) (literal : Option String)

namespace FormatError

def message : FormatError → String
  | missing kind => s!"{kind.heading} string cannot be None"
  | empty kind => s!"{kind.heading} string cannot be empty"
  | malformed kind literal =>
    s!"Invalid {kind.label} format: '{literal}'. Expected a number followed by a unit " ++
      s!"(e.g. {kind.examples})."
  | negative kind literal => s!"{kind.heading} cannot be negative: '{literal}'"
  | unknownUnit kind unit literal =>
    s!"Unknown {kind.label} unit '{unit}' in '{literal}'. Valid units include: " ++
      ", ".intercalate kind.unitNames
  | negativeAmount kind amount => s!"{kind.heading} cannot be negative: {amount}"
  | noSuchUnit kind unit => s!"Unknown {kind.label} unit '{unit}'"
  | nothingToAdd kind => s!"Cannot add None to a {kind.label}"
  | negativeFactor => "Multiplication factor cannot be negative"
  | reported message _ => message

/-- The refused text. -/
def literal : FormatError → Option String
  | empty _ => some ""
  | malformed _ literal | negative _ literal | unknownUnit _ _ literal => some literal
  | noSuchUnit _ unit => some unit
  | reported _ literal => literal
  | missing _ | negativeAmount .. | nothingToAdd _ | negativeFactor => none

end FormatError

end RowRecipe
