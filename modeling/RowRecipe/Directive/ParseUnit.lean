import RowRecipe.Directive.Columns

/-!
# Parsing of cells

Turns the text cells of a column into quantities. Null cells stay, and so do cells that already hold a
quantity of the kind.
-/

namespace RowRecipe

/-- Parses a column as quantities of one kind. -/
structure ParseUnit where
  kind : UnitKind
  column : String

namespace ParseUnit

variable (p : ParseUnit)

/-- The word used in recipes. -/
def nameOf : UnitKind → String
  | .size => "parse-as-size"
  | .time => "parse-as-duration"

def labelOf : UnitKind → String
  | .size => "ParseAsSize"
  | .time => "ParseAsDuration"

/-- The error of a cell. -/
def refused (index : Nat) (value : Value) (fault : ExecutionFault) : ExecutionError :=
  { fault, directive := some (nameOf p.kind), row := some index, column := some p.column, value }

/-- Parses the cell of one row. -/
def row (index : Nat) (row : Row) : Except ExecutionError Row :=
  match Mapping.get? row p.column with
  | none | some .null => pure row
  | some (.text s) =>
    match Quantity.ofText p.kind s with
    | .ok q => pure (Mapping.put row p.column (.quantity q))
    | .error e => throw (p.refused index (.text s) (.unreadableCell index e))
  | some v =>
    match v with
    | .quantity q =>
      if q.kind = p.kind then pure row
      else throw (p.refused index v (.notText index p.column v.typeName))
    | _ => throw (p.refused index v (.notText index p.column v.typeName))

/-- Parses the column in rows that are counted from `index`. -/
def rowsFrom (index : Nat) : List Row → Except ExecutionError (List Row)
  | [] => pure []
  | r :: rs => return (← p.row index r) :: (← rowsFrom (index + 1) rs)

def toDirective : Directive :=
  .ofRows (nameOf p.kind) (labelOf p.kind) [("column", .text p.column)] (p.rowsFrom 0)

/-- The class of the directive for one kind of quantity. -/
def directiveClass (kind : UnitKind) : DirectiveClass :=
  { name := nameOf kind, label := labelOf kind, categories := ["parser"]
    define := pure (.ofSlots (nameOf kind) [("column", [.columnName])])
    create := fun a => pure (toDirective ⟨kind, a.text "column"⟩) }

end ParseUnit

end RowRecipe
