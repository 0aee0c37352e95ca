import RowRecipe.Directive.Basic

/-!
# Column directives

Renaming, dropping and keeping columns. Each works on one row at a time and keeps the order of the cells,
apart from `keep`, which puts the columns in the order of its list.
-/

namespace RowRecipe

/-- Renames a column; the new name must not be taken. -/
structure Rename where
  source : String
  target : String

namespace Rename

variable (r : Rename)

/-- The row with the column renamed. -/
def renamed (row : Row) : Row :=
  row.map fun cell => (if cell.1 = r.source then r.target else cell.1, cell.2)

/-- The error of a row that has a column of the new name. -/
def taken (index : Nat) : ExecutionError :=
  { fault := .columnExists index r.source r.target
    directive := some "rename", row := some index, column := some r.target, value := .null }

/-- Renames the column in rows that are counted from `index`. -/
def rowsFrom (index : Nat) : List Row → Except ExecutionError (List Row)
  | [] => pure []
  | row :: rows => do
    if Mapping.has row r.target then throw (r.taken index)
    return r.renamed row :: (← rowsFrom (index + 1) rows)

def apply (rows : List Row) : Except ExecutionError (List Row) :=
  if r.source = r.target then pure rows else r.rowsFrom 0 rows

def toDirective : Directive :=
  .ofRows "rename" "Rename" [("source", .text r.source), ("target", .text r.target)] r.apply

end Rename

/-- Removes the listed columns where they are present. -/
structure Drop where
  columns : List String

namespace Drop

variable (d : Drop)

def row (row : Row) : Row :=
  row.filter fun cell => !d.columns.contains cell.1

def apply (rows : List Row) : Except ExecutionError (List Row) :=
  pure (rows.map d.row)

def toDirective : Directive :=
  .ofRows "drop" "Drop" [("columns", .list (d.columns.eraseDups.mergeSort.map .text))] d.apply

end Drop

/-- Keeps only the listed columns, in the listed order. -/
structure Keep where
  columns : List String

namespace Keep

variable (k : Keep)

def row (row : Row) : Row :=
  Mapping.ofEntries (k.columns.filterMap fun name => (Mapping.get? row name).map (name, ·))

def apply (rows : List Row) : Except ExecutionError (List Row) :=
  pure (rows.map k.row)

def toDirective : Directive :=
  .ofRows "keep" "Keep" [("columns", .list (k.columns.map .text))] k.apply

end Keep

namespace Arguments

/-- The columns bound to a slot that takes one name or a list of names. -/
def columns (a : Arguments) (slot : String) : List String :=
  match a.token? slot with
  | some ⟨.columnName name, _⟩ => [name]
  | some ⟨.columnNameList names, _⟩ => names
  | _ => []

end Arguments

/-- The usage of a directive with the given slots, none of them optional. -/
def UsageDefinition.ofSlots (directive : String) (slots : List (String × List TokenType)) :
    UsageDefinition :=
  { directive
    slots := slots.map fun s => { name := s.1, accepts := s.2, optional := false, default? := none } }

/-- The class of `rename`. -/
def Rename.directiveClass : DirectiveClass :=
  { name := "rename", label := "Rename", categories := ["columns"]
    define := pure (.ofSlots "rename" [("source", [.columnName]), ("target", [.columnName])])
    create := fun a => pure (toDirective ⟨a.text "source", a.text "target"⟩) }

/-- The class of `drop`. -/
def Drop.directiveClass : DirectiveClass :=
  { name := "drop", label := "Drop", categories := ["columns"]
    define := pure (.ofSlots "drop" [("columns", [.columnName, .columnNameList])])
    create := fun a => pure (toDirective ⟨a.columns "columns"⟩) }

/-- The class of `keep`. -/
def Keep.directiveClass : DirectiveClass :=
  { name := "keep", label := "Keep", categories := ["columns"]
    define := pure (.ofSlots "keep" [("columns", [.columnName, .columnNameList])])
    create := fun a => pure (toDirective ⟨a.columns "columns"⟩) }

end RowRecipe
