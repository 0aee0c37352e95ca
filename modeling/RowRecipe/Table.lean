import RowRecipe.Directive.Basic

/-!
# Tables

The rows of a batch as a table. The first row settles the columns: a row that lacks one gets null, and
other cells are dropped. Quantities become their literals, and the decimals of a column are written with
as many places behind the point as any of them has.
-/

namespace RowRecipe

/-- Named columns and rows that have exactly these. -/
structure Table where
  columns : List String
  rows : List Row

namespace Table

/-- The number of places behind the point that a cell shows. -/
def places : Value → Nat
  | .decimal (.finite _ _ e) => (-e).toNat
  | _ => 0

/-- A cell of a column whose decimals have the given number of places. A zero has no sign. -/
def cell (places : Nat) : Value → Value
  | .quantity q => .text q.literal
  | .decimal (.finite n c e) =>
    .decimal (.finite (n && c != 0) (Decimal.lowered c e (-(places : Int))) (-(places : Int)))
  | v => v

/-- The cell of a row in a column; null, if there is none. -/
def cellOf (column : String) (row : Row) : Value :=
  (Mapping.get? row column).getD .null

/-- The table of rows. Without columns there are no rows either. -/
def ofRows : List Row → Table
  | [] => ⟨[], []⟩
  | first :: more =>
    let rows := first :: more
    let columns := (Mapping.keys first).map fun c =>
      (c, rows.foldl (fun n row => max n (places (cellOf c row))) 0)
    let row (r : Row) : Row := columns.map fun c => (c.1, cell c.2 (cellOf c.1 r))
    ⟨Mapping.keys first, if columns.isEmpty then [] else rows.map row⟩

end Table

end RowRecipe
