import RowRecipe.Directive.Columns
import RowRecipe.Unit.Operation

/-!
# Aggregation across batches

Adds up the byte sizes of one column and the durations of another over all batches. Every batch adds the
canonical amounts of its rows to entries of the store; on the last batch the totals, or their averages
per row, are converted to the configured units and become the only row. The totals are written to the log
as well, so there is no row where a total is too long to be written.
-/

namespace RowRecipe

/-- Whether a summary shows totals or averages per row. -/
inductive AggregateMode
  | total
  | average
  deriving DecidableEq

namespace AggregateMode

def name : AggregateMode → String
  | total => "TOTAL"
  | average => "AVERAGE"

def ofName? (s : String) : Option AggregateMode :=
  if s = "TOTAL" then some total else if s = "AVERAGE" then some average else none

end AggregateMode

/-- Adds up two columns across batches. -/
structure Aggregate where
  sizeColumn : String
  timeColumn : String
  sizeTarget : String
  timeTarget : String
  sizeUnit : String
  timeUnit : String
  mode : AggregateMode

namespace Aggregate

/-- The word used in recipes. -/
def directiveName : String := "aggregate-stats"

/-- The entry of the store that holds the total of the sizes. -/
def totalSizeKey : String := "aggregate-stats.total-size-bytes"

/-- The entry of the store that holds the total of the durations. -/
def totalTimeKey : String := "aggregate-stats.total-time-ms"

/-- The entry of the store that holds the number of rows. -/
def rowCountKey : String := "aggregate-stats.row-count"

variable (a : Aggregate)

/-- The canonical amount of a cell; null has none. -/
def amount? (kind : UnitKind) (index : Nat) (column : String) (cell : Value) :
    Except ExecutionError (Option Nat) :=
  let refused (fault : ExecutionFault) : ExecutionError :=
    { fault, directive := some directiveName, row := some index, column := some column, value := cell }
  match cell with
  | .null => pure none
  | .quantity q =>
    if q.kind = kind then pure (some q.canonical)
    else throw (refused (.foreignCell index column kind cell.typeName))
  | .text s =>
    match Quantity.ofText kind s with
    | .ok q => pure (some q.canonical)
    | .error e => throw (refused (.malformedCell index column kind e))
  | v => throw (refused (.foreignCell index column kind v.typeName))

/-- Adds the amount of one cell to an entry of the store. -/
def accumulateCell (kind : UnitKind) (index : Nat) (column key : String) (row : Row) : Action Unit := do
  match amount? kind index column ((Mapping.get? row column).getD .null) with
  | .error e => throw (.recipe (.execution e))
  | .ok none => pure ()
  | .ok (some n) =>
    let _ ← Action.increment .pipeline key (.int n)

/-- Adds one row to the totals. -/
def accumulateRow (index : Nat) (row : Row) : Action Unit := do
  accumulateCell .size index a.sizeColumn totalSizeKey row
  accumulateCell .time index a.timeColumn totalTimeKey row
  let _ ← Action.increment .pipeline rowCountKey (.int 1)

/-- Adds rows that are counted from `index` to the totals. -/
def accumulateFrom (index : Nat) : List Row → Action Unit
  | [] => pure ()
  | row :: rows => do
    a.accumulateRow index row
    accumulateFrom (index + 1) rows

/-- A total, divided by `divisor`, in the given unit. -/
def converted (kind : UnitKind) (total : Value) (unit : String) (divisor : Value) :
    Except Failure Double :=
  match kind.factor? unit with
  | none => throw (.recipe (.format (.noSuchUnit kind unit)))
  | some f => do
    let d ← (f.convert total divisor).mapError .fault
    (Double.ofDecimal d).mapError fun e => .fault (.ofNumber e)

/-- The row that sums up all batches so far. -/
def summary (store : Store) : Except Failure Row := do
  let total (key : String) : Value := (store.get? key (some .pipeline)).getD (.int 0)
  let count := total rowCountKey
  let perRow ← match a.mode with
    | .average => count.isPositive.mapError Failure.fault
    | .total => pure false
  let divisor : Value := if perRow then count else .int 1
  let size ← converted .size (total totalSizeKey) a.sizeUnit divisor
  let time ← converted .time (total totalTimeKey) a.timeUnit divisor
  if [count, total totalSizeKey, total totalTimeKey].all Value.isWritable then
    return Mapping.ofEntries [(a.sizeTarget, .double size), (a.timeTarget, .double time)]
  else throw (.fault .longInteger)

def execute (context : Context) (rows : List Row) : Action (Option (List Row)) := do
  a.accumulateFrom 0 rows
  if context.isLast then
    match a.summary (← get).store with
    | .ok row => return some [row]
    | .error e => throw e
  else return some rows

def toDirective : Directive :=
  { name := directiveName
    label := "AggregateStats"
    settings := [("aggregation_type", .text a.mode.name), ("size_column", .text a.sizeColumn),
      ("size_target", .text a.sizeTarget), ("size_unit", .text a.sizeUnit),
      ("time_column", .text a.timeColumn), ("time_target", .text a.timeTarget),
      ("time_unit", .text a.timeUnit)]
    execute := a.execute
    destroy := pure () }

/-- The usage: two columns, two targets, and optional units and mode. -/
def usage : UsageDefinition :=
  let required (name : String) (accepts : List TokenType) : UsageSlot :=
    { name, accepts, optional := false, default? := none }
  let setting (name fallback : String) : UsageSlot :=
    { name, accepts := [.text], optional := true, default? := some (.of (.text fallback)) }
  { directive := directiveName
    slots := [required "size-column" [.columnName], required "time-column" [.columnName],
      required "size-target" [.columnName, .text], required "time-target" [.columnName, .text],
      setting "size-unit" "MB", setting "time-unit" "s",
      setting "aggregation-type" AggregateMode.total.name] }

/-- The table spelling of a configured unit. -/
def resolvedUnit (kind : UnitKind) (option unit : String) : Except ConfigError String :=
  match kind.resolveUnit? unit true with
  | some name => pure name
  | none => throw { fault := .unknownUnit kind option unit, directive := some directiveName,
                    option := some option, value := .text unit }

/-- Reads the configuration from bound arguments. -/
def ofArguments (args : Arguments) : Except ConfigError Aggregate := do
  let sizeUnit ← resolvedUnit .size "size-unit" (args.text "size-unit")
  let timeUnit ← resolvedUnit .time "time-unit" (args.text "time-unit")
  let name := Text.upper (Text.trimmed (args.text "aggregation-type"))
  match AggregateMode.ofName? name with
  | none => throw { fault := .unknownAggregation name, directive := some directiveName,
                    option := some "aggregation-type", value := .text name }
  | some mode =>
    return { sizeColumn := args.text "size-column", timeColumn := args.text "time-column"
             sizeTarget := args.text "size-target", timeTarget := args.text "time-target"
             sizeUnit, timeUnit, mode }

/-- The class of `aggregate-stats`. -/
def directiveClass : DirectiveClass :=
  { name := directiveName, label := "AggregateStats", categories := ["aggregator"]
    define := pure usage
    create := fun args =>
      match ofArguments args with
      | .ok a => pure a.toDirective
      | .error e => throw (.recipe (.config e)) }

end Aggregate

end RowRecipe
