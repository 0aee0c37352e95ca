import RowRecipe.Number.Decimal
import RowRecipe.Text.Case

/-!
# Kinds of quantities and their units

A quantity is a byte size or a time duration. Each kind has a table of units with exact decimal factors
to its canonical unit, the byte and the millisecond, and a ladder of units in which computed quantities
are displayed.
-/

namespace RowRecipe

/-- What a quantity measures. -/
inductive UnitKind
  | size
  | time
  deriving DecidableEq

/-- How many canonical units a unit holds: `coefficient * 10 ^ exponent`. -/
structure UnitFactor where
  coefficient : Nat
  exponent : Int
  deriving DecidableEq

namespace UnitFactor

def toDecimal (f : UnitFactor) : Decimal :=
  .finite false f.coefficient f.exponent

end UnitFactor

namespace UnitKind

/-- The name of the kind in messages. -/
def label : UnitKind → String
  | size => "byte size"
  | time => "time duration"

/-- The name of the kind at the start of a message. -/
def heading : UnitKind → String
  | size => "Byte size"
  | time => "Time duration"

/-- The name of the type of values of the kind. -/
def typeName : UnitKind → String
  | size => "ByteSize"
  | time => "TimeDuration"

/-- The tag of the kind in summaries and tokens. -/
def tag : UnitKind → String
  | size => "BYTE_SIZE"
  | time => "TIME_DURATION"

/-- The unit in which amounts are counted. -/
def canonicalUnit : UnitKind → String
  | size => "B"
  | time => "ms"

/-- The name of the canonical amount in summaries. -/
def canonicalField : UnitKind → String
  | size => "bytes"
  | time => "milliseconds"

/-- The ladder of units for computed quantities, largest first. -/
def displayUnits : UnitKind → List String
  | size => ["YB", "ZB", "EB", "PB", "TB", "GB", "MB", "KB", "B"]
  | time => ["y", "month", "w", "d", "h", "m", "s", "ms"]

/-- The conversions that a summary shows, each with its unit. -/
def conversions : UnitKind → List (String × String)
  | size => [("kilobytes", "KB"), ("megabytes", "MB"), ("gigabytes", "GB"), ("terabytes", "TB"),
      ("petabytes", "PB"), ("kibibytes", "KiB"), ("mebibytes", "MiB"), ("gibibytes", "GiB"),
      ("tebibytes", "TiB"), ("pebibytes", "PiB")]
  | time => [("seconds", "s"), ("minutes", "m"), ("hours", "h"), ("days", "d"), ("weeks", "w"),
      ("months", "month"), ("years", "y")]

/-- Units of bytes: powers of 1000, powers of 1024, and parts of a byte. -/
def sizeUnits : List (String × UnitFactor) :=
  [("B", ⟨1, 0⟩), ("KB", ⟨pow10 3, 0⟩), ("MB", ⟨pow10 6, 0⟩), ("GB", ⟨pow10 9, 0⟩),
    ("TB", ⟨pow10 12, 0⟩), ("PB", ⟨pow10 15, 0⟩), ("EB", ⟨pow10 18, 0⟩), ("ZB", ⟨pow10 21, 0⟩),
    ("YB", ⟨pow10 24, 0⟩), ("KiB", ⟨pow2 10, 0⟩), ("MiB", ⟨pow2 20, 0⟩), ("GiB", ⟨pow2 30, 0⟩),
    ("TiB", ⟨pow2 40, 0⟩), ("PiB", ⟨pow2 50, 0⟩), ("EiB", ⟨pow2 60, 0⟩), ("ZiB", ⟨pow2 70, 0⟩),
    ("YiB", ⟨pow2 80, 0⟩), ("bit", ⟨125, -3⟩), ("bits", ⟨125, -3⟩), ("nibble", ⟨5, -1⟩),
    ("nibbles", ⟨5, -1⟩)]

/-- A day in milliseconds. -/
def day : Nat := 24 * 60 * 60 * 1000

/-- A twelfth of an average year. -/
def month : UnitFactor := ⟨30436875 * day, -6⟩

/-- An average year of 365.25 days. -/
def year : UnitFactor := ⟨36525 * day, -2⟩

/-- The short symbols of time, whose case matters. -/
def timeSymbols : List (String × UnitFactor) :=
  [("ns", ⟨1, -6⟩), ("us", ⟨1, -3⟩), ("µs", ⟨1, -3⟩), ("ms", ⟨1, 0⟩), ("s", ⟨1000, 0⟩),
    ("sec", ⟨1000, 0⟩), ("m", ⟨60 * 1000, 0⟩), ("min", ⟨60 * 1000, 0⟩), ("h", ⟨60 * 60 * 1000, 0⟩),
    ("d", ⟨day, 0⟩), ("w", ⟨7 * day, 0⟩), ("y", year)]

/-- The long names of time, whose case does not matter. -/
def timeNames : List (String × UnitFactor) :=
  [("nanosecond", ⟨1, -6⟩), ("nanoseconds", ⟨1, -6⟩), ("microsecond", ⟨1, -3⟩),
    ("microseconds", ⟨1, -3⟩), ("millisecond", ⟨1, 0⟩), ("milliseconds", ⟨1, 0⟩),
    ("second", ⟨1000, 0⟩), ("seconds", ⟨1000, 0⟩), ("minute", ⟨60 * 1000, 0⟩),
    ("minutes", ⟨60 * 1000, 0⟩), ("hour", ⟨60 * 60 * 1000, 0⟩), ("hours", ⟨60 * 60 * 1000, 0⟩),
    ("day", ⟨day, 0⟩), ("days", ⟨day, 0⟩), ("week", ⟨7 * day, 0⟩), ("weeks", ⟨7 * day, 0⟩),
    ("month", month), ("months", month), ("year", year), ("years", year)]

/-- The factor of a unit, if the kind knows it. -/
def factor? : UnitKind → String → Option UnitFactor
  | size, unit => sizeUnits.lookup unit
  | time, unit => timeSymbols.lookup unit <|> timeNames.lookup (Text.lower unit)

/-- Every unit of the kind in its table spelling. -/
def unitNames : UnitKind → List String
  | size => sizeUnits.map (·.1)
  | time => timeSymbols.map (·.1) ++ timeNames.map (·.1)

/-- Three units that serve as examples in messages. -/
def examples (kind : UnitKind) : String :=
  ", ".intercalate ((kind.displayUnits.drop (kind.displayUnits.length - 3)).map fun u => s!"'{u}'")

end UnitKind

end RowRecipe
