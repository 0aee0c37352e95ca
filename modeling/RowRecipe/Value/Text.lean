import RowRecipe.Number.Double.Text
import RowRecipe.Text.Quoted
import RowRecipe.Value.Basic

/-!
# The text of a value

A value is written plainly, as it appears inside a message, or quoted, as it appears inside other values.
Only texts, decimals and quantities differ between the two. An integer with too many digits cannot be
written.
-/

namespace RowRecipe

namespace Quantity

/-- The quantity with the name of its type. -/
def quoted (q : Quantity) : String :=
  s!"{q.kind.typeName}({Text.quoted q.literal})"

end Quantity

namespace Value

mutual

/-- The quoted form of a value. -/
def quoted : Value → String
  | null => "None"
  | bool true => "True"
  | bool false => "False"
  | int n => toString n
  | double d => d.text
  | decimal d => s!"Decimal('{d.text}')"
  | text s => Text.quoted s
  | quantity q => q.quoted
  | list items => "[" ++ ", ".intercalate (quotedItems items) ++ "]"
  | tuple [v] => "(" ++ v.quoted ++ ",)"
  | tuple items => "(" ++ ", ".intercalate (quotedItems items) ++ ")"
  | map entries => "\x7b" ++ ", ".intercalate (quotedEntries entries) ++ "\x7d"

/-- The quoted forms of the items of a sequence. -/
def quotedItems : List Value → List String
  | [] => []
  | v :: vs => v.quoted :: quotedItems vs

/-- The quoted forms of the entries of a mapping. -/
def quotedEntries : List (String × Value) → List String
  | [] => []
  | (k, v) :: es => (Text.quoted k ++ ": " ++ v.quoted) :: quotedEntries es

end

/-- The plain form of a value. -/
def plain : Value → String
  | text s => s
  | decimal d => d.text
  | quantity q => q.literal
  | v => v.quoted

/-- The greatest number of digits of an integer that can be written. -/
def greatestDigits : Nat := 4300

mutual

/-- Whether a value can be written: no integer in it is too long. -/
def isWritable : Value → Bool
  | int n => digitCount n.natAbs ≤ greatestDigits
  | list items | tuple items => areWritable items
  | map entries => entriesAreWritable entries
  | _ => true

def areWritable : List Value → Bool
  | [] => true
  | v :: vs => v.isWritable && areWritable vs

def entriesAreWritable : List (String × Value) → Bool
  | [] => true
  | (_, v) :: es => v.isWritable && entriesAreWritable es

end

mutual

/-- The value as JSON in one line. Numbers that JSON lacks are written by name. -/
def json : Value → String
  | null => "null"
  | bool true => "true"
  | bool false => "false"
  | double (.infinite negative) => if negative then "-Infinity" else "Infinity"
  | double .nan => "NaN"
  | list items | tuple items => "[" ++ ", ".intercalate (jsonItems items) ++ "]"
  | map entries => "\x7b" ++ ", ".intercalate (jsonEntries entries) ++ "\x7d"
  | text s => Text.json s
  | int n => toString n
  | double d => d.text
  | decimal d => d.text
  | quantity q => Text.json q.literal

def jsonItems : List Value → List String
  | [] => []
  | v :: vs => v.json :: jsonItems vs

def jsonEntries : List (String × Value) → List String
  | [] => []
  | (k, v) :: es => (Text.json k ++ ": " ++ v.json) :: jsonEntries es

end

end Value

end RowRecipe
