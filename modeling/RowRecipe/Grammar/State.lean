import RowRecipe.Grammar.Terminal

/-!
# States of the grammar

The grammar is a finite control: after each terminal, its state says which terminals may come next. A
statement is a pragma or a directive with arguments; statements are separated by line ends and
semicolons. Columns, texts and numbers may be joined to lists by commas, and properties stand in braces.
-/

namespace RowRecipe.Grammar

/-- What has been read of a statement. -/
inductive State
  /-- Nothing yet. -/
  | statement
  | pragma
  | version
  | versionEnd
  | loadName
  | loadEnd
  /-- A directive and some arguments; the last one may continue as a list of such terminals. -/
  | arguments (list : Option Terminal)
  /-- A list that needs another such terminal. -/
  | item (kind : Terminal)
  | firstKey
  | nextKey
  | equal
  | value
  | valueEnd
  deriving DecidableEq

namespace State

/-- The state after a terminal, if the terminal may come next. -/
def next? : State → Terminal → Option State
  | statement, .separator => some statement
  | statement, .name => some (arguments none)
  | statement, .pragmaWord => some pragma
  | pragma, .versionWord => some version
  | pragma, .loadWord => some loadName
  | version, .version => some versionEnd
  | versionEnd, .separator => some statement
  | loadName, .name => some loadEnd
  | loadEnd, .comma => some loadName
  | loadEnd, .separator => some statement
  | arguments list, .comma => list.map item
  | arguments _, .separator => some statement
  | arguments _, .opening => some firstKey
  | arguments _, .column => some (arguments (some .column))
  | arguments _, .text => some (arguments (some .text))
  | arguments _, .number => some (arguments (some .number))
  | arguments _, .byteSize | arguments _, .duration | arguments _, .malformedUnit
  | arguments _, .name => some (arguments none)
  | item kind, t => if t = kind then some (arguments (some kind)) else none
  | firstKey, .closing => some (arguments none)
  | firstKey, .name | firstKey, .text | nextKey, .name | nextKey, .text => some equal
  | equal, .equal => some value
  | value, .text | value, .number | value, .name => some valueEnd
  | valueEnd, .comma => some nextKey
  | valueEnd, .closing => some (arguments none)
  | _, _ => none

/-- Whether a recipe may end here. -/
def isFinal : State → Bool
  | statement | versionEnd | loadEnd | arguments _ => true
  | _ => false

/-- The terminals that may come next, in the order in which they are tried. -/
def offers (s : State) : List Terminal :=
  Terminal.all.filter fun t => (s.next? t).isSome

end State

end RowRecipe.Grammar
