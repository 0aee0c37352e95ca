import RowRecipe.Mapping
import RowRecipe.Unit.Summary

/-!
# Tokens

Every argument of a statement is a token: what the argument means, and the literal text it was read
from. Tokens are compared by what they mean, so `1000KB` and `1MB` are equal tokens.
-/

namespace RowRecipe

/-- The variants of tokens. -/
inductive TokenType
  | directiveName
  | text
  | numeric
  | boolean
  | columnName
  | columnNameList
  | textList
  | numericList
  | properties
  | byteSize
  | timeDuration
  deriving DecidableEq

namespace TokenType

/-- The name of a variant in messages and summaries. -/
def name : TokenType → String
  | directiveName => "DIRECTIVE_NAME"
  | text => "TEXT"
  | numeric => "NUMERIC"
  | boolean => "BOOLEAN"
  | columnName => "COLUMN_NAME"
  | columnNameList => "COLUMN_NAME_LIST"
  | textList => "TEXT_LIST"
  | numericList => "NUMERIC_LIST"
  | properties => "PROPERTIES"
  | byteSize => "BYTE_SIZE"
  | timeDuration => "TIME_DURATION"

def all : List TokenType :=
  [directiveName, text, numeric, boolean, columnName, columnNameList, textList, numericList, properties,
    byteSize, timeDuration]

def ofName? (s : String) : Option TokenType :=
  all.find? (·.name == s)

/-- Several variants, as messages offer them. -/
def alternatives (types : List TokenType) : String :=
  "|".intercalate (types.map name)

end TokenType

/-- A number of a statement: a whole one, or one with a decimal point. -/
inductive Numeric
  | int (n : Int)
  | decimal (d : Decimal)
  deriving DecidableEq

namespace Numeric

def text : Numeric → String
  | int n => toString n
  | decimal d => d.text

def toValue : Numeric → Value
  | int n => .int n
  | decimal d => .decimal d

/-- The number without its decimal digits: a decimal becomes the nearest double. -/
def summary : Numeric → Except NumberError Value
  | int n => pure (.int n)
  | decimal d => (Double.ofDecimal d).map .double

end Numeric

/-- What an argument means. -/
inductive Meaning
  | directiveName (name : String)
  | text (value : String)
  | numeric (value : Numeric)
  | boolean (value : Bool)
  | columnName (name : String)
  | columnNameList (names : List String)
  | textList (values : List String)
  | numericList (values : List Numeric)
  | properties (entries : List (String × Value))
  | byteSize (value : Quantity)
  | timeDuration (value : Quantity)

namespace Meaning

def type : Meaning → TokenType
  | directiveName _ => .directiveName
  | text _ => .text
  | numeric _ => .numeric
  | boolean _ => .boolean
  | columnName _ => .columnName
  | columnNameList _ => .columnNameList
  | textList _ => .textList
  | numericList _ => .numericList
  | properties _ => .properties
  | byteSize _ => .byteSize
  | timeDuration _ => .timeDuration

/-- The meaning as a dynamic value; properties are a sequence of pairs. -/
def toValue : Meaning → Value
  | directiveName s | text s | columnName s => .text s
  | numeric n => n.toValue
  | boolean b => .bool b
  | columnNameList ss | textList ss => .tuple (ss.map .text)
  | numericList ns => .tuple (ns.map Numeric.toValue)
  | properties es => .tuple (es.map fun e => .tuple [.text e.1, e.2])
  | byteSize q | timeDuration q => .quantity q

/-- The literal of an argument that was not read from a text. -/
def literal : Meaning → String
  | directiveName s | text s => s
  | numeric n => n.text
  | boolean b => if b then "true" else "false"
  | columnName s => ":" ++ s
  | columnNameList ss => ",".intercalate (ss.map fun s => ":" ++ s)
  | textList ss => ",".intercalate (ss.map fun s => s!"'{s}'")
  | numericList ns => ",".intercalate (ns.map Numeric.text)
  | properties es =>
    "prop:\x7b" ++ ", ".intercalate (es.map fun e => e.1 ++ "=" ++ e.2.plain) ++ "\x7d"
  | byteSize q | timeDuration q => q.literal

end Meaning

/-- One argument of a statement. -/
structure Token where
  meaning : Meaning
  /-- The text the argument was read from. -/
  literal : String

namespace Token

/-- A token with its usual literal. -/
def of (meaning : Meaning) : Token :=
  ⟨meaning, meaning.literal⟩

variable (t : Token)

def type : TokenType := t.meaning.type

def value : Value := t.meaning.toValue

/-- Whether two tokens mean the same. -/
def same (u : Token) : Except NumberError Bool :=
  if t.type = u.type then t.value.same u.value else pure false

/-- The entries of a token of properties. -/
def properties? : Option (Mapping Value) :=
  match t.meaning with
  | .properties es => some (Mapping.ofEntries es)
  | _ => none

/-- Why a token of this variant has no entries. -/
def noProperties : String :=
  s!"{t.type.name} token has no properties"

/-- The value of a token in its summary. -/
def summaryValue : Except NumberError Value :=
  match t.meaning with
  | .numeric n => n.summary
  | .numericList ns => (ns.mapM Numeric.summary).map .list
  | .columnNameList ss | .textList ss => pure (.list (ss.map .text))
  | .properties es => pure (.map (Mapping.ofEntries es))
  | m => pure m.toValue

/-- The summary of a token: that of its quantity, or the variant, the value and the literal. -/
def summary : Except NumberError (List (String × Value)) :=
  match t.meaning with
  | .byteSize q | .timeDuration q => pure q.summary
  | _ => do
    return [("type", .text t.type.name), ("value", ← t.summaryValue), ("literal", .text t.literal)]

end Token

/-- The tokens of one statement: the name of its directive and the arguments in source order. -/
structure TokenGroup where
  name : String
  arguments : List Token
  /-- The line on which the statement starts, counted from one. -/
  line : Int
  /-- The text of the statement, which may be unknown. -/
  source : String

namespace TokenGroup

/-- A group of tokens has to start with the name of a directive. -/
def ofTokens? (tokens : List Token) (line : Int) (source : String) : Option TokenGroup :=
  match tokens with
  | ⟨.directiveName name, _⟩ :: arguments => some { name, arguments, line, source }
  | _ => none

/-- Why tokens form no group. -/
def noName : String :=
  "A token group must start with a directive name token"

variable (g : TokenGroup)

/-- All tokens, the name first. -/
def tokens : List Token :=
  .of (.directiveName g.name) :: g.arguments

/-- The token at an index; negative indexes count from the end. -/
def get? (index : Int) : Option Token :=
  let i := if index < 0 then index + g.tokens.length else index
  if i < 0 then none else g.tokens[i.toNat]?

/-- The source, or else the literals of the tokens. -/
def text : String :=
  if g.source.isEmpty then " ".intercalate (g.tokens.map (·.literal)) else g.source

end TokenGroup

end RowRecipe
