import RowRecipe.Script.Read
import RowRecipe.Token.Basic

/-!
# Recipes

What a script says: a group of tokens for every directive, the version, and the names of the directives
that the host has to supply. Literals get their values here, so a literal that has none is reported
with its place.
-/

namespace RowRecipe

open Script

/-- The meaning of a script. -/
structure Recipe where
  groups : List TokenGroup
  version : Option String
  /-- The declared names, each once, in the order of their first declaration. -/
  loadable : List String

/-! ## Literals -/

/-- The character that an escape stands for. -/
def unescaped (c : Char) : Char :=
  if c = 'n' then '\n' else if c = 't' then '\t' else if c = 'r' then '\r'
  else if c = '0' then '\x00' else c

/-- Resolves the escapes of a text. -/
def unescape : List Char → List Char
  | '\\' :: c :: cs => unescaped c :: unescape cs
  | c :: cs => c :: unescape cs
  | [] => []

namespace Script.Lexeme

variable (l : Lexeme)

/-- The text without its first character: the name of a column. -/
def columnName : String :=
  String.ofList (l.text.toList.drop 1)

/-- The text between the quotes, without escapes. -/
def unquoted : String :=
  String.ofList (unescape (l.text.toList.drop 1).dropLast)

/-- The value of a number. Without a point it is a whole number. -/
def numeric : Numeric :=
  let s := Decimal.splitSign l.text.toList
  if s.2.contains '.' then
    let parts := Quantity.numberParts s.2
    .decimal (.finite s.1 parts.1 parts.2)
  else
    let n : Int := Text.digitsValue s.2
    .int (if s.1 then -n else n)

/-- The truth value that a word names, in any case. -/
def truth? : Option Bool :=
  if Text.lower l.text = "true" then some true
  else if Text.lower l.text = "false" then some false
  else none

/-- The error of a literal that has no value. -/
def refused (source : String) (fault : ParseFault) (suggestion : Option String) : ParseError :=
  { fault, suggestion, line := l.start.line, column := l.start.column, literal := some l.text
    context := Text.lineAt? source l.start.line }

/-- The letters behind a number. -/
def unitLetters : String :=
  String.ofList ((l.text.toList.dropWhile (· == '-')).dropWhile fun c => c == '.' || Text.isDigit c)

end Script.Lexeme

/-! ## Arguments -/

namespace Script.Property

/-- The key and the value of a property. -/
def entry (p : Property) : String × Value :=
  let key := if p.key.terminal = .text then p.key.unquoted else p.key.text
  let value := match p.value.terminal with
    | .text => .text p.value.unquoted
    | .number => p.value.numeric.toValue
    | _ => match p.value.truth? with
      | some b => .bool b
      | none => .text p.value.text
  (key, value)

end Script.Property

/-- The units that the error of an unknown unit suggests. -/
def unitAdvice : String :=
  "Byte sizes use B, KB, MB, GB, KiB, MiB, GiB...; " ++
    "durations use ms, s, m, h, d or long forms such as 'seconds'"

/-- One item alone, or the items as a list, with the literals joined by commas. -/
def Token.ofItems {α : Type} (one : α → Meaning) (several : List α → Meaning) (value : Lexeme → α)
    (first : Lexeme) (more : List Lexeme) : Token :=
  if more.isEmpty then ⟨one (value first), first.text⟩
  else ⟨several ((first :: more).map value), ",".intercalate ((first :: more).map (·.text))⟩

namespace Script.Argument

/-- The token of an argument. -/
def token (source : String) : Argument → Except ParseError Token
  | columns first more => pure (.ofItems .columnName .columnNameList Lexeme.columnName first more)
  | texts first more => pure (.ofItems .text .textList Lexeme.unquoted first more)
  | numbers first more => pure (.ofItems .numeric .numericList Lexeme.numeric first more)
  | quantity kind l =>
    match Quantity.ofText kind l.text, kind with
    | .ok q, .size => pure (.of (.byteSize q))
    | .ok q, .time => pure (.of (.timeDuration q))
    | .error e, _ => throw (l.refused source (.refusedLiteral e) none)
  | malformed l => throw (l.refused source (.unknownUnit l.unitLetters l.text) (some unitAdvice))
  | word l =>
    match l.truth? with
    | some b => pure ⟨.boolean b, l.text⟩
    | none => pure ⟨.text l.text, l.text⟩
  | properties opening entries closing =>
    pure ⟨.properties (Mapping.ofEntries (entries.map Property.entry)),
      Text.slice source opening.start.offset closing.stop⟩

end Script.Argument

/-! ## Statements -/

namespace Recipe

/-- The recipe that says nothing. -/
def empty : Recipe := ⟨[], none, []⟩

/-- Declares a name, unless it is declared already. -/
def declare (r : Recipe) (name : String) : Recipe :=
  if r.loadable.contains name then r else { r with loadable := r.loadable ++ [name] }

/-- Adds what a statement says. -/
def extend (source : String) (r : Recipe) : Statement → Except ParseError Recipe
  | .version number => pure { r with version := some number.text }
  | .load names => pure (names.foldl (fun r l => r.declare l.text) r)
  | .directive name arguments => do
    let tokens ← arguments.mapM (Argument.token source)
    let last := (arguments.getLast?.map Argument.last).getD name
    let group : TokenGroup :=
      { name := name.text, arguments := tokens, line := name.start.line
        source := Text.slice source name.start.offset last.stop }
    return { r with groups := r.groups ++ [group] }

/-- The meaning of a script. The source is the text that the script was read from; without it, the
groups have no source texts. -/
def ofScript (script : Script) (source : String) : Except ParseError Recipe :=
  script.statements.foldlM (extend source) empty

/-- Reads a recipe. -/
def ofText (source : String) : Except ParseError Recipe := do
  ofScript (← Script.read source) source

/-- The names of the directives, one for each statement. -/
def directiveNames (r : Recipe) : List String :=
  r.groups.map (·.name)

end Recipe

end RowRecipe
