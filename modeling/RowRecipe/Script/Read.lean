import RowRecipe.Error
import RowRecipe.Script.Basic
import RowRecipe.Text.Lines
import RowRecipe.Text.Path

/-!
# Reading scripts

A text is a script if scanning reaches its end in a final state. Otherwise there is exactly one error: at
the place where scanning stopped, with the terminals that were expected there.
-/

namespace RowRecipe.Script

open Grammar

/-- The descriptions of the terminals that may come next, in sorted order; at most five are given. -/
def expectation (s : State) : String :=
  let names := (s.offers.map Terminal.description).mergeSort
  ", ".intercalate (names.take 5) ++
    if names.length > 5 then s!" (and {names.length - 5} more)" else ""

/-- What a reader may have meant by a character that starts no terminal. -/
def hint? (c : Char) : Option String :=
  if c = '\'' ∨ c = '"' then some "Check for unclosed string"
  else if c = ':' then some "Column references are written ':name' with no space after ':'"
  else if c = '\x7b' ∨ c = '\x7d' then
    some "Properties are written prop:\x7bkey=value, ...\x7d"
  else if c = '#' then some "Only '#pragma version' and '#pragma load-directives' are recognised"
  else if c = '$' then some "Macros '$\x7bname\x7d' must be expanded before parsing"
  else if !Text.isAlphanumeric c then some s!"Quote single punctuation arguments, e.g. '{c}'"
  else none

/-- What is missing at the end of a text. -/
def missing (s : State) : String :=
  if s.offers.contains .closing then "Missing closing brace '\x7d' in prop:\x7b...\x7d"
  else "Expected: " ++ expectation s

/-- The error of a text on which scanning stopped. Text that would be a terminal elsewhere is told apart
from a character that starts no terminal at all. -/
def diagnosis (source : String) (stop : Stop) : ParseError :=
  let place := Place.origin.after (source.toList.take (source.length - stop.rest.length))
  let error (fault : ParseFault) (literal suggestion : Option String) : ParseError :=
    { fault, literal, suggestion, line := place.line, column := place.column
      context := Text.lineAt? source place.line }
  match stop.rest with
  | [] => error .unexpectedEnd none (some (missing stop.state))
  | c :: cs =>
    match Terminal.all.findSome? fun t => t.cut? (c :: cs) with
    | some r =>
      let text := String.ofList r.1
      error (.unexpectedToken text) (some text) (some ("Expected one of: " ++ expectation stop.state))
    | none => error (.unexpectedCharacter c) (some (String.singleton c)) (hint? c)

/-- The lexemes of a recipe. -/
def lexemes (source : String) : Except ParseError (List Lexeme) :=
  match scan .statement source.toList with
  | .ok pieces => pure (locate .origin pieces)
  | .error stop => throw (diagnosis source stop)

/-- Reads a script. -/
def read (source : String) : Except ParseError Script :=
  (lexemes source).map ofLexemes

/-- The error of a recipe file that does not exist. -/
def fileNotFound (path : String) : ParseError :=
  { fault := .fileNotFound (Text.tidyPath path), line := 1, column := 1, literal := none, context := none
    suggestion := none }

/-- The text of a file whose lines may end in any of the three usual ways. -/
def uniformLines : List Char → List Char
  | '\r' :: '\n' :: cs => '\n' :: uniformLines cs
  | c :: cs => (if c = '\r' then '\n' else c) :: uniformLines cs
  | [] => []

/-- The text that is read from a file with the given content. -/
def sourceOfFile (content : String) : String :=
  String.ofList (uniformLines content.toList)

/-- Reads the script in a file, given its content if the file exists. -/
def readContent (path : String) (content? : Option String) : Except ParseError Script :=
  match content? with
  | some content => read (sourceOfFile content)
  | none => throw (fileNotFound path)

end RowRecipe.Script
