import RowRecipe.Grammar.Literal

/-!
# Terminals

The words of the grammar. Every terminal has a symbol, under which trees show it, a form that cuts it
from a text, and a description for readers of error messages.
-/

namespace RowRecipe.Grammar

/-- The terminals of the grammar. -/
inductive Terminal
  | opening
  | duration
  | byteSize
  | malformedUnit
  | number
  | version
  | separator
  | pragmaWord
  | comma
  | equal
  | closing
  | column
  | name
  | text
  | versionWord
  | loadWord
  deriving DecidableEq

namespace Terminal

/-- All terminals, in the order in which they are tried: the longer forms of a number come before the
shorter ones, the opening of properties before a name, and a name before the words of a pragma. -/
def all : List Terminal :=
  [opening, duration, byteSize, malformedUnit, number, version, separator, pragmaWord, comma, equal,
    closing, column, name, text, versionWord, loadWord]

theorem mem_all (t : Terminal) : t ∈ all := by
  cases t <;> decide

/-- The symbol of a terminal. -/
def symbol : Terminal → String
  | opening => "PROP_OPEN"
  | duration => "TIME_DURATION"
  | byteSize => "BYTE_SIZE"
  | malformedUnit => "MALFORMED_UNIT"
  | number => "NUMBER"
  | version => "VERSION"
  | separator => "_SEP"
  | pragmaWord => "__ANON_0"
  | comma => "COMMA"
  | equal => "EQUAL"
  | closing => "RBRACE"
  | column => "COLUMN"
  | name => "NAME"
  | text => "STRING"
  | versionWord => "__ANON_1"
  | loadWord => "__ANON_2"

/-- The terminal as an error message offers it. -/
def description : Terminal → String
  | opening => "prop:\x7b"
  | duration => "duration (e.g. 500ms)"
  | byteSize => "byte size (e.g. 10MB)"
  | number => "number"
  | version => "version number"
  | separator => "newline or ';'"
  | comma => "','"
  | equal => "'='"
  | closing => "'\x7d'"
  | column => ":column"
  | name => "directive or word"
  | text => "'text'"
  | t => t.symbol

/-- Cuts the terminal from the start of a text. -/
def cut? : Terminal → List Char → Option Cut
  | opening => openingCut?
  | duration => quantityCut? .time
  | byteSize => quantityCut? .size
  | malformedUnit => malformedCut?
  | number => numberCut?
  | version => versionCut?
  | separator => runCut? (fun c => c == ';' || c == '\n') (fun _ => false)
  | pragmaWord => wordCut? "#pragma".toList
  | comma => wordCut? [',']
  | equal => wordCut? ['=']
  | closing => wordCut? ['\x7d']
  | column => columnCut?
  | name => nameCut?
  | text => textCut?
  | versionWord => wordCut? "version".toList
  | loadWord => wordCut? "load-directives".toList

theorem cut?_of {t : Terminal} {cs : List Char} {r : Cut} (h : t.cut? cs = some r) : r.Of cs := by
  cases t with
  | opening => exact openingCut?_of h
  | duration => exact quantityCut?_of h
  | byteSize => exact quantityCut?_of h
  | malformedUnit => exact malformedCut?_of h
  | number => exact numberCut?_of h
  | version => exact versionCut?_of h
  | separator => exact runCut?_of h
  | column => exact columnCut?_of h
  | name => exact runCut?_of h
  | text => exact textCut?_of h
  | pragmaWord => exact wordCut?_of (by decide) h
  | comma => exact wordCut?_of (by decide) h
  | equal => exact wordCut?_of (by decide) h
  | closing => exact wordCut?_of (by decide) h
  | versionWord => exact wordCut?_of (by decide) h
  | loadWord => exact wordCut?_of (by decide) h

end Terminal

/-- What may stand between terminals: blanks of a line, or a comment up to the end of the line. -/
def gapCut? : List Char → Option Cut
  | '/' :: '/' :: cs => some ('/' :: '/' :: cs.takeWhile (· != '\n'), cs.dropWhile (· != '\n'))
  | cs =>
    let blank (c : Char) : Bool := c == ' ' || c == '\t' || c == '\x0c' || c == '\r'
    runCut? blank blank cs

theorem gapCut?_of {cs : List Char} {r : Cut} (h : gapCut? cs = some r) : r.Of cs := by
  unfold gapCut? at h
  split at h
  next =>
    cases h
    exact ⟨List.cons_ne_nil _ _, by simp⟩
  next => exact runCut?_of h

end RowRecipe.Grammar
