import RowRecipe.Context
import RowRecipe.Fault
import RowRecipe.Usage.Bind

/-!
# Errors of the engine

Everything the engine reports about a recipe, its configuration or a batch. Each kind of error is a cause
with the details that its readers ask for; the wording of a cause is one function.
-/

namespace RowRecipe

/-- What is wrong with a text. -/
inductive ParseFault
  | unexpectedToken (text : String)
  | unexpectedCharacter (c : Char)
  | unexpectedEnd
  | unknownUnit (unit literal : String)
  | refusedLiteral (error : FormatError)
  | fileNotFound (path : String)

/-- A text that is no recipe, with the place of the fault. -/
structure ParseError where
  fault : ParseFault
  /-- The line, counted from one. -/
  line : Nat
  /-- The column in characters, counted from one. -/
  column : Nat
  /-- The text at the place. -/
  literal : Option String
  /-- The line of text. -/
  context : Option String
  suggestion : Option String

namespace ParseError

variable (e : ParseError)

/-- What is wrong, without the place. -/
def text : String :=
  match e.fault with
  | .unexpectedToken text => s!"Unexpected token '{text}'"
  | .unexpectedCharacter c => s!"Unexpected character '{c}'"
  | .unexpectedEnd => "Unexpected end of recipe"
  | .unknownUnit unit literal => s!"Unknown unit '{unit}' in literal '{literal}'"
  | .refusedLiteral error => error.message
  | .fileNotFound path => s!"File not found: {path}"

/-- A detail on a line of its own, unless it is empty. -/
def detail (label : String) (d : Option String) : String :=
  match d with
  | some s => if s.isEmpty then "" else s!"\n  {label}: {s}"
  | none => ""

def message : String :=
  s!"Parse error at line {e.line}, column {e.column}: {e.text}" ++
    detail "Context" e.context ++ detail "Suggestion" e.suggestion

end ParseError

/-- Why a recipe or a directive is refused before any batch runs. -/
inductive CompileError
  | unnamedDirective (label : String)
  | alreadyRegistered (name label : String)
  | foreignUsage (label found name : String)
  | unknownDirective (name : String)
  | undeclared (name : String) (line : Int)
  | notInitialized (name : String) (line : Int) (reason : String)
  | unsupportedVersion (version : String)
  | unsettledMacros
  | unresolved (names : List String)

namespace CompileError

def message : CompileError → String
  | unnamedDirective label => s!"Directive class {label} has no NAME"
  | alreadyRegistered name label => s!"Directive '{name}' is already registered ({label})"
  | foreignUsage label found name =>
    s!"Usage definition of {label} is for '{found}', expected '{name}'"
  | unknownDirective name => s!"Unknown directive '{name}'"
  | undeclared name line =>
    s!"Directive '{name}' at line {line} is not registered and was not declared with " ++
      "'#pragma load-directives'"
  | notInitialized name line reason =>
    s!"Directive '{name}' at line {line} failed to initialize: {reason}"
  | unsupportedVersion version =>
    s!"Unsupported recipe version '{version}'; supported versions are 1.x and 2.x"
  | unsettledMacros => "Macro references do not settle"
  | unresolved names =>
    "Cannot run a recipe with unresolved loadable directives: " ++ ", ".intercalate names

/-- The directive in question. -/
def directive? : CompileError → Option String
  | alreadyRegistered name _ | foreignUsage _ _ name | unknownDirective name | undeclared name _
  | notInitialized name _ _ => some name
  | unresolved names => names.head?
  | unnamedDirective _ | unsupportedVersion _ | unsettledMacros => none

/-- The line of the statement in question. -/
def line? : CompileError → Option Int
  | undeclared _ line | notInitialized _ line _ => some line
  | _ => none

end CompileError

/-- Why a setting is refused. -/
inductive ConfigFault
  | unknownEnvironment (text : String)
  | unknownUnit (kind : UnitKind) (option unit : String)
  | unknownAggregation (mode : String)
  /-- Reported by a directive of the host in its own words. -/
  | reported (message : String)

/-- A setting that is not among the known ones. -/
structure ConfigError where
  fault : ConfigFault
  directive : Option String
  option : Option String
  value : Value

namespace ConfigError

variable (e : ConfigError)

def message : String :=
  match e.fault with
  | .unknownEnvironment text => Environment.unknown text
  | .unknownUnit kind option unit =>
    s!"Unknown {kind.label} unit '{unit}' for {option}. Valid units include: " ++
      ", ".intercalate kind.unitNames
  | .unknownAggregation mode =>
    s!"Invalid aggregation type '{mode}'. Supported types are: TOTAL, AVERAGE"
  | .reported message => message

end ConfigError

/-- What stops a batch. -/
inductive ExecutionFault
  | notReady (pipeline state : String)
  | failed (directive reason : String)
  | noRows (directive : String)
  | columnExists (row : Nat) (source target : String)
  | malformedCell (row : Nat) (column : String) (kind : UnitKind) (error : FormatError)
  | foreignCell (row : Nat) (column : String) (kind : UnitKind) (found : String)
  | unreadableCell (row : Nat) (error : FormatError)
  | notText (row : Nat) (column found : String)
  /-- Reported by a directive of the host in its own words. -/
  | reported (message : String)

/-- A batch that was stopped, with the place if it is known. -/
structure ExecutionError where
  fault : ExecutionFault
  directive : Option String
  row : Option Nat
  column : Option String
  value : Value

namespace ExecutionError

variable (e : ExecutionError)

def message : String :=
  match e.fault with
  | .notReady pipeline state => s!"Pipeline '{pipeline}' is {state} and accepts no more batches"
  | .failed directive reason => s!"Directive '{directive}' failed: {reason}"
  | .noRows directive =>
    s!"Directive '{directive}' returned no rows; return an empty list instead"
  | .columnExists row source target =>
    s!"Row {row}: cannot rename '{source}' to '{target}', column '{target}' already exists"
  | .malformedCell row column kind error =>
    s!"Row {row}: column '{column}' is not a valid {kind.label}: {error.message}"
  | .foreignCell row column kind found =>
    s!"Row {row}: column '{column}' is not a valid {kind.label}. Found type: {found}"
  | .unreadableCell row error => s!"Row {row}: {error.message}"
  | .notText row column found => s!"Row {row}: column '{column}' holds {found}, expected text"
  | .reported message => message

end ExecutionError

/-- An error of the engine. -/
inductive RecipeError
  | format (e : FormatError)
  | parse (e : ParseError)
  | bind (e : BindError)
  | compile (e : CompileError)
  | config (e : ConfigError)
  | execution (e : ExecutionError)

namespace RecipeError

/-- The name of the kind of error. -/
def kind : RecipeError → String
  | format _ => "FormatError"
  | parse _ => "ParseError"
  | bind _ => "BindError"
  | compile _ => "CompileError"
  | config _ => "ConfigError"
  | execution _ => "ExecutionError"

def message : RecipeError → String
  | format e => e.message
  | parse e => e.message
  | bind e => e.message
  | compile e => e.message
  | config e => e.message
  | execution e => e.message

/-- Names the directive that an error came from, if the error can say so and does not yet. -/
def blame (directive : String) : RecipeError → RecipeError
  | config e => config { e with directive := e.directive <|> some directive }
  | execution e => execution { e with directive := e.directive <|> some directive }
  | e => e

end RecipeError

/-- What can go wrong in a directive: an error of the engine, a refused usage, or anything else. -/
inductive Failure
  | recipe (e : RecipeError)
  | usage (e : UsageError)
  | fault (f : Fault)

namespace Failure

/-- The kind and the text of a failure, as a message quotes them. -/
def describe : Failure → String
  | recipe e => s!"{e.kind}: {e.message}"
  | usage e => (Fault.value e.message).describe
  | fault f => f.describe

end Failure

end RowRecipe
