import RowRecipe.Mapping
import RowRecipe.Value.Text

/-!
# The context of a batch

Where a pipeline runs, its name, and the properties of the current batch. The last batch of a stream is
marked by a property; in the testing environment every batch counts as the last one.
-/

namespace RowRecipe

/-- Where a pipeline runs. -/
inductive Environment
  | service
  | transform
  | microservice
  | testing
  deriving DecidableEq

namespace Environment

def name : Environment → String
  | service => "service"
  | transform => "transform"
  | microservice => "microservice"
  | testing => "testing"

def all : List Environment := [service, transform, microservice, testing]

/-- Reads the name of an environment; case and blanks at the ends do not matter. -/
def ofText? (text : String) : Option Environment :=
  all.find? fun e => e.name == Text.lower (Text.trimmed text)

/-- Why a text names no environment. -/
def unknown (text : String) : String :=
  s!"Unknown environment '{text}'. Valid values: " ++ ", ".intercalate (all.map name)

end Environment

/-- What a directive is told about the batch it runs on. -/
structure Context where
  environment : Environment
  properties : Mapping Value
  name : String

namespace Context

/-- The property that marks the last batch. -/
def lastProperty : String := "isLast"

/-- Whether properties mark a batch as the last one. -/
def marksLast (properties : Mapping Value) : Bool :=
  match properties.get? lastProperty with
  | none | some .null => false
  | some v => Text.lower v.plain == "true"

/-- Whether the batch is the last one of its stream. -/
def isLast (c : Context) : Bool :=
  c.environment == .testing || marksLast c.properties

end Context

end RowRecipe
