import RowRecipe.Error
import RowRecipe.Text.Path
import RowRecipe.Value.Json
import RowRecipe.Value.Text

/-!
# Settings

The engine is configured by variables of its surroundings and by a file, a JSON object. A variable wins
over the file, and the file over the defaults. Both may hold any value; every reader says how it takes
what it finds.
-/

namespace RowRecipe

/-- The texts of variables by name. -/
abbrev Variables := Mapping String

/-- What the engine is configured by. -/
structure Settings where
  surroundings : Variables
  /-- The entries of the file; there are none without a file. -/
  entries : Mapping Value

namespace Settings

/-- The settings with their defaults. -/
def defaults : Mapping Value :=
  [("environment", .text "transform"), ("migrate_legacy", .bool true), ("load_directives", .text ""),
    ("log_dir", .null), ("debug_log", .bool false), ("log_level", .text "WARNING")]

/-- The variable of a setting. -/
def variableOf? (key : String) : Option String :=
  if Mapping.has defaults key then some (key.map Char.toUpper) else none

/-- The directory of the settings file. -/
def projectRoot (surroundings : Variables) : String :=
  Text.tidyPath ((Mapping.get? surroundings "PROJECT_ROOT").getD "")

/-- The entries of a settings file. Only an object is a settings file. -/
def entriesOf? (file : String) : Option (Mapping Value) :=
  match Json.read? file with
  | some (.map entries) => some entries
  | _ => none

variable (s : Settings)

/-- The value of a setting. The fallback is used if it is not null, and else the default. -/
def get (key : String) (fallback : Value) : Value :=
  match (variableOf? key).bind fun name => Mapping.get? s.surroundings name with
  | some text => .text text
  | none =>
    match Mapping.get? s.entries key with
    | some v => v
    | none =>
      match fallback with
      | .null => (Mapping.get? defaults key).getD .null
      | v => v

/-- How a setting that is on or off is read: a text has to say so. -/
def asBool : Value → Bool
  | .bool b => b
  | .null => false
  | v => ["true", "1", "yes", "on"].contains (Text.lower (Text.trimmed v.plain))

/-- How a list of names is read: the items of a sequence, or a text divided by commas. -/
def asList (v : Value) : List String :=
  let items := match v with
    | .null => []
    | .list items | .tuple items => items.map Value.plain
    | v => v.plain.splitOn ","
  (items.map Text.trimmed).filter (!·.isEmpty)

end Settings

/-- The settings of the engine, as it uses them. -/
structure EngineSettings where
  environment : Environment
  migratesLegacy : Bool
  loadDirectives : List String
  logDirectory : Value
  debugLog : Bool
  logLevel : String

namespace Settings

variable (s : Settings)

/-- The settings that the engine uses. Only an unknown environment is refused. -/
def engine : Except ConfigError EngineSettings :=
  let environment := s.get "environment" .null
  match Environment.ofText? environment.plain with
  | none =>
    throw { fault := .unknownEnvironment environment.plain, directive := none
            option := some "environment", value := environment }
  | some e =>
    let level := s.get "log_level" .null
    pure { environment := e
           migratesLegacy := asBool (s.get "migrate_legacy" .null)
           loadDirectives := asList (s.get "load_directives" .null)
           logDirectory := s.get "log_dir" .null
           debugLog := asBool (s.get "debug_log" .null)
           logLevel := if level.isGiven then Text.upper level.plain else "WARNING" }

end Settings

end RowRecipe
