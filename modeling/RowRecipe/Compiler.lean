import RowRecipe.Macro
import RowRecipe.Migration
import RowRecipe.Recipe

/-!
# Compiling recipes

A compiler prepares the text of a recipe and reads it: macros are expanded, configured names are declared
as supplied by the host, and legacy recipes are migrated. Reading gives the recipe or its first error.
-/

namespace RowRecipe

/-- How recipes are compiled. -/
structure Compiler where
  registry : Registry
  /-- Whether legacy recipes are migrated. -/
  migratesLegacy : Bool
  /-- The names that are declared in front of every recipe. -/
  loadDirectives : List String

/-- A recipe with the text it was read from; there is no text if preparing it failed. -/
structure Compilation where
  source? : Option String
  outcome : Except RecipeError Recipe

namespace Compiler

variable (c : Compiler)

/-- The text that is read. -/
def prepare (text : String) (macros : Macros) : Except CompileError String := do
  let text := Dialect.declareLoadable c.loadDirectives (← macros.expand text)
  if (← Dialect.isLegacy text) && c.migratesLegacy then
    return Migration.migrate (some c.registry) text
  else return text

/-- Prepares and reads a recipe. -/
def compile (text : String) (macros : Macros) : Compilation :=
  match c.prepare text macros with
  | .error e => ⟨none, throw (.compile e)⟩
  | .ok source => ⟨some source, (Recipe.ofText source).mapError .parse⟩

end Compiler

end RowRecipe
