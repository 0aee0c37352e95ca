import RowRecipe.Directive.Aggregate
import RowRecipe.Directive.Columns
import RowRecipe.Directive.ParseUnit
import RowRecipe.Registry

/-!
# The built-in directives

The registry that recipes are compiled against unless the host supplies another one.
-/

namespace RowRecipe

/-- The classes of the built-in directives. -/
def builtinClasses : List DirectiveClass :=
  [Aggregate.directiveClass, Rename.directiveClass, Drop.directiveClass, Keep.directiveClass,
    ParseUnit.directiveClass .size, ParseUnit.directiveClass .time]

/-- The registry of the built-in directives. -/
def Registry.builtin : Registry :=
  ofClasses builtinClasses

end RowRecipe
