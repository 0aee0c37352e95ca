import RowRecipe.Compiler
import RowRecipe.Directive.Basic

/-!
# Compiled recipes

A recipe is built by binding and initializing a directive for every statement, in order. Names that the
host has to supply may stay open until they are resolved. The first failure stops the build, and the
directives built so far are destroyed in their order.
-/

namespace RowRecipe

/-- Binds a statement and initializes a directive of the class. The usage may be known already; else the
class is asked. A failure that is no error of the engine becomes one. -/
def DirectiveClass.instantiate (c : DirectiveClass) (group : TokenGroup)
    (usage? : Option UsageDefinition) : Except RecipeError Directive :=
  let made : Except Failure Directive := do
    let usage ← match usage? with
      | some usage => pure usage
      | none => c.define
    match group.bind usage with
    | .ok arguments => c.create arguments
    | .error e => throw (.recipe (.bind e))
  match made with
  | .ok d => pure d
  | .error (.recipe e) => throw e
  | .error f => throw (.compile (.notInitialized group.name group.line f.describe))

/-- A statement of a compiled recipe: a directive, or a name that is still open. -/
inductive Step
  | directive (d : Directive)
  | external (e : ExternalDirective)

namespace Step

/-- The initialized directive, if there is one. -/
def directive? : Step → Option Directive
  | directive d => some d
  | external _ => none

/-- The name that is still open. -/
def openName? : Step → Option String
  | directive _ => none
  | external e => some e.name

end Step

/-- Destroys directives in order; the first failure ends it. -/
def destroyAll : List Directive → Farewell Unit
  | [] => pure ()
  | d :: ds => do
    d.destroy
    destroyAll ds

/-- A recipe with a step for every statement. -/
structure CompiledRecipe where
  steps : List Step
  recipe : Recipe

namespace CompiledRecipe

variable (r : CompiledRecipe)

/-- The initialized directives, in order. -/
def directives : List Directive :=
  r.steps.filterMap Step.directive?

/-- The names that are still open, in order. -/
def unresolved : List String :=
  r.steps.filterMap Step.openName?

/-- Fills open names from the given classes, up to the first failure. Names without a class stay open. -/
def resolveSteps (classes : Mapping DirectiveClass) : List Step → Option RecipeError × List Step
  | [] => (none, [])
  | .directive d :: ss =>
    let rest := resolveSteps classes ss
    (rest.1, .directive d :: rest.2)
  | .external e :: ss =>
    let passed (s : Step) : Option RecipeError × List Step :=
      let rest := resolveSteps classes ss
      (rest.1, s :: rest.2)
    match classes.get? e.name with
    | none => passed (.external e)
    | some c =>
      match c.instantiate e.group none with
      | .error error => (some error, .external e :: ss)
      | .ok d => passed (.directive d)

/-- Resolves open names. A failure leaves the names before it resolved. -/
def resolve (classes : Mapping DirectiveClass) : Option RecipeError × CompiledRecipe :=
  let resolved := resolveSteps classes r.steps
  (resolved.1, { r with steps := resolved.2 })

/-- Destroys the initialized directives. -/
def destroy : Farewell Unit :=
  destroyAll r.directives

end CompiledRecipe

namespace Compiler

variable (c : Compiler)

/-- The step for a statement. A registered name wins; else the name has to be declared, and a class that
the host supplies is used if there is one. -/
def buildStep (external : Mapping DirectiveClass) (loadable : List String) (group : TokenGroup) :
    Except RecipeError Step :=
  match c.registry.class? group.name with
  | some d => (d.instantiate group (c.registry.usages.get? group.name)).map .directive
  | none =>
    if loadable.contains group.name then
      match external.get? group.name with
      | some d => (d.instantiate group none).map .directive
      | none => pure (.external ⟨group.name, group⟩)
    else throw (.compile (.undeclared group.name group.line))

/-- The steps of statements up to the first one that fails, and its error. -/
def buildSteps (external : Mapping DirectiveClass) (loadable : List String) :
    List TokenGroup → List Step × Option RecipeError
  | [] => ([], none)
  | g :: gs =>
    match c.buildStep external loadable g with
    | .error e => ([], some e)
    | .ok s =>
      let rest := buildSteps external loadable gs
      (s :: rest.1, rest.2)

/-- Compiles a recipe and builds its steps. If a statement fails, the steps before it are destroyed. -/
def build (text : String) (macros : Macros) (external : Mapping DirectiveClass) :
    Farewell (Except RecipeError CompiledRecipe) :=
  match (c.compile text macros).outcome with
  | .error e => pure (throw e)
  | .ok recipe =>
    match c.buildSteps external recipe.loadable recipe.groups with
    | (steps, none) => pure (pure ⟨steps, recipe⟩)
    | (steps, some e) => do
      destroyAll (steps.filterMap Step.directive?)
      return throw e

end Compiler

end RowRecipe
