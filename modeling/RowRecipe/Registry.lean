import RowRecipe.Directive.Basic

/-!
# The registry

A registry maps names to classes of directives, keeps the usage of each class, and indexes the names by
category in order of registration.
-/

namespace RowRecipe

/-- The registered classes, their usages, and the names in each category. -/
structure Registry where
  classes : Mapping DirectiveClass
  usages : Mapping UsageDefinition
  categoryNames : Mapping (List String)

namespace Registry

def empty : Registry := ⟨[], [], []⟩

variable (r : Registry)

def class? (name : String) : Option DirectiveClass :=
  r.classes.get? name

def has (name : String) : Bool :=
  r.classes.has name

/-- The registered names, sorted. -/
def names : List String :=
  r.classes.keys.mergeSort

/-- Removes a class. Its name also leaves every category. -/
def unregister (name : String) : Registry :=
  if r.has name then
    { classes := r.classes.remove name
      usages := r.usages.remove name
      categoryNames := r.categoryNames.map fun c => (c.1, c.2.erase name) }
  else r

/-- Adds a name to a category, unless it is there already. -/
def index (name : String) (categories : Mapping (List String)) (category : String) :
    Mapping (List String) :=
  let names := (categories.get? category).getD []
  categories.put category (if names.contains name then names else names ++ [name])

/-- Registers a class under its name. With `replace`, a class of the same name is removed first. -/
def register (c : DirectiveClass) (replace : Bool) : Except Failure Unit × Registry :=
  let refused (e : CompileError) : Except Failure Unit := throw (.recipe (.compile e))
  if c.name.isEmpty then (refused (.unnamedDirective c.label), r)
  else
    match r.class? c.name, replace with
    | some old, false => (refused (.alreadyRegistered c.name old.label), r)
    | _, _ =>
      let r := r.unregister c.name
      match c.define with
      | .error e => (throw e, r)
      | .ok usage =>
        if usage.directive != c.name then
          (refused (.foreignUsage c.label usage.directive c.name), r)
        else
          (pure (), { classes := r.classes.put c.name c
                      usages := r.usages.put c.name usage
                      categoryNames := c.categories.foldl (index c.name) r.categoryNames })

/-- Removes every class. -/
def clear (_ : Registry) : Registry := empty

/-- The classes in a category, in order of registration. -/
def byCategory (category : String) : List DirectiveClass :=
  ((r.categoryNames.get? category).getD []).filterMap r.class?

/-- The categories that have classes, sorted. -/
def categories : List String :=
  ((r.categoryNames.filter fun c => !c.2.isEmpty).map (·.1)).mergeSort

/-- The usage of a registered class. -/
def usage (name : String) : Except CompileError UsageDefinition :=
  match r.usages.get? name with
  | some u => pure u
  | none => throw (.unknownDirective name)

/-- The class registered under a name. -/
def require (name : String) : Except CompileError DirectiveClass :=
  match r.class? name with
  | some c => pure c
  | none => throw (.unknownDirective name)

/-- A registry with the given classes; a refused class is left out. -/
def ofClasses (classes : List DirectiveClass) : Registry :=
  classes.foldl (fun r c => (r.register c false).2) empty

/-- The text of a registry. -/
def text : String :=
  "DirectiveRegistry(" ++ (Value.list (r.names.map .text)).quoted ++ ")"

end Registry

end RowRecipe
