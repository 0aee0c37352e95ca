import RowRecipe.Context
import RowRecipe.Error
import RowRecipe.Store

/-!
# Directives

A directive is one step of a recipe. Its class has a name and a usage; initialization with bound
arguments gives a directive, which turns the rows of a batch into the rows for the next step. Directives
may be supplied by the host: they may change the store, report to a journal, and fail in any way.
-/

namespace RowRecipe

/-- A row: columns with their cells, in order. -/
abbrev Row := Mapping Value

/-- What directives report to the host, in order. -/
abbrev Journal := List Value

/-- What a directive can change while it runs. -/
structure Session where
  store : Store
  journal : Journal

/-- A step that can change the session and can fail; what changed before a failure stays changed. -/
abbrev Action := ExceptT Failure (StateM Session)

/-- A step that can only report and fail. -/
abbrev Farewell := ExceptT Failure (StateM Journal)

/-- An initialized directive. -/
structure Directive where
  /-- The word used in recipes. -/
  name : String
  /-- The name of its class. -/
  label : String
  /-- What initialization has settled. -/
  settings : Mapping Value
  /-- Processes one batch. No rows at all, as opposed to an empty list, is a mistake of the directive. -/
  execute : Context → List Row → Action (Option (List Row))
  /-- Releases what initialization acquired. -/
  destroy : Farewell Unit

/-- A class of directives. -/
structure DirectiveClass where
  name : String
  label : String
  categories : List String
  /-- The usage of the arguments. -/
  define : Except Failure UsageDefinition
  /-- Makes a directive from bound arguments. -/
  create : Arguments → Except Failure Directive

namespace DirectiveClass

/-- The text of a directive that is not initialized. -/
def text (c : DirectiveClass) : String :=
  s!"<{c.label} {c.name}>"

end DirectiveClass

namespace Directive

def text (d : Directive) : String :=
  s!"<{d.label} {d.name}>"

/-- A directive that neither uses the session nor holds anything. -/
def ofRows (name label : String) (settings : Mapping Value)
    (f : List Row → Except ExecutionError (List Row)) : Directive :=
  { name, label, settings
    execute := fun _ rows =>
      match f rows with
      | .ok rows => pure (some rows)
      | .error e => throw (.recipe (.execution e))
    destroy := pure () }

end Directive

/-- A directive of a recipe whose class the host has not supplied yet. -/
structure ExternalDirective where
  name : String
  group : TokenGroup

namespace Action

/-- Adds to an entry of the store. -/
def increment (scope : Scope) (name : String) (amount : Value) : Action Value := do
  let session ← get
  match session.store.increment scope name amount with
  | .ok (sum, store) =>
    set { session with store }
    return sum
  | .error f => throw (.fault f)

/-- Reports to the host. -/
def report (v : Value) : Action Unit :=
  modify fun s => { s with journal := s.journal ++ [v] }

end Action

end RowRecipe
