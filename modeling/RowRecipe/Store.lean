import RowRecipe.Mapping
import RowRecipe.Value.Arithmetic

/-!
# The store

The directives of one pipeline share a store with two scopes. Entries of the pipeline scope live as long
as the pipeline, entries of the batch scope until the next batch starts. A look-up without a scope asks
the batch scope first.
-/

namespace RowRecipe

/-- How long an entry lives. -/
inductive Scope
  | pipeline
  | batch
  deriving DecidableEq

/-- The entries of both scopes. -/
structure Store where
  pipeline : Mapping Value
  batch : Mapping Value

namespace Store

def empty : Store := ⟨[], []⟩

variable (s : Store)

/-- The entries of a scope. -/
def entries : Scope → Mapping Value
  | .pipeline => s.pipeline
  | .batch => s.batch

/-- Replaces the entries of a scope. -/
def withEntries (scope : Scope) (es : Mapping Value) : Store :=
  match scope with
  | .pipeline => { s with pipeline := es }
  | .batch => { s with batch := es }

def get? (name : String) (scope? : Option Scope) : Option Value :=
  match scope? with
  | some scope => (s.entries scope).get? name
  | none => s.batch.get? name <|> s.pipeline.get? name

def has (name : String) (scope? : Option Scope) : Bool :=
  (s.get? name scope?).isSome

def set (scope : Scope) (name : String) (value : Value) : Store :=
  s.withEntries scope ((s.entries scope).put name value)

/-- Adds to an entry and returns the sum. A missing entry and null count as zero. -/
def increment (scope : Scope) (name : String) (amount : Value) : Except Fault (Value × Store) := do
  let current : Value := match s.get? name (some scope) with
    | none | some .null => .int 0
    | some v => v
  let sum ← current.add amount
  return (sum, s.set scope name sum)

/-- Removes all entries of a scope. -/
def reset (scope : Scope) : Store :=
  s.withEntries scope []

end Store

end RowRecipe
