import RowRecipe.CompiledRecipe

/-!
# Pipelines

A pipeline runs the directives of a compiled recipe over a stream of batches. It accepts batches while it
is ready; the last batch finishes it, a failure makes it fail, and closing it destroys the directives. In
the testing environment no batch finishes a pipeline.
-/

namespace RowRecipe

/-- What a pipeline can still do. -/
inductive Phase
  | ready
  | finished
  | failed
  | closed
  deriving DecidableEq

namespace Phase

def name : Phase → String
  | ready => "ready"
  | finished => "finished"
  | failed => "failed"
  | closed => "closed"

end Phase

/-- A pipeline between two calls. -/
structure Pipeline where
  directives : List Directive
  /-- The properties that every batch starts with. -/
  properties : Mapping Value
  context : Context
  session : Session
  phase : Phase
  /-- The number of batches that went through. -/
  batches : Nat

/-- Runs one directive. A failure names the directive. -/
def Directive.run (d : Directive) (context : Context) (rows : List Row) :
    ExceptT RecipeError (StateM Session) (List Row) := fun session =>
  let refused (fault : ExecutionFault) : RecipeError :=
    .execution { fault, directive := some d.name, row := none, column := none, value := .null }
  match d.execute context rows session with
  | (.ok (some rows), session) => (.ok rows, session)
  | (.ok none, session) => (.error (refused (.noRows d.name)), session)
  | (.error (.recipe e), session) => (.error (e.blame d.name), session)
  | (.error f, session) => (.error (refused (.failed d.name f.describe)), session)

/-- Runs directives one after the other, each on the rows of the one before. -/
def runAll (context : Context) : List Directive → List Row →
    ExceptT RecipeError (StateM Session) (List Row)
  | [], rows => pure rows
  | d :: ds, rows => do runAll context ds (← d.run context rows)

namespace Pipeline

/-- A pipeline for a recipe without open names. -/
def ofRecipe (r : CompiledRecipe) (environment : Environment) (properties : Mapping Value)
    (name : String) : Except CompileError Pipeline :=
  if r.unresolved.isEmpty then
    pure { directives := r.directives, properties
           context := { environment, properties, name }
           session := ⟨.empty, []⟩
           phase := .ready
           batches := 0 }
  else throw (.unresolved r.unresolved)

variable (p : Pipeline)

/-- The properties of the next batch. -/
def batchProperties (isLast : Bool) : Mapping Value :=
  if isLast then p.properties.put Context.lastProperty (.text "true") else p.properties

/-- Whether the properties of a batch say that it ends the stream. -/
def endsStream (properties : Mapping Value) : Bool :=
  Text.lower ((properties.get? Context.lastProperty).getD (.text "")).plain == "true"

/-- Why a pipeline that is not ready refuses a batch. -/
def notReady : RecipeError :=
  .execution { fault := .notReady p.context.name p.phase.name
               directive := none, row := none, column := none, value := .null }

/-- Runs one batch. The entries of the batch scope start empty. -/
def execute (rows : List Row) (isLast : Bool) : Except RecipeError (List Row) × Pipeline :=
  if p.phase ≠ .ready then (throw p.notReady, p)
  else
    let context := { p.context with properties := p.batchProperties isLast }
    let session := { p.session with store := p.session.store.reset .batch }
    match runAll context p.directives rows session with
    | (.error e, session) => (throw e, { p with context, session, phase := .failed })
    | (.ok rows, session) =>
      let finishes := endsStream context.properties && context.environment != .testing
      (pure rows, { p with context, session, batches := p.batches + 1
                           phase := if finishes then .finished else .ready })

/-- Runs batches of which the last one ends the stream, and joins their rows. Without batches one empty
batch is run. -/
def process (p : Pipeline) : List (List Row) → Except RecipeError (List Row) × Pipeline
  | [] => p.execute [] true
  | [rows] => p.execute rows true
  | rows :: more =>
    match p.execute rows false with
    | (.error e, p) => (throw e, p)
    | (.ok rows, p) =>
      let rest := process p more
      (rest.1.map (rows ++ ·), rest.2)

/-- Destroys directives in order; failures are ignored. -/
def dismiss : List Directive → StateM Journal Unit
  | [] => pure ()
  | d :: ds => do
    let _ ← d.destroy.run
    dismiss ds

/-- Destroys the directives and empties the store. A closed pipeline stays as it is. -/
def close : Pipeline :=
  if p.phase = .closed then p
  else { p with session := ⟨.empty, (dismiss p.directives p.session.journal).2⟩, phase := .closed }

/-- The text of a pipeline. -/
def text : String :=
  let names := (Value.list (p.directives.map fun d => .text d.name)).quoted
  s!"RecipePipeline({names}, state={p.phase.name})"

end Pipeline

end RowRecipe
