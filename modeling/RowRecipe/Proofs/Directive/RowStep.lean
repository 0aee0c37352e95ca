import RowRecipe.Directive.ParseUnit
import RowRecipe.Proofs.Pipeline.Chain

/-!
# Row steps

Directives that rename, drop, keep or parse columns. They neither use the store nor the context, so a chain of
them is a function of the rows.
-/

namespace RowRecipe

/-- A directive that works on one row at a time. -/
inductive RowStep
  | rename (r : Rename)
  | drop (d : Drop)
  | keep (k : Keep)
  | parse (p : ParseUnit)

namespace RowStep

/-- What a step makes of the rows of a batch. -/
def apply : RowStep → List Row → Except ExecutionError (List Row)
  | rename r => r.apply
  | drop d => d.apply
  | keep k => k.apply
  | parse p => p.rowsFrom 0

def toDirective : RowStep → Directive
  | rename r => r.toDirective
  | drop d => d.toDirective
  | keep k => k.toDirective
  | parse p => p.toDirective

/-- What steps make of the rows of a batch, one after the other. -/
def feed : List RowStep → List Row → Except ExecutionError (List Row)
  | [], rows => pure rows
  | step :: steps, rows => do feed steps (← step.apply rows)

variable {context : Context} {rows out : List Row} {s t : Session}

theorem ofRows_execute (name label : String) (settings : Mapping Value)
    (f : List Row → Except ExecutionError (List Row)) :
    (Directive.ofRows name label settings f).execute context rows s =
      match f rows with
      | .ok out => (.ok (some out), s)
      | .error e => (.error (.recipe (.execution e)), s) := by
  simp only [Directive.ofRows]
  cases f rows <;> rfl

theorem execute_eq (step : RowStep) :
    step.toDirective.execute context rows s =
      match step.apply rows with
      | .ok out => (.ok (some out), s)
      | .error e => (.error (.recipe (.execution e)), s) := by
  cases step with
  | rename r => exact ofRows_execute _ _ _ r.apply
  | drop d => exact ofRows_execute _ _ _ d.apply
  | keep k => exact ofRows_execute _ _ _ k.apply
  | parse p => exact ofRows_execute _ _ _ (p.rowsFrom 0)

theorem execute_eq_ok_iff (step : RowStep) :
    step.toDirective.execute context rows s = (.ok (some out), t) ↔ step.apply rows = .ok out ∧ t = s := by
  rw [execute_eq]
  cases step.apply rows with
  | ok mid =>
    constructor
    · intro h
      cases h
      exact ⟨rfl, rfl⟩
    · rintro ⟨h, rfl⟩
      cases h
      rfl
  | error e =>
    constructor
    · intro h
      cases h
    · rintro ⟨h, -⟩
      cases h

theorem feed_cons (step : RowStep) (steps : List RowStep) :
    feed (step :: steps) rows = .ok out ↔ ∃ mid, step.apply rows = .ok mid ∧ feed steps mid = .ok out := by
  rw [feed]
  cases step.apply rows with
  | ok mid =>
    constructor
    · exact fun h => ⟨mid, rfl, h⟩
    · rintro ⟨mid', hm, h⟩
      cases hm
      exact h
  | error e =>
    constructor
    · intro h
      cases h
    · rintro ⟨mid, hm, -⟩
      cases hm

/-- A chain of steps hands on what the steps make of the rows, and changes nothing else. -/
theorem passes_iff (steps : List RowStep) :
    Passes context (steps.map toDirective) rows s out t ↔ feed steps rows = .ok out ∧ t = s := by
  induction steps generalizing rows with
  | nil =>
    constructor
    · intro h
      cases h
      exact ⟨rfl, rfl⟩
    · rintro ⟨h, rfl⟩
      cases h
      exact .nil
  | cons step steps ih =>
    rw [List.map_cons, feed_cons]
    constructor
    · intro h
      cases h with
      | cons first rest =>
        obtain ⟨hfirst, rfl⟩ := step.execute_eq_ok_iff.mp first
        obtain ⟨hrest, rfl⟩ := ih.mp rest
        exact ⟨⟨_, hfirst, hrest⟩, rfl⟩
    · rintro ⟨⟨mid, hfirst, hrest⟩, rfl⟩
      exact .cons (step.execute_eq_ok_iff.mpr ⟨hfirst, rfl⟩) (ih.mpr ⟨hrest, rfl⟩)

end RowStep

end RowRecipe
