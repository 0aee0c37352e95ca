import Mathlib.Data.List.Forall2
import RowRecipe.Proofs.Directive.RowStep

/-!
# Row steps, row by row

What a row step makes of a batch is what it makes of each of its rows, and it stops the batch if it refuses one of
them. The same holds of a chain of steps, although it hands whole batches from step to step: a batch goes through
exactly if each of its rows does. So it does not matter how rows are cut into batches.
-/

namespace RowRecipe

namespace Rename

/-- What renaming makes of one row, if the new name is not taken. -/
def row? (r : Rename) (row : Row) : Option Row :=
  if Mapping.has row r.target then none else some (r.renamed row)

theorem rowsFrom_toOption (r : Rename) (index : Nat) (rows : List Row) :
    (r.rowsFrom index rows).toOption = rows.mapM r.row? := by
  induction rows generalizing index with
  | nil => rfl
  | cons row rows ih =>
    rw [rowsFrom, List.mapM_cons, ← ih (index + 1), row?]
    by_cases htaken : Mapping.has row r.target
    · rw [if_pos htaken, if_pos htaken]
      rfl
    · rw [if_neg htaken, if_neg htaken]
      cases r.rowsFrom (index + 1) rows <;> rfl

end Rename

namespace ParseUnit

/-- What parsing makes of one row, if its cell can be parsed. -/
def row? (p : ParseUnit) (row : Row) : Option Row :=
  (p.row 0 row).toOption

/-- The number of a row shows in the error only. -/
theorem row_toOption (p : ParseUnit) (index : Nat) (row : Row) : (p.row index row).toOption = p.row? row := by
  unfold row? ParseUnit.row
  cases Mapping.get? row p.column with
  | none => rfl
  | some v =>
    cases v with
    | text s =>
      dsimp only
      cases Quantity.ofText p.kind s <;> rfl
    | quantity q =>
      dsimp only
      split <;> rfl
    | _ => rfl

theorem rowsFrom_toOption (p : ParseUnit) (index : Nat) (rows : List Row) :
    (p.rowsFrom index rows).toOption = rows.mapM p.row? := by
  induction rows generalizing index with
  | nil => rfl
  | cons row rows ih =>
    rw [rowsFrom, List.mapM_cons, ← ih (index + 1), ← p.row_toOption index]
    cases p.row index row with
    | error e => rfl
    | ok row' => cases p.rowsFrom (index + 1) rows <;> rfl

end ParseUnit

namespace RowStep

variable {rows out : List Row}

/-- What a step makes of one row, if it lets the row through. -/
def row? : RowStep → Row → Option Row
  | rename r, row => if r.source = r.target then some row else r.row? row
  | drop d, row => some (d.row row)
  | keep k, row => some (k.row row)
  | parse p, row => p.row? row

/-- What a chain of steps makes of one row, if all of them let it through. -/
def through (steps : List RowStep) (row : Row) : Option Row :=
  steps.foldlM (fun row step => step.row? row) row

theorem apply_toOption (step : RowStep) (rows : List Row) :
    (step.apply rows).toOption = rows.mapM step.row? := by
  cases step with
  | rename r =>
    change (r.apply rows).toOption = _
    unfold Rename.apply
    by_cases hsame : r.source = r.target
    · have hrow : (rename r).row? = fun row => pure row := by
        funext row
        rw [row?, if_pos hsame]
        rfl
      rw [if_pos hsame, hrow, List.mapM_pure, List.map_id']
      rfl
    · have hrow : (rename r).row? = r.row? := by
        funext row
        rw [row?, if_neg hsame]
      rw [if_neg hsame, hrow, r.rowsFrom_toOption]
  | drop d => exact (List.mapM_pure (m := Option)).symm
  | keep k => exact (List.mapM_pure (m := Option)).symm
  | parse p => exact p.rowsFrom_toOption 0 rows

theorem mapM_through_cons (step : RowStep) (steps : List RowStep) (rows : List Row) :
    rows.mapM (through (step :: steps)) = rows.mapM step.row? >>= fun mid => mid.mapM (through steps) := by
  induction rows with
  | nil => rfl
  | cons row rows ih =>
    have hrow : through (step :: steps) row = step.row? row >>= through steps := rfl
    rw [List.mapM_cons, List.mapM_cons, ih, hrow]
    cases step.row? row with
    | none => rfl
    | some row' =>
      cases rows.mapM step.row? with
      | none =>
        change (through steps row' >>= fun _ => none) = none
        cases through steps row' <;> rfl
      | some mid => simp [List.mapM_cons]

/-- A batch goes through a chain exactly if each of its rows does. -/
theorem feed_toOption (steps : List RowStep) (rows : List Row) :
    (feed steps rows).toOption = rows.mapM (through steps) := by
  induction steps generalizing rows with
  | nil =>
    have hrow : through [] = fun row => pure row := rfl
    rw [hrow, List.mapM_pure, List.map_id']
    rfl
  | cons step steps ih =>
    rw [mapM_through_cons, ← apply_toOption, feed]
    cases step.apply rows with
    | error e => rfl
    | ok mid => exact ih mid

theorem feed_eq_ok_iff (steps : List RowStep) :
    feed steps rows = .ok out ↔ rows.mapM (through steps) = some out := by
  rw [← feed_toOption]
  cases feed steps rows with
  | error e => simp [Except.toOption]
  | ok mid => simp [Except.toOption]

/-- What a chain hands on, row by row. -/
theorem feed_iff_forall₂ (steps : List RowStep) :
    feed steps rows = .ok out ↔ List.Forall₂ (fun row row' => through steps row = some row') rows out := by
  rw [feed_eq_ok_iff]
  induction rows generalizing out with
  | nil =>
    rw [List.forall₂_nil_left_iff]
    exact ⟨fun h => by cases h; rfl, fun h => by rw [h]; rfl⟩
  | cons row rows ih =>
    rw [List.mapM_cons, List.forall₂_cons_left_iff]
    simp only [Option.bind_eq_bind, Option.bind_eq_some_iff, ih]
    constructor
    · rintro ⟨row', hrow, rest, hrest, h⟩
      cases h
      exact ⟨row', rest, hrow, hrest, rfl⟩
    · rintro ⟨row', rest, hrow, hrest, rfl⟩
      exact ⟨row', hrow, rest, hrest, rfl⟩

/-- A batch goes through if the chain lets all its rows through. -/
theorem exists_feed {steps : List RowStep} (h : ∀ row ∈ rows, (through steps row).isSome) :
    ∃ out, feed steps rows = .ok out := by
  induction rows with
  | nil => exact ⟨[], (feed_iff_forall₂ steps).mpr .nil⟩
  | cons row rows ih =>
    rw [List.forall_mem_cons] at h
    obtain ⟨row', hrow⟩ := Option.isSome_iff_exists.mp h.1
    obtain ⟨out, hout⟩ := ih h.2
    exact ⟨row' :: out, (feed_iff_forall₂ steps).mpr (.cons hrow ((feed_iff_forall₂ steps).mp hout))⟩

/-- It does not matter how rows are cut into batches. -/
theorem feed_flatten_iff (steps : List RowStep) (batches : List (List Row)) :
    feed steps batches.flatten = .ok out ↔
      ∃ outs, List.Forall₂ (fun rows out => feed steps rows = .ok out) batches outs ∧ out = outs.flatten := by
  rw [feed_eq_ok_iff]
  simp only [feed_eq_ok_iff]
  induction batches generalizing out with
  | nil =>
    constructor
    · intro h
      cases h
      exact ⟨[], .nil, rfl⟩
    · rintro ⟨outs, h, rfl⟩
      cases h
      rfl
  | cons rows batches ih =>
    rw [List.flatten_cons, List.mapM_append]
    simp only [Option.bind_eq_bind, Option.bind_eq_some_iff]
    constructor
    · rintro ⟨first, hfirst, rest, hrest, h⟩
      cases h
      obtain ⟨outs, houts, rfl⟩ := ih.mp hrest
      exact ⟨first :: outs, .cons hfirst houts, rfl⟩
    · rintro ⟨outs, h, rfl⟩
      cases h with
      | @cons _ first _ outs hfirst hrest =>
        exact ⟨first, hfirst, outs.flatten, ih.mpr ⟨outs, hrest, rfl⟩, rfl⟩

end RowStep

end RowRecipe
