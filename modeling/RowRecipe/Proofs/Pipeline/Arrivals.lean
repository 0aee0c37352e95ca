import RowRecipe.Proofs.Pipeline.Lifecycle

/-!
# What reaches a directive

The rows that the directives at the front of a pipeline hand on are those that the next directive receives.
They are said batch by batch, and put together over all requests of a run.
-/

namespace RowRecipe

namespace Pipeline

variable (p : Pipeline) (ds : List Directive)

/-- What `ds`, run as the first directives of a pipeline, hand on in its next batch. -/
def handsOn (rows : List Row) (isLast : Bool) : Except RecipeError (List Row) :=
  (runAll (p.nextContext isLast) ds rows p.nextSession).1

/-- The rows that arrive behind the directives `ds` when a request is answered. -/
def arriving (r : Request) : List Row :=
  match r.batch? with
  | some (rows, isLast) => (p.handsOn ds rows isLast).toOption.getD []
  | none => []

/-- The rows that have arrived behind the directives `ds`, request after request. -/
def arrived (p : Pipeline) : List Request → List Row
  | [] => []
  | r :: rs => p.arriving ds r ++ arrived (p.answer r).2 rs

variable {p ds} {rows out : List Row} {isLast : Bool} {s : Session}

theorem handsOn_of_passes (h : Passes (p.nextContext isLast) ds rows p.nextSession out s) :
    p.handsOn ds rows isLast = .ok out := by
  rw [handsOn, runAll_ok_iff.mpr h]

theorem arriving_of_passes {r : Request} (hb : r.batch? = some (rows, isLast))
    (h : Passes (p.nextContext isLast) ds rows p.nextSession out s) : p.arriving ds r = out := by
  rw [arriving, hb]
  dsimp only
  rw [handsOn_of_passes h]
  rfl

theorem arrived_concat (rs : List Request) (r : Request) :
    p.arrived ds (rs ++ [r]) = p.arrived ds rs ++ (p.after rs).arriving ds r := by
  induction rs generalizing p with
  | nil => simp [arrived]
  | cons r' rs ih =>
    rw [List.cons_append, arrived, arrived, ih, List.append_assoc]
    rfl

/-- A batch that went through has passed every directive. -/
theorem passes_of_execute_ok {q : Pipeline} (h : p.execute rows isLast = (.ok out, q)) :
    p.phase = .ready ∧ Passes (p.nextContext isLast) p.directives rows p.nextSession out q.session := by
  by_cases hready : p.phase = .ready
  · rcases execute_ready_cases hready rows isLast with ⟨out', s, hp, hx⟩ | ⟨e, s, -, hx⟩
    · rw [hx] at h
      cases h
      exact ⟨hready, hp⟩
    · rw [hx] at h
      cases h
  · rw [execute_not_ready hready] at h
    cases h

/-- How a ready pipeline is left by a batch that goes through. -/
theorem answer_of_passes {r : Request} (hready : p.phase = .ready) (hb : r.batch? = some (rows, isLast))
    (h : Passes (p.nextContext isLast) p.directives rows p.nextSession out s) :
    (p.answer r).2 =
      { p with context := p.nextContext isLast, session := s, batches := p.batches + 1
               phase := p.nextPhase isLast } := by
  rw [answer, hb]
  dsimp only
  rw [execute_ok hready h]

end Pipeline

end RowRecipe
