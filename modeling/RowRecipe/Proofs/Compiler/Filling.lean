import RowRecipe.Proofs.Compiler.Results

/-!
# Filling open names

A host can offer its classes when a recipe is built, or leave names open and offer the classes later. For one
statement, building with the classes at hand is building without them and then filling the name if it is open. So the
two ways agree on whole recipes: both fail, or both end in the same recipe.
-/

namespace RowRecipe

namespace CompiledRecipe

/-- What the classes of a host make of a step. Only an open name that has a class changes. -/
def fill (classes : Mapping DirectiveClass) : Step → Except RecipeError Step
  | .directive d => .ok (.directive d)
  | .external e =>
    match classes.get? e.name with
    | some c => (c.instantiate e.group none).map .directive
    | none => .ok (.external e)

theorem resolveSteps_cons (classes : Mapping DirectiveClass) (s : Step) (ss : List Step) :
    resolveSteps classes (s :: ss) =
      match fill classes s with
      | .ok s' => ((resolveSteps classes ss).1, s' :: (resolveSteps classes ss).2)
      | .error e => (some e, s :: ss) := by
  cases s with
  | directive d => rfl
  | external e =>
    rw [resolveSteps]
    dsimp only [fill]
    cases classes.get? e.name with
    | none => rfl
    | some c =>
      dsimp only
      cases c.instantiate e.group none <;> rfl

end CompiledRecipe

namespace Compiler

open CompiledRecipe (fill resolveSteps resolveSteps_cons)

variable {c : Compiler} {external : Mapping DirectiveClass} {loadable : List String}

/-- Building a statement with the classes at hand is building it without them and then filling the step. -/
theorem buildStep_eq_bind_fill (c : Compiler) (external : Mapping DirectiveClass) (loadable : List String)
    (g : TokenGroup) : c.buildStep external loadable g = c.buildStep [] loadable g >>= fill external := by
  unfold buildStep
  cases c.registry.class? g.name with
  | some dc =>
    dsimp only
    cases dc.instantiate g (c.registry.usages.get? g.name) <;> rfl
  | none =>
    dsimp only
    split
    · simp only [Mapping.get?_nil]
      cases h : external.get? g.name with
      | none => simp [pure, Except.pure, bind, Except.bind, fill, h]
      | some dc => simp [pure, Except.pure, bind, Except.bind, fill, h]
    · rfl

/-- Building statements with the classes at hand, if they can be built without them, ends as filling their steps
does. -/
theorem buildSteps_of_builds (external : Mapping DirectiveClass) {groups : List TokenGroup} {steps : List Step}
    (h : c.Builds [] loadable groups steps) :
    (c.buildSteps external loadable groups).2 = (resolveSteps external steps).1 ∧
      ((resolveSteps external steps).1 = none →
        (c.buildSteps external loadable groups).1 = (resolveSteps external steps).2) := by
  induction h with
  | nil => exact ⟨rfl, fun _ => rfl⟩
  | @cons g s groups steps first rest ih =>
    have hstep : c.buildStep external loadable g = fill external s := by
      rw [buildStep_eq_bind_fill, first]
      rfl
    rw [buildSteps, hstep, resolveSteps_cons]
    cases fill external s with
    | error e => exact ⟨rfl, fun hnone => by cases hnone⟩
    | ok s' => exact ⟨ih.1, fun hnone => congrArg (s' :: ·) (ih.2 hnone)⟩

/-- Statements that cannot be built without the classes cannot be built with them either. -/
theorem buildSteps_of_failsAfter (external : Mapping DirectiveClass) {groups : List TokenGroup} {steps : List Step}
    {e : RecipeError} (h : c.FailsAfter [] loadable groups steps e) :
    ∃ e', (c.buildSteps external loadable groups).2 = some e' := by
  obtain ⟨done, g, behind, rfl, hdone, hg⟩ := h
  induction hdone with
  | nil =>
    have hstep : c.buildStep external loadable g = .error e := by
      rw [buildStep_eq_bind_fill, hg]
      rfl
    rw [List.nil_append, buildSteps, hstep]
    exact ⟨e, rfl⟩
  | @cons g' s done steps first rest ih =>
    obtain ⟨e', he'⟩ := ih
    rw [List.cons_append, buildSteps]
    cases c.buildStep external loadable g' with
    | error e'' => exact ⟨e'', rfl⟩
    | ok s' => exact ⟨e', he'⟩

/-- The result of a build, where there is one, is that of its statements. -/
theorem result_of_build {text : String} {macros : Macros} {j k : Journal} {recipe : Recipe}
    {result : Except RecipeError CompiledRecipe} (read : (c.compile text macros).outcome = .ok recipe)
    (hb : c.build text macros external j = (.ok result, k)) :
    result = match c.buildSteps external recipe.loadable recipe.groups with
      | (steps, none) => .ok ⟨steps, recipe⟩
      | (_, some e) => .error e := by
  rcases hs : c.buildSteps external recipe.loadable recipe.groups with ⟨steps, _ | e⟩
  · rw [build_of_builds read hs] at hb
    cases hb
    rfl
  · rw [build_of_failsAfter read hs] at hb
    split at hb <;> cases hb
    rfl

/-- Where no directive raises when it is destroyed, a build with the classes of a host succeeds exactly if the build
without them does and its open names can then be filled from these classes. Both ways end in the same recipe. And if
a class fails, it is the same error both ways. -/
theorem build_iff_resolve (hr : ∀ name dc, c.registry.class? name = some dc → dc.Quiet)
    (he : ∀ name dc, external.get? name = some dc → dc.Quiet) (text : String) (macros : Macros) (j : Journal) :
    ∃ now k later k', c.build text macros external j = (.ok now, k) ∧
      c.build text macros [] j = (.ok later, k') ∧
      ((∃ r, now = .ok r) ↔ ∃ r, later = .ok r ∧ (r.resolve external).1 = none) ∧
      (∀ r r', now = .ok r → later = .ok r' → r'.resolve external = (none, r)) ∧
      ∀ e r', now = .error e → later = .ok r' → (r'.resolve external).1 = some e := by
  obtain ⟨now, k, hnow⟩ := build_returns hr he text macros j
  have hnone : ∀ name dc, Mapping.get? ([] : Mapping DirectiveClass) name = some dc → dc.Quiet :=
    fun name dc h => by cases h
  obtain ⟨later, k', hlater⟩ := build_returns hr hnone text macros j
  refine ⟨now, k, later, k', hnow, hlater, ?_⟩
  cases read : (c.compile text macros).outcome with
  | error e =>
    rw [build_of_outcome_error read] at hnow hlater
    cases hnow
    cases hlater
    simp
  | ok recipe =>
    have hnow := result_of_build read hnow
    have hlater := result_of_build read hlater
    rcases c.buildSteps_cases [] recipe.loadable recipe.groups with ⟨steps, hsteps, hs⟩ | ⟨steps, e, hfails, hs⟩
    · rw [hs] at hlater
      obtain ⟨herror, hout⟩ := buildSteps_of_builds external hsteps
      have hresolve : (CompiledRecipe.mk steps recipe).resolve external =
        ((resolveSteps external steps).1, ⟨(resolveSteps external steps).2, recipe⟩) := rfl
      rcases hboth : c.buildSteps external recipe.loadable recipe.groups with ⟨out, _ | e⟩
      · rw [hboth] at herror hout hnow
        rw [← herror] at hresolve hout
        rw [← hout rfl] at hresolve
        subst hnow hlater
        simp [hresolve]
      · rw [hboth] at herror hnow
        rw [← herror] at hresolve
        subst hnow hlater
        simp [hresolve]
    · obtain ⟨e', he'⟩ := buildSteps_of_failsAfter external hfails
      rcases hboth : c.buildSteps external recipe.loadable recipe.groups with ⟨out, _ | e''⟩
      · rw [hboth] at he'
        cases he'
      · rw [hs] at hlater
        rw [hboth] at hnow
        subst hnow hlater
        simp

/-- The classes that are offered to the finished build fill the second name. -/
theorem staffed_resolve : ∃ r r' k k', staffed.build threeDeclared [] offered [] = (.ok (.ok r), k) ∧
    staffed.build threeDeclared [] [] [] = (.ok (.ok r'), k') ∧ r'.unresolved = ["helper", "later"] ∧
    r'.resolve offered = (none, r) := by
  obtain ⟨now, k, later, k', hnow, hlater, -, hsame, -⟩ :=
    build_iff_resolve staffed_quiet offered_quiet threeDeclared [] []
  have hwith := staff_offered
  have hwithout : staff (staffed.build threeDeclared [] [] []) =
      some (["patient"], ["helper", "later"]) := by
    unfold build compile
    rw [staffed_prepare]
    decide +kernel
  rw [hnow] at hwith
  rw [hlater] at hwithout
  rcases now with e | r
  · cases hwith
  · rcases later with e | r'
    · cases hwithout
    · exact ⟨r, r', k, k', hnow, hlater, (Prod.mk.inj (Option.some.inj hwithout)).2, hsame r r' rfl rfl⟩

end Compiler

end RowRecipe
