import RowRecipe.Proofs.Compiler.Cleanup

/-!
# Results of builds

A build goes through the statements of a recipe in their order. It succeeds if each of them gets its step, and then
the steps are those of the statements, one for each. Else its error is that of the text, or that of the first
statement that fails.
-/

namespace RowRecipe.Compiler

variable {c : Compiler} {external : Mapping DirectiveClass} {text : String} {macros : Macros}

/-- The result of a build is settled by the text and by its statements, one after the other. -/
structure Follows (c : Compiler) (external : Mapping DirectiveClass) (text : String) (macros : Macros)
    (result : Except RecipeError CompiledRecipe) : Prop where
  /-- The build succeeds exactly if the text compiles and every statement gets its step. -/
  succeeds : (∃ r, result = .ok r) ↔ ∃ recipe, (c.compile text macros).outcome = .ok recipe ∧
    ∀ g ∈ recipe.groups, ∃ s, c.Settles external recipe.loadable g (.ok s)
  /-- The steps are those of the statements, in their order. -/
  steps : ∀ r, result = .ok r → (c.compile text macros).outcome = .ok r.recipe ∧
    List.Forall₂ (fun g s => c.Settles external r.recipe.loadable g (.ok s)) r.recipe.groups r.steps
  /-- The error is that of the text, or that of the first statement that fails. -/
  fails : ∀ e, result = .error e → (c.compile text macros).outcome = .error e ∨
    ∃ recipe done g behind, (c.compile text macros).outcome = .ok recipe ∧
      recipe.groups = done ++ g :: behind ∧
      (∀ g' ∈ done, ∃ s, c.Settles external recipe.loadable g' (.ok s)) ∧
      c.Settles external recipe.loadable g (.error e)

theorem Builds.settles (hreg : c.registry.Reachable) {loadable : List String} {groups : List TokenGroup}
    {steps : List Step} (h : c.Builds external loadable groups steps) :
    List.Forall₂ (fun g s => c.Settles external loadable g (.ok s)) groups steps :=
  h.imp fun _ _ => (buildStep_eq_iff hreg).mp

/-- Each of the statements gets its step. -/
theorem Builds.settles_of_mem (hreg : c.registry.Reachable) {loadable : List String} {groups : List TokenGroup}
    {steps : List Step} (h : c.Builds external loadable groups steps) {g : TokenGroup} (hg : g ∈ groups) :
    ∃ s, c.Settles external loadable g (.ok s) := by
  induction h with
  | nil => cases hg
  | cons first _ ih =>
    rcases List.mem_cons.mp hg with rfl | hg
    · exact ⟨_, (buildStep_eq_iff hreg).mp first⟩
    · exact ih hg

theorem follows_ok (hreg : c.registry.Reachable) {recipe : Recipe} {steps : List Step}
    (read : (c.compile text macros).outcome = .ok recipe)
    (built : c.Builds external recipe.loadable recipe.groups steps) :
    c.Follows external text macros (.ok ⟨steps, recipe⟩) where
  succeeds := by
    exact ⟨fun _ => ⟨recipe, read, fun g hg => built.settles_of_mem hreg hg⟩, fun _ => ⟨_, rfl⟩⟩
  steps := by
    intro r hr
    cases hr
    exact ⟨read, built.settles hreg⟩
  fails e he := by cases he

theorem follows_error (hreg : c.registry.Reachable) {e : RecipeError}
    (h : (c.compile text macros).outcome = .error e ∨ ∃ recipe steps,
      (c.compile text macros).outcome = .ok recipe ∧
        c.FailsAfter external recipe.loadable recipe.groups steps e) :
    c.Follows external text macros (.error e) where
  succeeds := by
    refine ⟨fun ⟨_, hr⟩ => (by cases hr), ?_⟩
    rintro ⟨recipe, hread, hall⟩
    rcases h with h | ⟨recipe', steps, h, done, g, behind, hsplit, -, hg⟩
    · rw [hread] at h
      cases h
    · rw [hread] at h
      cases h
      obtain ⟨s, hs⟩ := hall g (by simp [hsplit])
      rw [(buildStep_eq_iff hreg).mpr hs] at hg
      cases hg
  steps r hr := by cases hr
  fails e' he := by
    cases he
    refine h.imp id ?_
    rintro ⟨recipe, steps, hread, done, g, behind, hsplit, hdone, hg⟩
    exact ⟨recipe, done, g, behind, hread, hsplit, fun g' hg' => hdone.settles_of_mem hreg hg',
      (buildStep_eq_iff hreg).mp hg⟩

/-- Where no directive raises when it is destroyed, every build has a result, and it follows from the statements.
What becomes of a statement is one thing only, and a refusal that is not an error of the engine from the class that
serves the statement names the statement and its line. -/
theorem build_follows (hreg : c.registry.Reachable)
    (hr : ∀ name dc, c.registry.class? name = some dc → dc.Quiet)
    (he : ∀ name dc, external.get? name = some dc → dc.Quiet) (text : String) (macros : Macros) (j : Journal) :
    (∃ result k, c.build text macros external j = (.ok result, k) ∧ c.Follows external text macros result) ∧
      ∀ loadable g, (∃! r, c.Settles external loadable g r) ∧
        ∀ e, c.Settles external loadable g (.error e) →
          (∃ dc usage, c.Serves external loadable g.name dc usage ∧ dc.Makes g usage (.error (.recipe e))) ∨
            ∃ ce : CompileError, e = .compile ce ∧ ce.directive? = some g.name ∧ ce.line? = some g.line := by
  refine ⟨?_, fun loadable g => ⟨?_, fun e => Settles.error_cases⟩⟩
  · obtain ⟨result, k, hb⟩ := build_returns hr he text macros j
    have hends := c.build_ends external text macros j
    rw [hb] at hends
    refine ⟨result, k, hb, ?_⟩
    cases hends with
    | unread read => exact follows_error hreg (.inl read)
    | built read built => exact follows_ok hreg read built
    | refused read failed destroyed => exact follows_error hreg (.inr ⟨_, _, read, failed⟩)
  · refine ⟨c.buildStep external loadable g, (buildStep_eq_iff hreg).mp rfl, fun r h => ?_⟩
    exact ((buildStep_eq_iff hreg).mpr h).symm

/-! ## Classes from three sides -/

/-- A compiler with one class. -/
def staffed : Compiler :=
  { registry := .ofClasses [leaving "patient" none], migratesLegacy := false, loadDirectives := [] }

/-- Classes that a host offers for two names. -/
def offered : Mapping DirectiveClass :=
  [("patient", leaving "impostor" none), ("helper", leaving "assistant" none)]

/-- Of three declared names one is registered, one is offered, and one is neither. -/
def threeDeclared : String :=
  "#pragma version 2.0;\n#pragma load-directives patient, helper, later;\npatient\nhelper\nlater"

theorem staffed_prepare : staffed.prepare threeDeclared [] = .ok threeDeclared :=
  prepare_of_settled _ rfl (by decide +kernel) rfl

/-- The names of the directives that a build has made and of those it has left open. -/
def staff : Except Failure (Except RecipeError CompiledRecipe) × Journal → Option (List String × List String)
  | (.ok (.ok r), _) => some (r.directives.map (·.name), r.unresolved)
  | _ => none

theorem staff_offered :
    staff (staffed.build threeDeclared [] offered []) = some (["patient", "assistant"], ["later"]) := by
  unfold build compile
  rw [staffed_prepare]
  decide +kernel

theorem leaving_quiet (name : String) : (leaving name none).Quiet := by
  intro args d hd j
  cases hd
  exact ⟨_, rfl⟩

theorem staffed_quiet : ∀ name dc, staffed.registry.class? name = some dc → dc.Quiet := by
  intro name dc h
  have hone : Mapping.get? [("patient", leaving "patient" none)] name = some dc := h
  cases List.mem_singleton.mp (Mapping.mem_of_get? hone)
  exact leaving_quiet _

theorem offered_quiet : ∀ name dc, offered.get? name = some dc → dc.Quiet := by
  intro name dc h
  rcases List.mem_cons.mp (Mapping.mem_of_get? h) with h | h
  · cases h
    exact leaving_quiet _
  · cases List.mem_singleton.mp h
    exact leaving_quiet _

/-- The registered class wins over the one that is offered, and the third name stays open. -/
theorem staffed_build : ∃ r k, staffed.build threeDeclared [] offered [] = (.ok (.ok r), k) ∧
    r.directives.map (·.name) = ["patient", "assistant"] ∧ r.unresolved = ["later"] ∧
    (staffed.compile threeDeclared []).outcome = .ok r.recipe ∧
    List.Forall₂ (fun g s => staffed.Settles offered r.recipe.loadable g (.ok s)) r.recipe.groups r.steps := by
  obtain ⟨⟨result, k, hb, hfollows⟩, -⟩ :=
    build_follows (Registry.reachable_ofClasses _) staffed_quiet offered_quiet threeDeclared [] []
  have hstaff := staff_offered
  rw [hb] at hstaff
  rcases result with e | r
  · cases hstaff
  · obtain ⟨hread, hsteps⟩ := hfollows.steps r rfl
    have hnames := Prod.mk.inj (Option.some.inj hstaff)
    exact ⟨r, k, hb, hnames.1, hnames.2, hread, hsteps⟩

end RowRecipe.Compiler
