import Mathlib.Data.List.Forall2
import RowRecipe.Proofs.Compiler.Statements
import RowRecipe.Proofs.Directive.Link
import RowRecipe.Proofs.Macro.Settling

/-!
# How a build ends

Either the text does not compile, or every statement gets its step, or a first statement fails and the
directives before it are destroyed. Destroying runs code of the host: it goes through all directives as long as
none of them raises, and a first one that does ends it. Then the failure of that directive comes out in place
of the error of the statement, and the directives behind it are never destroyed.
-/

namespace RowRecipe

/-! ## Destroying directives -/

/-- Every directive is destroyed, in order, and none raises. -/
inductive Destroyed : List Directive → Journal → Journal → Prop
  | nil {j} : Destroyed [] j j
  | cons {d ds i j k} (first : d.destroy i = (.ok (), j)) (rest : Destroyed ds j k) :
      Destroyed (d :: ds) i k

/-- A first directive raises. Those behind it are not destroyed: the journal stays as it left it. -/
def Interrupted (ds : List Directive) (j : Journal) (f : Failure) (k : Journal) : Prop :=
  ∃ before d behind i, ds = before ++ d :: behind ∧ Destroyed before j i ∧ d.destroy i = (.error f, k)

variable {ds : List Directive} {j k : Journal} {f : Failure}

theorem destroyAll_cons (d : Directive) (ds : List Directive) (j : Journal) :
    destroyAll (d :: ds) j =
      match d.destroy j with
      | (.ok _, k) => destroyAll ds k
      | (.error f, k) => (.error f, k) := by
  change (d.destroy >>= fun _ => destroyAll ds) j = _
  rcases h : d.destroy j with ⟨_ | _, k⟩ <;>
    simp only [bind, ExceptT.bind, ExceptT.mk, StateT.bind, h] <;> rfl

theorem destroyAll_cases (ds : List Directive) (j : Journal) :
    (∃ k, Destroyed ds j k ∧ destroyAll ds j = (.ok (), k)) ∨
      ∃ f k, Interrupted ds j f k ∧ destroyAll ds j = (.error f, k) := by
  induction ds generalizing j with
  | nil => exact .inl ⟨j, .nil, rfl⟩
  | cons d ds ih =>
    rw [destroyAll_cons]
    rcases hd : d.destroy j with ⟨f | _, i⟩
    · exact .inr ⟨f, i, ⟨[], d, ds, j, rfl, .nil, hd⟩, rfl⟩
    · rcases ih i with ⟨k, hk, hrun⟩ | ⟨f, k, ⟨before, d', behind, i', rfl, hb, hd'⟩, hrun⟩
      · exact .inl ⟨k, .cons hd hk, hrun⟩
      · exact .inr ⟨f, k, ⟨d :: before, d', behind, i', rfl, .cons hd hb, hd'⟩, hrun⟩

/-! ## Building steps -/

namespace Compiler

variable (c : Compiler) (external : Mapping DirectiveClass)

/-- Every statement gets its step. -/
def Builds (loadable : List String) (groups : List TokenGroup) (steps : List Step) : Prop :=
  List.Forall₂ (fun g s => c.buildStep external loadable g = .ok s) groups steps

/-- A first statement fails; those before it get their steps. -/
def FailsAfter (loadable : List String) (groups : List TokenGroup) (steps : List Step) (e : RecipeError) :
    Prop :=
  ∃ done g behind, groups = done ++ g :: behind ∧ c.Builds external loadable done steps ∧
    c.buildStep external loadable g = .error e

theorem buildSteps_cases (loadable : List String) (groups : List TokenGroup) :
    (∃ steps, c.Builds external loadable groups steps ∧
      c.buildSteps external loadable groups = (steps, none)) ∨
    ∃ steps e, c.FailsAfter external loadable groups steps e ∧
      c.buildSteps external loadable groups = (steps, some e) := by
  induction groups with
  | nil => exact .inl ⟨[], .nil, rfl⟩
  | cons g gs ih =>
    rw [buildSteps]
    cases hg : c.buildStep external loadable g with
    | error e => exact .inr ⟨[], e, ⟨[], g, gs, rfl, .nil, hg⟩, rfl⟩
    | ok s =>
      rcases ih with ⟨steps, hsteps, hrun⟩ | ⟨steps, e, ⟨done, g', behind, rfl, hdone, hg'⟩, hrun⟩
      · exact .inl ⟨s :: steps, .cons hg hsteps, by rw [hrun]⟩
      · exact .inr ⟨s :: steps, e, ⟨g :: done, g', behind, rfl, .cons hg hdone, hg'⟩, by rw [hrun]⟩

/-! ## Builds -/

/-- The ways in which the build of a text can end: with a result or a failure that comes out of it, and with a
journal. -/
inductive Ends (text : String) (macros : Macros) (j : Journal) :
    Except Failure (Except RecipeError CompiledRecipe) → Journal → Prop
  /-- The text does not compile. Nothing was initialized. -/
  | unread {e} (read : (c.compile text macros).outcome = .error e) : Ends text macros j (.ok (.error e)) j
  /-- Every statement has its step. -/
  | built {recipe steps} (read : (c.compile text macros).outcome = .ok recipe)
      (built : c.Builds external recipe.loadable recipe.groups steps) :
      Ends text macros j (.ok (.ok ⟨steps, recipe⟩)) j
  /-- A first statement fails, and the directives before it are all destroyed. -/
  | refused {recipe steps e k} (read : (c.compile text macros).outcome = .ok recipe)
      (failed : c.FailsAfter external recipe.loadable recipe.groups steps e)
      (destroyed : Destroyed (steps.filterMap Step.directive?) j k) :
      Ends text macros j (.ok (.error e)) k
  /-- A first statement fails, and then a directive before it raises while it is destroyed. -/
  | interrupted {recipe steps e f k} (read : (c.compile text macros).outcome = .ok recipe)
      (failed : c.FailsAfter external recipe.loadable recipe.groups steps e)
      (raised : Interrupted (steps.filterMap Step.directive?) j f k) :
      Ends text macros j (.error f) k

variable {c external} {text : String} {macros : Macros}

theorem build_of_outcome_error {e : RecipeError} (h : (c.compile text macros).outcome = .error e) :
    c.build text macros external j = (.ok (.error e), j) := by
  rw [build, h]
  rfl

theorem build_of_builds {recipe : Recipe} {steps : List Step}
    (h : (c.compile text macros).outcome = .ok recipe)
    (hs : c.buildSteps external recipe.loadable recipe.groups = (steps, none)) :
    c.build text macros external j = (.ok (.ok ⟨steps, recipe⟩), j) := by
  rw [build, h]
  simp only [hs]
  rfl

/-- The error of a statement is handed on if the directives before it can be destroyed. -/
theorem build_of_failsAfter {recipe : Recipe} {steps : List Step} {e : RecipeError}
    (h : (c.compile text macros).outcome = .ok recipe)
    (hs : c.buildSteps external recipe.loadable recipe.groups = (steps, some e)) :
    c.build text macros external j =
      match destroyAll (steps.filterMap Step.directive?) j with
      | (.ok _, k) => (.ok (.error e), k)
      | (.error f, k) => (.error f, k) := by
  rw [build, h]
  simp only [hs]
  rcases hd : destroyAll (steps.filterMap Step.directive?) j with ⟨_ | _, k⟩ <;>
    simp only [bind, ExceptT.bind, ExceptT.mk, StateT.bind, hd] <;> rfl

variable (c external) in
/-- Every build ends in one of these ways. -/
theorem build_ends (text : String) (macros : Macros) (j : Journal) :
    c.Ends external text macros j (c.build text macros external j).1 (c.build text macros external j).2 := by
  cases h : (c.compile text macros).outcome with
  | error e =>
    rw [build_of_outcome_error h]
    exact .unread h
  | ok recipe =>
    rcases c.buildSteps_cases external recipe.loadable recipe.groups with
      ⟨steps, hbuilt, hs⟩ | ⟨steps, e, hfails, hs⟩
    · rw [build_of_builds h hs]
      exact .built h hbuilt
    · rw [build_of_failsAfter h hs]
      rcases destroyAll_cases (steps.filterMap Step.directive?) j with ⟨k, hd, hrun⟩ | ⟨f, k, hd, hrun⟩ <;>
        rw [hrun]
      · exact .refused h hfails hd
      · exact .interrupted h hfails hd

end Compiler

/-! ## Directives that can always be destroyed -/

/-- Destroying the directive never raises. -/
def Directive.Quiet (d : Directive) : Prop :=
  ∀ j, ∃ k, d.destroy j = (.ok (), k)

/-- Destroying a directive of the class never raises. -/
def DirectiveClass.Quiet (c : DirectiveClass) : Prop :=
  ∀ args d, c.create args = .ok d → d.Quiet

theorem Interrupted.not_quiet (h : Interrupted ds j f k) : ∃ d ∈ ds, ¬ d.Quiet := by
  obtain ⟨before, d, behind, i, rfl, -, hd⟩ := h
  refine ⟨d, by simp, fun hq => ?_⟩
  obtain ⟨k', hk⟩ := hq i
  rw [hd] at hk
  cases hk

theorem DirectiveClass.create_of_instantiate {c : DirectiveClass} {g : TokenGroup}
    {usage? : Option UsageDefinition} {d : Directive} (h : c.instantiate g usage? = .ok d) :
    ∃ args, c.create args = .ok d := by
  obtain ⟨made, hmade⟩ := c.exists_makes g (c.usageOr usage?)
  rw [instantiate_of_makes hmade] at h
  cases made with
  | error f => cases h
  | ok d' =>
    cases h
    cases hmade with
    | created _ _ create => exact ⟨_, create⟩

namespace Compiler

variable {c : Compiler} {external : Mapping DirectiveClass}

/-- The directive of a step was made by a class that is registered or that the host supplies. -/
theorem create_of_buildStep {loadable : List String} {g : TokenGroup} {d : Directive}
    (h : c.buildStep external loadable g = .ok (.directive d)) :
    ∃ dc args, (c.registry.class? g.name = some dc ∨ external.get? g.name = some dc) ∧
      dc.create args = .ok d := by
  have made {dc : DirectiveClass} {usage? : Option UsageDefinition}
      (h : (dc.instantiate g usage?).map Step.directive = .ok (.directive d)) :
      ∃ args, dc.create args = .ok d := by
    cases hi : dc.instantiate g usage? with
    | error e =>
      rw [hi] at h
      cases h
    | ok d' =>
      rw [hi] at h
      cases h
      exact DirectiveClass.create_of_instantiate hi
  unfold buildStep at h
  split at h
  · next dc hc =>
    obtain ⟨args, hargs⟩ := made h
    exact ⟨dc, args, .inl hc, hargs⟩
  · split at h
    · split at h
      · next dc hc =>
        obtain ⟨args, hargs⟩ := made h
        exact ⟨dc, args, .inr hc, hargs⟩
      · cases h
    · cases h

theorem Builds.exists_of_mem {loadable : List String} {groups : List TokenGroup} {steps : List Step}
    (h : c.Builds external loadable groups steps) {s : Step} (hs : s ∈ steps) :
    ∃ g, c.buildStep external loadable g = .ok s := by
  induction h with
  | nil => cases hs
  | cons first _ ih =>
    rcases List.mem_cons.mp hs with rfl | hs
    · exact ⟨_, first⟩
    · exact ih hs

/-- Where destroying a directive never raises, every build has a result. -/
theorem build_returns (hr : ∀ name dc, c.registry.class? name = some dc → dc.Quiet)
    (he : ∀ name dc, external.get? name = some dc → dc.Quiet) (text : String) (macros : Macros)
    (j : Journal) : ∃ r k, c.build text macros external j = (.ok r, k) := by
  have hends := c.build_ends external text macros j
  rcases hb : c.build text macros external j with ⟨f | r, k⟩
  · rw [hb] at hends
    cases hends with
    | interrupted read failed raised =>
      obtain ⟨d, hd, hloud⟩ := raised.not_quiet
      obtain ⟨s, hs, hsd⟩ := List.mem_filterMap.mp hd
      obtain ⟨done, g, behind, -, hdone, -⟩ := failed
      obtain ⟨g', hg'⟩ := hdone.exists_of_mem hs
      cases s with
      | external e => cases hsd
      | directive d' =>
        cases hsd
        obtain ⟨dc, args, hc | hc, hd⟩ := create_of_buildStep hg'
        · exact absurd (hr _ _ hc args d hd) hloud
        · exact absurd (he _ _ hc args d hd) hloud
  · exact ⟨r, k, rfl⟩

end Compiler

/-- The built-in directives hold nothing that has to be released. -/
theorem builtinClasses_quiet : ∀ c ∈ builtinClasses, c.Quiet := by
  intro c hc args d hd
  obtain ⟨l, hl, rfl⟩ := Link.exists_of_builtin hc hd
  cases l with
  | step s => cases s <;> exact fun j => ⟨j, rfl⟩
  | aggregate a => exact fun j => ⟨j, rfl⟩
  | host d => exact hl.elim

/-- A build with the built-in directives alone always has a result. -/
theorem Compiler.build_returns_of_builtin {c : Compiler} (hc : c.registry = .builtin) (text : String)
    (macros : Macros) (j : Journal) : ∃ r k, c.build text macros [] j = (.ok r, k) := by
  have hclasses : Registry.builtin.classes = builtinClasses.map fun c => (c.name, c) := rfl
  refine build_returns (fun name dc hdc => builtinClasses_quiet dc ?_) (fun name dc hdc => by cases hdc) text
    macros j
  have hmem := Mapping.mem_of_get? hdc
  rw [hc, hclasses] at hmem
  obtain ⟨dc', hdc', he⟩ := List.mem_map.mp hmem
  cases he
  exact hdc'

/-- How builds end, and how the directives of a recipe that was built are destroyed. -/
theorem Compiler.cleanup_ends (c : Compiler) (external : Mapping DirectiveClass) (j : Journal) :
    (∀ text macros, c.Ends external text macros j (c.build text macros external j).1
      (c.build text macros external j).2) ∧
    ∀ r : CompiledRecipe, (∃ k, Destroyed r.directives j k ∧ r.destroy j = (.ok (), k)) ∨
      ∃ f k, Interrupted r.directives j f k ∧ r.destroy j = (.error f, k) :=
  ⟨fun text macros => c.build_ends external text macros j, fun r => destroyAll_cases r.directives j⟩

/-! ## A directive that raises -/

/-- A class without arguments. Its directives report that they are destroyed, and may raise after it. -/
def leaving (name : String) (fault? : Option Fault) : DirectiveClass :=
  { name, label := "Leaving", categories := []
    define := pure (.ofSlots name [])
    create := fun _ => pure
      { Directive.ofRows name "Leaving" [] pure with
        destroy := do
          modify (· ++ [.text name])
          match fault? with
          | some f => throw (.fault f)
          | none => pure () } }

namespace Compiler

def refusal : Fault := ⟨"RuntimeError", "busy"⟩

/-- A compiler with a directive that raises when it is destroyed, and one that does not. -/
def hosting : Compiler :=
  { registry := .ofClasses [leaving "stubborn" (some refusal), leaving "patient" none]
    migratesLegacy := false
    loadDirectives := [] }

/-- A recipe whose last statement has an unknown name. -/
def unknownAtLast : String :=
  "#pragma version 2.0;\nstubborn\npatient\nunknown"

theorem hosting_prepare : hosting.prepare unknownAtLast [] = .ok unknownAtLast :=
  prepare_of_settled _ rfl (by decide +kernel) rfl

/-- Whether a build raises a fault after one text was reported. -/
def raisesAfter (s : String) (f : Fault) : Except Failure (Except RecipeError CompiledRecipe) × Journal → Bool
  | (.error (.fault f'), [.text s']) => s' == s && f' == f
  | _ => false

theorem eq_of_raisesAfter {s : String} {f : Fault} {x : Except Failure (Except RecipeError CompiledRecipe) × Journal}
    (h : raisesAfter s f x = true) : x = (.error (.fault f), [.text s]) := by
  unfold raisesAfter at h
  split at h
  · simp only [Bool.and_eq_true, beq_iff_eq] at h
    rw [h.1, h.2]
  · cases h

/-- The second directive is not destroyed, and the unknown name is not reported. -/
theorem hosting_build_raises :
    hosting.build unknownAtLast [] [] [] = (.error (.fault refusal), [.text "stubborn"]) := by
  apply eq_of_raisesAfter
  unfold build compile
  rw [hosting_prepare]
  decide +kernel

end Compiler

end RowRecipe
