import RowRecipe.CompiledRecipe
import RowRecipe.Proofs.Registry.Reachable

/-!
# What becomes of a statement

A statement is served by the registered class of its name, with the usage that the registry keeps. A name that is
not registered has to be declared; then a class of the host serves it, with the usage that the class defines, or the
name stays open. A class binds the arguments and initializes a directive, and whatever goes wrong on the way is
reported as an error of the engine.
-/

namespace RowRecipe

/-- How a failure of a class is reported. What is no error of the engine becomes one that names the statement. -/
def Failure.reported (g : TokenGroup) : Failure → RecipeError
  | recipe e => e
  | f => .compile (.notInitialized g.name g.line f.describe)

namespace DirectiveClass

variable {c : DirectiveClass} {g : TokenGroup}

/-- What comes of a statement in the hands of a class: it needs a usage, the arguments have to fit it, and then it
is up to the class. -/
inductive Makes (c : DirectiveClass) (g : TokenGroup) (usage : Except Failure UsageDefinition) :
    Except Failure Directive → Prop
  | undefined {f} (asked : usage = .error f) : Makes c g usage (.error f)
  | unbound {u e} (asked : usage = .ok u) (bound : g.bind u = .error e) : Makes c g usage (.error (.recipe (.bind e)))
  | created {u args made} (asked : usage = .ok u) (bound : g.bind u = .ok args) (create : c.create args = made) :
      Makes c g usage made

/-- The usage that is known already, or else the one that the class defines. -/
def usageOr (c : DirectiveClass) : Option UsageDefinition → Except Failure UsageDefinition
  | some u => .ok u
  | none => c.define

/-- Something comes of every statement. -/
theorem exists_makes (c : DirectiveClass) (g : TokenGroup) (usage : Except Failure UsageDefinition) :
    ∃ made, c.Makes g usage made := by
  cases hu : usage with
  | error f => exact ⟨_, .undefined rfl⟩
  | ok u =>
    cases hb : g.bind u with
    | error e => exact ⟨_, .unbound rfl hb⟩
    | ok args => exact ⟨_, .created rfl hb rfl⟩

/-- It does not matter where a usage comes from. -/
theorem instantiate_of_usageOr {usage? : Option UsageDefinition} {u : UsageDefinition}
    (h : c.usageOr usage? = .ok u) : c.instantiate g usage? = c.instantiate g (some u) := by
  cases usage? with
  | some u' =>
    cases h
    rfl
  | none =>
    have hdefine : c.define = .ok u := h
    rw [instantiate, instantiate, hdefine]
    rfl

/-- A statement is instantiated to what the class makes of it, with a failure reported. -/
theorem instantiate_of_makes {usage? : Option UsageDefinition} {made : Except Failure Directive}
    (h : c.Makes g (c.usageOr usage?) made) : c.instantiate g usage? = made.mapError (Failure.reported g) := by
  cases h with
  | @undefined f asked =>
    cases usage? with
    | some u => cases asked
    | none =>
      have hdefine : c.define = .error f := asked
      rw [instantiate, hdefine]
      cases f <;> rfl
  | unbound asked bound =>
    rw [instantiate_of_usageOr asked, instantiate]
    simp only [pure_bind, bound]
    rfl
  | created asked bound create =>
    rw [instantiate_of_usageOr asked, instantiate]
    simp only [pure_bind, bound, create]
    rcases made with (_ | _ | _) | _ <;> rfl

end DirectiveClass

namespace Compiler

variable (c : Compiler) (external : Mapping DirectiveClass) (loadable : List String)

/-- The class that serves a name, and where its usage comes from. -/
inductive Serves (name : String) : DirectiveClass → Except Failure UsageDefinition → Prop
  /-- A registered class comes first. Its usage is the one in the registry. -/
  | registered {dc usage} (known : c.registry.class? name = some dc)
      (kept : c.registry.usage name = .ok usage) : Serves name dc (.ok usage)
  /-- A class of the host serves a name that is declared and not registered. It defines its usage itself. -/
  | supplied {dc} (unknown : c.registry.class? name = none) (declared : name ∈ loadable)
      (given : external.get? name = some dc) : Serves name dc dc.define

/-- What becomes of a statement. -/
inductive Settles (g : TokenGroup) : Except RecipeError Step → Prop
  /-- A class makes a directive of it. -/
  | directive {dc usage d} (served : c.Serves external loadable g.name dc usage) (made : dc.Makes g usage (.ok d)) :
      Settles g (.ok (.directive d))
  /-- A class fails on it. -/
  | failed {dc usage f} (served : c.Serves external loadable g.name dc usage) (made : dc.Makes g usage (.error f)) :
      Settles g (.error (f.reported g))
  /-- Its name is declared, and nobody serves it yet. -/
  | vacant (unknown : c.registry.class? g.name = none) (declared : g.name ∈ loadable)
      (absent : external.get? g.name = none) : Settles g (.ok (.external ⟨g.name, g⟩))
  /-- Its name is neither registered nor declared. -/
  | undeclared (unknown : c.registry.class? g.name = none) (undeclared : g.name ∉ loadable) :
      Settles g (.error (.compile (.undeclared g.name g.line)))

variable {c external loadable} {g : TokenGroup} {r : Except RecipeError Step}

theorem buildStep_of_serves (hreg : c.registry.Reachable) {dc : DirectiveClass}
    {usage : Except Failure UsageDefinition} (served : c.Serves external loadable g.name dc usage)
    {made : Except Failure Directive} (hmade : dc.Makes g usage made) :
    c.buildStep external loadable g = (made.mapError (Failure.reported g)).map .directive := by
  unfold buildStep
  cases served with
  | registered known kept =>
    obtain ⟨u, hget, hu⟩ := hreg.usage_of_class? known
    rw [kept] at hu
    cases hu
    rw [known]
    dsimp only
    rw [hget, DirectiveClass.instantiate_of_makes hmade]
  | supplied unknown declared given =>
    rw [unknown]
    dsimp only
    rw [if_pos (List.contains_iff_mem.mpr declared), given]
    dsimp only
    rw [DirectiveClass.instantiate_of_makes hmade]

theorem buildStep_of_settles (hreg : c.registry.Reachable) (h : c.Settles external loadable g r) :
    c.buildStep external loadable g = r := by
  cases h with
  | directive served made => exact buildStep_of_serves hreg served made
  | failed served made => exact buildStep_of_serves hreg served made
  | vacant unknown declared absent =>
    rw [buildStep, unknown]
    dsimp only
    rw [if_pos (List.contains_iff_mem.mpr declared), absent]
    rfl
  | undeclared unknown undeclared =>
    rw [buildStep, unknown]
    dsimp only
    rw [if_neg (fun h => undeclared (List.contains_iff_mem.mp h))]
    rfl

/-- A class that serves a statement settles it. -/
theorem exists_settles_of_serves {dc : DirectiveClass} {usage : Except Failure UsageDefinition}
    (served : c.Serves external loadable g.name dc usage) : ∃ r, c.Settles external loadable g r := by
  obtain ⟨made, hmade⟩ := dc.exists_makes g usage
  cases made with
  | ok d => exact ⟨_, .directive served hmade⟩
  | error f => exact ⟨_, .failed served hmade⟩

theorem exists_settles (hreg : c.registry.Reachable) (external : Mapping DirectiveClass) (loadable : List String)
    (g : TokenGroup) : ∃ r, c.Settles external loadable g r := by
  cases hc : c.registry.class? g.name with
  | some dc =>
    obtain ⟨u, -, hu⟩ := hreg.usage_of_class? hc
    exact exists_settles_of_serves (.registered hc hu)
  | none =>
    by_cases hl : g.name ∈ loadable
    · cases he : external.get? g.name with
      | some dc => exact exists_settles_of_serves (.supplied hc hl he)
      | none => exact ⟨_, .vacant hc hl he⟩
    · exact ⟨_, .undeclared hc hl⟩

/-- The step of a statement is what becomes of it. -/
theorem buildStep_eq_iff (hreg : c.registry.Reachable) :
    c.buildStep external loadable g = r ↔ c.Settles external loadable g r := by
  constructor
  · rintro rfl
    obtain ⟨r, hr⟩ := exists_settles hreg external loadable g
    rwa [buildStep_of_settles hreg hr]
  · exact buildStep_of_settles hreg

/-- An error of the engine that a class fails with is handed on. Every other refusal names the statement and its
line. -/
theorem Settles.error_cases {e : RecipeError} (h : c.Settles external loadable g (.error e)) :
    (∃ dc usage, c.Serves external loadable g.name dc usage ∧ dc.Makes g usage (.error (.recipe e))) ∨
      ∃ ce : CompileError, e = .compile ce ∧ ce.directive? = some g.name ∧ ce.line? = some g.line := by
  cases h with
  | @failed dc usage f served made =>
    cases f with
    | recipe e => exact .inl ⟨dc, usage, served, made⟩
    | usage e => exact .inr ⟨_, rfl, rfl, rfl⟩
    | fault f => exact .inr ⟨_, rfl, rfl, rfl⟩
  | undeclared => exact .inr ⟨_, rfl, rfl, rfl⟩

end Compiler

end RowRecipe
