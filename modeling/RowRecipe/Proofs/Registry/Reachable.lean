import RowRecipe.Directive.Builtin
import RowRecipe.Proofs.Mapping

/-!
# The registries a host can make

A host starts with no classes, and registers and unregisters some, in any order and with any failures. All along
every registered class stands under its own name, and the usage kept for the name is the one that the class
defines. No usage is kept for any other name.
-/

namespace RowRecipe

namespace Registry

/-! ## What a registration does -/

/-- The registry with a class and its usage added. -/
def enter (r : Registry) (c : DirectiveClass) (usage : UsageDefinition) : Registry where
  classes := r.classes.put c.name c
  usages := r.usages.put c.name usage
  categoryNames := c.categories.foldl (index c.name) r.categoryNames

/-- The ways in which a registration goes, with what it answers and what it leaves. -/
inductive Registers (r : Registry) (c : DirectiveClass) (replace : Bool) : Except Failure Unit × Registry → Prop
  | unnamed (hname : c.name = "") :
      Registers r c replace (.error (.recipe (.compile (.unnamedDirective c.label))), r)
  | known {old : DirectiveClass} (hold : r.class? c.name = some old) (hreplace : replace = false) :
      Registers r c replace (.error (.recipe (.compile (.alreadyRegistered c.name old.label))), r)
  | undefined {e : Failure} (hname : c.name ≠ "") (hfree : r.has c.name = true → replace = true)
      (hdefine : c.define = .error e) : Registers r c replace (.error e, r.unregister c.name)
  | foreign {usage : UsageDefinition} (hname : c.name ≠ "") (hfree : r.has c.name = true → replace = true)
      (hdefine : c.define = .ok usage) (hforeign : usage.directive ≠ c.name) : Registers r c replace
        (.error (.recipe (.compile (.foreignUsage c.label usage.directive c.name))), r.unregister c.name)
  | accepted {usage : UsageDefinition} (hname : c.name ≠ "") (hfree : r.has c.name = true → replace = true)
      (hdefine : c.define = .ok usage) (hown : usage.directive = c.name) :
      Registers r c replace (.ok (), (r.unregister c.name).enter c usage)

theorem registers (r : Registry) (c : DirectiveClass) (replace : Bool) :
    Registers r c replace (r.register c replace) := by
  unfold register
  dsimp only
  split
  · next hname => exact .unnamed (String.isEmpty_iff.mp hname)
  · next hname =>
    rw [String.isEmpty_iff] at hname
    split
    · next hold => exact .known hold rfl
    · next replace _ _ hnew =>
      have hfree : r.has c.name = true → replace = true := by
        intro hhas
        obtain ⟨old, hold⟩ := Option.isSome_iff_exists.mp hhas
        exact eq_true_of_ne_false (hnew old hold)
      split
      · next hdefine => exact .undefined hname hfree hdefine
      · next usage hdefine =>
        split
        · next hforeign => exact .foreign hname hfree hdefine (bne_iff_ne.mp hforeign)
        · next hown => exact .accepted hname hfree hdefine (by simpa using hown)

/-! ## Reachable registries -/

/-- What a host can make of the empty registry. A registration that is refused counts with what it leaves. -/
inductive Reachable : Registry → Prop
  | empty : Reachable .empty
  | register {r} (before : Reachable r) (c : DirectiveClass) (replace : Bool) :
      Reachable (r.register c replace).2
  | unregister {r} (before : Reachable r) (name : String) : Reachable (r.unregister name)

/-- What stands under a name: a class of the name with the usage it defines, or nothing at all. -/
def Keeps (r : Registry) (name : String) : Prop :=
  (∃ c usage, r.class? name = some c ∧ r.usages.get? name = some usage ∧ c.name = name ∧
      c.define = .ok usage ∧ usage.directive = name) ∨
    r.class? name = none ∧ r.usages.get? name = none

variable {r : Registry}

theorem keeps_unregister {name : String} (h : r.Keeps name) (other : String) :
    (r.unregister other).Keeps name := by
  unfold unregister
  split
  · unfold Keeps class?
    rw [Mapping.get?_remove, Mapping.get?_remove]
    by_cases hname : name = other
    · simp [hname]
    · rw [if_neg hname, if_neg hname]
      exact h
  · exact h

/-- A class that is registered stands under its name in place of what stood there. -/
theorem keeps_enter {name : String} (h : r.Keeps name) {c : DirectiveClass} {usage : UsageDefinition}
    (hdefine : c.define = .ok usage) (hname : usage.directive = c.name) : (r.enter c usage).Keeps name := by
  unfold Keeps class? enter
  rw [Mapping.get?_put, Mapping.get?_put]
  by_cases hc : name = c.name
  · subst hc
    rw [if_pos rfl, if_pos rfl]
    exact .inl ⟨c, usage, rfl, rfl, rfl, hdefine, hname⟩
  · rw [if_neg hc, if_neg hc]
    exact h

theorem keeps_register (h : ∀ name, r.Keeps name) (c : DirectiveClass) (replace : Bool) (name : String) :
    (r.register c replace).2.Keeps name := by
  have hleft := keeps_unregister (h name) c.name
  have hregisters := registers r c replace
  generalize r.register c replace = answer at hregisters
  cases hregisters with
  | unnamed => exact h name
  | known => exact h name
  | undefined => exact hleft
  | foreign => exact hleft
  | accepted _ _ hdefine hown => exact keeps_enter hleft hdefine hown

theorem Reachable.keeps (h : r.Reachable) (name : String) : r.Keeps name := by
  induction h generalizing name with
  | empty => exact .inr ⟨rfl, rfl⟩
  | register _ c replace ih => exact keeps_register ih c replace name
  | unregister _ other ih => exact keeps_unregister (ih name) other

/-- A registered class has its usage in the registry. -/
theorem Reachable.usage_of_class? (h : r.Reachable) {name : String} {c : DirectiveClass}
    (hc : r.class? name = some c) : ∃ usage, r.usages.get? name = some usage ∧ r.usage name = .ok usage := by
  rcases h.keeps name with ⟨c', usage, -, husage, -⟩ | ⟨hnone, -⟩
  · refine ⟨usage, husage, ?_⟩
    rw [Registry.usage, husage]
    rfl
  · rw [hc] at hnone
    cases hnone

theorem reachable_ofClasses (classes : List DirectiveClass) : (ofClasses classes).Reachable := by
  have hfold : ∀ r : Registry, r.Reachable →
      (classes.foldl (fun r c => (r.register c false).2) r).Reachable := by
    induction classes with
    | nil => exact fun _ h => h
    | cons c classes ih => exact fun r h => ih _ (h.register c false)
  exact hfold _ .empty

end Registry

end RowRecipe
