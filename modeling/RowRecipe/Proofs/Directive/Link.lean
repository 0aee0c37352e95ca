import RowRecipe.Directive.Builtin
import RowRecipe.Proofs.Directive.RowStep

/-!
# The statements of a recipe

The directives of a recipe by what they do to the store: row steps leave it alone, aggregations add to it, and
directives of the host may do anything. The built-in ones are of the first two kinds.
-/

namespace RowRecipe

/-- A statement of a recipe. -/
inductive Link
  | step (s : RowStep)
  | aggregate (a : Aggregate)
  /-- A directive of the host. -/
  | host (d : Directive)

namespace Link

def toDirective : Link → Directive
  | step s => s.toDirective
  | aggregate a => a.toDirective
  | host d => d

/-- The directive is none of the host's. -/
def IsBuiltin : Link → Prop
  | host _ => False
  | _ => True

/-- The built-in directives are row steps and aggregations. -/
theorem exists_of_builtin {c : DirectiveClass} (hc : c ∈ builtinClasses) {args : Arguments} {d : Directive}
    (h : c.create args = .ok d) : ∃ l : Link, l.IsBuiltin ∧ l.toDirective = d := by
  simp only [builtinClasses, List.mem_cons, List.not_mem_nil, or_false] at hc
  rcases hc with rfl | rfl | rfl | rfl | rfl | rfl
  · simp only [Aggregate.directiveClass] at h
    split at h
    · next a _ =>
      cases h
      exact ⟨aggregate a, trivial, rfl⟩
    · cases h
  · cases h
    exact ⟨step (.rename _), trivial, rfl⟩
  · cases h
    exact ⟨step (.drop _), trivial, rfl⟩
  · cases h
    exact ⟨step (.keep _), trivial, rfl⟩
  · cases h
    exact ⟨step (.parse _), trivial, rfl⟩
  · cases h
    exact ⟨step (.parse _), trivial, rfl⟩

end Link

end RowRecipe
