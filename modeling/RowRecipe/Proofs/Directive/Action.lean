import RowRecipe.Directive.Basic

/-!
# Actions

How actions run one after the other, and what adding to an entry of the store does to all its entries.
-/

namespace RowRecipe

namespace Action

variable {α β : Type} {x : Action α} {f : α → Action β} {s t : Session}

theorem bind_ok {v : α} (h : x s = (.ok v, t)) : (x >>= f) s = f v t := by
  simp [bind, ExceptT.bind, ExceptT.mk, ExceptT.bindCont, StateT.bind, h]

theorem bind_error {e : Failure} (h : x s = (.error e, t)) : (x >>= f) s = (.error e, t) := by
  simp only [bind, ExceptT.bind, ExceptT.mk, StateT.bind, h]
  rfl

end Action

namespace Store

/-- An entry of the pipeline; an absent one counts as zero. -/
def total (s : Store) (key : String) : Value :=
  (s.get? key (some .pipeline)).getD (.int 0)

theorem total_set (s : Store) (key : String) (v : Value) (k : String) :
    (s.set .pipeline key v).total k = if k = key then v else s.total k := by
  change ((Mapping.put s.pipeline key v).get? k).getD (.int 0) = _
  rw [Mapping.get?_put]
  by_cases hk : k = key
  · rw [if_pos hk, if_pos hk]
    rfl
  · rw [if_neg hk, if_neg hk]
    rfl

/-- Adding to a whole number. -/
theorem increment_of_total {s : Store} {key : String} {k : Int} (h : s.total key = .int k) (n : Int) :
    s.increment .pipeline key (.int n) = .ok (.int (k + n), s.set .pipeline key (.int (k + n))) := by
  unfold total at h
  unfold increment
  cases hg : s.get? key (some .pipeline) with
  | none =>
    rw [hg] at h
    cases h
    rfl
  | some v =>
    rw [hg] at h
    cases h
    rfl

end Store

theorem Action.increment_of_total {s : Session} {key : String} {k : Int} (h : s.store.total key = .int k)
    (n : Int) : Action.increment .pipeline key (.int n) s =
      (.ok (.int (k + n)), ⟨s.store.set .pipeline key (.int (k + n)), s.journal⟩) := by
  have hget : (get : Action Session) s = (.ok s, s) := rfl
  rw [increment, bind_ok hget, Store.increment_of_total h]
  rfl

end RowRecipe
