import Mathlib.Data.List.Dedup
import Mathlib.Data.List.DropRight
import Mathlib.Data.List.Induction
import RowRecipe.Mapping

/-!
# Laws of mappings

What a mapping holds after entries are written, removed, chosen or changed, and in which order its keys stand.
-/

namespace RowRecipe.Mapping

variable {α β : Type} {m : Mapping α} {key : String}

/-! ## Choosing entries -/

theorem get?_append (m n : Mapping α) (key : String) : get? (m ++ n) key = (get? m key).or (get? n key) := by
  induction m with
  | nil => simp
  | cons e m ih =>
    rw [List.cons_append, get?_cons, get?_cons, ih]
    split <;> simp

theorem get?_filter (m : Mapping α) (p : String → Bool) (key : String) :
    get? (m.filter fun e => p e.1) key = if p key then get? m key else none := by
  induction m with
  | nil => simp
  | cons e m ih =>
    have hcons : (e :: m).filter (fun e => p e.1) = if p e.1 then e :: m.filter (fun e => p e.1) else
      m.filter fun e => p e.1 := List.filter_cons
    rw [hcons, get?_cons]
    by_cases hkey : key = e.1
    · subst hkey
      cases hp : p e.1 <;> simp [get?_cons, ih, hp]
    · cases hp : p e.1 <;> simp [get?_cons, ih, hkey]

theorem get?_remove (m : Mapping α) (key k : String) : get? (remove m key) k = if k = key then none else get? m k := by
  rw [remove, get?_filter m (· != key)]
  by_cases hk : k = key <;> simp [hk]

theorem keys_remove (m : Mapping α) (key : String) : keys (remove m key) = (keys m).filter (· != key) := by
  simp [keys, remove, List.filter_map, Function.comp_def]

theorem put_of_not_mem (h : key ∉ keys m) (value : α) : put m key value = m ++ [(key, value)] := by
  induction m with
  | nil => rfl
  | cons e m ih =>
    simp only [keys, List.map_cons, List.mem_cons, not_or] at h
    rw [put, if_neg (Ne.symm h.1), ih h.2, List.cons_append]

theorem nodup_keys_put (h : (keys m).Nodup) (key : String) (value : α) : (keys (put m key value)).Nodup := by
  rw [keys_put]
  split
  next => exact h
  next hkey => exact h.append (List.nodup_singleton key) (by simpa using hkey)

theorem get?_mapValues (m : Mapping α) (f : α → β) (key : String) :
    get? (m.map fun e => (e.1, f e.2)) key = (get? m key).map f := by
  induction m with
  | nil => rfl
  | cons e m ih =>
    rw [List.map_cons, get?_cons, get?_cons, ih]
    split <;> rfl

/-- Where no key stands twice, what stands in the mapping is what a key leads to. -/
theorem get?_eq_some_iff (h : (keys m).Nodup) {value : α} : get? m key = some value ↔ (key, value) ∈ m := by
  refine ⟨mem_of_get?, fun hmem => ?_⟩
  induction m with
  | nil => cases hmem
  | cons e m ih =>
    simp only [keys, List.map_cons, List.nodup_cons] at h
    rw [get?_cons]
    rcases List.mem_cons.mp hmem with rfl | hmem
    · simp
    · have hne : key ≠ e.1 := by
        rintro rfl
        exact h.1 (List.mem_map.mpr ⟨_, hmem, rfl⟩)
      rw [if_neg hne]
      exact ih h.2 hmem

/-! ## Writing entries one after the other -/

theorem ofEntries_concat (es : List (String × α)) (e : String × α) :
    ofEntries (es ++ [e]) = put (ofEntries es) e.1 e.2 := by
  simp [ofEntries]

theorem mem_of_mem_put {e : String × α} {value : α} (h : e ∈ put m key value) : e = (key, value) ∨ e ∈ m := by
  induction m with
  | nil => exact .inl (List.mem_singleton.mp h)
  | cons first m ih =>
    rw [put] at h
    split at h
    · exact (List.mem_cons.mp h).imp_right (List.mem_cons_of_mem first)
    · rcases List.mem_cons.mp h with rfl | h
      · exact .inr List.mem_cons_self
      · exact (ih h).imp_right (List.mem_cons_of_mem first)

/-- Only entries that are written stand in a mapping. -/
theorem mem_of_mem_ofEntries {es : List (String × α)} {e : String × α} (h : e ∈ ofEntries es) : e ∈ es := by
  induction es using List.reverseRecOn with
  | nil => cases h
  | append_singleton es last ih =>
    rw [ofEntries_concat] at h
    rcases mem_of_mem_put h with rfl | h
    · exact List.mem_append_right es (List.mem_singleton_self _)
    · exact List.mem_append_left _ (ih h)

/-- The entry that is written last counts. -/
theorem get?_ofEntries (es : List (String × α)) (key : String) : get? (ofEntries es) key = es.reverse.lookup key := by
  induction es using List.reverseRecOn with
  | nil => rfl
  | append_singleton es e ih =>
    have hlast : (es ++ [e]).reverse.lookup key = if key = e.1 then some e.2 else es.reverse.lookup key := by
      simp only [List.reverse_concat]
      exact get?_cons e es.reverse key
    rw [ofEntries_concat, get?_put, ih, hlast]

theorem eraseDups_concat (keys : List String) (key : String) :
    (keys ++ [key]).eraseDups = if key ∈ keys then keys.eraseDups else keys.eraseDups ++ [key] := by
  rw [List.eraseDups_append]
  by_cases h : key ∈ keys
  · simp [List.removeAll, h]
  · simp [List.removeAll, h, List.eraseDups_cons]

/-- The keys stand in the order in which they are first written. -/
theorem keys_ofEntries (es : List (String × α)) : keys (ofEntries es) = (es.map (·.1)).eraseDups := by
  induction es using List.reverseRecOn with
  | nil => rfl
  | append_singleton es e ih =>
    rw [ofEntries_concat, keys_put, ih, List.map_append, List.map_singleton, eraseDups_concat]
    simp only [List.mem_eraseDups]

/-- Entries with different keys are the mapping that writing them makes. -/
theorem ofEntries_of_nodup {es : List (String × α)} (h : (keys es).Nodup) : ofEntries es = es := by
  induction es using List.reverseRecOn with
  | nil => rfl
  | append_singleton es e ih =>
    rw [keys, List.map_append, List.map_singleton] at h
    have hfirst : (keys es).Nodup := (List.nodup_append.mp h).1
    have hkey : e.1 ∉ keys es := fun hmem => (List.nodup_append.mp h).2.2 _ hmem _ (List.mem_singleton_self _) rfl
    rw [ofEntries_concat, ih hfirst]
    exact put_of_not_mem hkey e.2

end RowRecipe.Mapping
