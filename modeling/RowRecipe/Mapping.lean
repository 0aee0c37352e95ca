/-!
# Ordered mappings

A mapping from texts that remembers the order in which its keys were first written. Writing a known key
changes its value and keeps its place.
-/

namespace RowRecipe

/-- The entries of an ordered mapping. -/
abbrev Mapping (α : Type) := List (String × α)

namespace Mapping

variable {α : Type}

/-- The value of a key. -/
def get? (m : Mapping α) (key : String) : Option α :=
  m.lookup key

/-- Whether the mapping has the key. -/
def has (m : Mapping α) (key : String) : Bool :=
  (m.get? key).isSome

/-- The keys in their order. -/
def keys (m : Mapping α) : List String :=
  m.map (·.1)

/-- Writes an entry. -/
def put (m : Mapping α) (key : String) (value : α) : Mapping α :=
  match m with
  | [] => [(key, value)]
  | e :: es => if e.1 = key then (key, value) :: es else e :: put es key value

/-- Removes a key. -/
def remove (m : Mapping α) (key : String) : Mapping α :=
  m.filter fun e => e.1 != key

/-- The mapping that results from writing the entries one after the other. -/
def ofEntries (entries : List (String × α)) : Mapping α :=
  entries.foldl (fun m e => put m e.1 e.2) []

@[simp] theorem get?_nil (key : String) : get? ([] : Mapping α) key = none := rfl

theorem get?_cons (e : String × α) (m : Mapping α) (key : String) :
    get? (e :: m) key = if key = e.1 then some e.2 else get? m key := by
  obtain ⟨k, value⟩ := e
  simp only [get?, List.lookup_cons]
  by_cases h : key = k
  · simp [h]
  · rw [beq_false_of_ne h, if_neg h]

theorem mem_of_get? {m : Mapping α} {key : String} {value : α} (h : get? m key = some value) :
    (key, value) ∈ m := by
  induction m with
  | nil => cases h
  | cons e m ih =>
    rw [get?_cons] at h
    split at h
    · next he =>
      cases h
      exact he ▸ List.mem_cons_self
    · exact List.mem_cons_of_mem _ (ih h)

theorem get?_put (m : Mapping α) (key : String) (value : α) (k : String) :
    get? (put m key value) k = if k = key then some value else get? m k := by
  induction m with
  | nil => rw [put, get?_cons]
  | cons e m ih =>
    by_cases he : e.1 = key
    · rw [put, if_pos he, get?_cons, get?_cons, he]
      by_cases hk : k = key <;> simp [hk]
    · rw [put, if_neg he, get?_cons, get?_cons, ih]
      by_cases hk : k = e.1
      · have : k ≠ key := fun h => he (hk ▸ h)
        simp [hk, he]
      · simp [hk]

theorem get?_isSome_iff (m : Mapping α) (key : String) : (get? m key).isSome ↔ key ∈ keys m := by
  induction m with
  | nil => simp [keys]
  | cons e m ih =>
    rw [get?_cons]
    by_cases h : key = e.1
    · simp [keys, h]
    · simpa [keys, h] using ih

theorem keys_put (m : Mapping α) (key : String) (value : α) :
    keys (put m key value) = if key ∈ keys m then keys m else keys m ++ [key] := by
  induction m with
  | nil => simp [put, keys]
  | cons e m ih =>
    by_cases he : e.1 = key
    · simp [put, keys, he]
    · have hne : key ≠ e.1 := fun h => he h.symm
      have hcons : keys (put (e :: m) key value) = e.1 :: keys (put m key value) := by
        simp [put, he, keys]
      rw [hcons, ih]
      have hmem : key ∈ keys (e :: m) ↔ key ∈ keys m := by simp [keys, hne]
      by_cases hm : key ∈ keys m
      · rw [if_pos hm, if_pos (hmem.2 hm)]
        rfl
      · rw [if_neg hm, if_neg (fun h => hm (hmem.1 h))]
        rfl

end Mapping

end RowRecipe
