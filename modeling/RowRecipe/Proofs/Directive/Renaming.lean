import Mathlib.Data.List.Forall2
import RowRecipe.Proofs.Directive.RowStep
import RowRecipe.Proofs.Mapping

/-!
# Renaming and back

A batch in which no row has a column of the new name is renamed cell by cell, and renaming back gives the batch
again. Otherwise renaming stops at the first row that has such a column, so no two columns ever become one.
-/

namespace RowRecipe.Rename

variable {a b : String} {row out : Row} {rows : List Row} {context : Context} {s : Session}

/-- The new name of a column. -/
def newName (a b name : String) : String :=
  if name = a then b else name

/-- The row has the same cells in the same places under the same names, but for the new name. -/
structure Renamed (a b : String) (row out : Row) : Prop where
  cells : List.Forall₂ (fun cell cell' => cell'.1 = newName a b cell.1 ∧ cell'.2 = cell.2) row out
  /-- No column is lost when the cells are written to a row one after the other. -/
  rebuilt : (Mapping.keys row).Nodup → (Mapping.keys out).Nodup ∧ Mapping.ofEntries out = out

/-! ## One row -/

theorem keys_renamed (r : Rename) (row : Row) :
    Mapping.keys (r.renamed row) = (Mapping.keys row).map (newName r.source r.target) := by
  simp only [Mapping.keys, renamed, List.map_map]
  rfl

theorem newName_injOn (hb : b ∉ Mapping.keys row) {name other : String} (hname : name ∈ Mapping.keys row)
    (hother : other ∈ Mapping.keys row) (h : newName a b name = newName a b other) : name = other := by
  have hne {name : String} (hname : name ∈ Mapping.keys row) : name ≠ b := by
    rintro rfl
    exact hb hname
  unfold newName at h
  split at h <;> split at h
  · next hn ho => rw [hn, ho]
  · exact absurd h.symm (hne hother)
  · exact absurd h (hne hname)
  · exact h

theorem nodup_keys_renamed (hb : b ∉ Mapping.keys row) (h : (Mapping.keys row).Nodup) :
    (Mapping.keys ((Rename.mk a b).renamed row)).Nodup := by
  rw [keys_renamed]
  exact h.map_on fun name hname other hother => newName_injOn hb hname hother

theorem renamed_of_free (hb : b ∉ Mapping.keys row) : Renamed a b row ((Rename.mk a b).renamed row) where
  cells := by
    rw [renamed, List.forall₂_map_right_iff, List.forall₂_same]
    exact fun cell _ => ⟨rfl, rfl⟩
  rebuilt h := ⟨nodup_keys_renamed hb h, Mapping.ofEntries_of_nodup (nodup_keys_renamed hb h)⟩

/-- The old name is free behind a renaming. -/
theorem source_not_mem_renamed (hab : a ≠ b) (row : Row) : a ∉ Mapping.keys ((Rename.mk a b).renamed row) := by
  rw [keys_renamed, List.mem_map]
  rintro ⟨name, -, h⟩
  unfold newName at h
  split at h
  · exact hab h.symm
  · next hne => exact hne h

theorem newName_newName (name : String) (hb : name ≠ b) : newName b a (newName a b name) = name := by
  unfold newName
  by_cases hname : name = a
  · rw [if_pos hname, if_pos rfl, hname]
  · rw [if_neg hname, if_neg hb]

theorem renamed_renamed (hb : b ∉ Mapping.keys row) :
    (Rename.mk b a).renamed ((Rename.mk a b).renamed row) = row := by
  have hcell : ∀ cell ∈ row, (newName b a (newName a b cell.1), cell.2) = cell := by
    intro cell hcell
    have hne : cell.1 ≠ b := by
      rintro rfl
      exact hb (List.mem_map_of_mem hcell)
    rw [newName_newName cell.1 hne]
  rw [renamed, renamed, List.map_map]
  exact (List.map_congr_left hcell).trans (List.map_id row)

/-! ## A batch -/

theorem has_iff : Mapping.has row b = true ↔ b ∈ Mapping.keys row :=
  Mapping.get?_isSome_iff row b

/-- Rows without a column of the new name are renamed one by one. -/
theorem rowsFrom_of_free (index : Nat) (h : ∀ row ∈ rows, b ∉ Mapping.keys row) :
    (Rename.mk a b).rowsFrom index rows = .ok (rows.map (Rename.mk a b).renamed) := by
  induction rows generalizing index with
  | nil => rfl
  | cons row rows ih =>
    rw [List.forall_mem_cons] at h
    rw [rowsFrom, if_neg (mt has_iff.mp h.1), ih (index + 1) h.2]
    rfl

/-- The first row that has a column of the new name is the one that is reported. -/
theorem rowsFrom_of_taken (index : Nat) {front rest : List Row} (hfront : ∀ row ∈ front, b ∉ Mapping.keys row)
    (htaken : b ∈ Mapping.keys row) :
    (Rename.mk a b).rowsFrom index (front ++ row :: rest) = .error ((Rename.mk a b).taken (index + front.length)) := by
  induction front generalizing index with
  | nil =>
    rw [List.nil_append, rowsFrom, if_pos (has_iff.mpr htaken)]
    rfl
  | cons first front ih =>
    rw [List.forall_mem_cons] at hfront
    have hindex : index + 1 + front.length = index + (first :: front).length := by
      rw [List.length_cons]
      omega
    rw [List.cons_append, rowsFrom, if_neg (mt has_iff.mp hfront.1), ih (index + 1) hfront.2, hindex]
    rfl

/-- In a batch there is a first row that has a column of the name, or none has. -/
theorem exists_first_or_free (b : String) (rows : List Row) :
    (∃ front row rest, rows = front ++ row :: rest ∧ (∀ row ∈ front, b ∉ Mapping.keys row) ∧ b ∈ Mapping.keys row) ∨
      ∀ row ∈ rows, b ∉ Mapping.keys row := by
  induction rows with
  | nil => exact .inr nofun
  | cons first rows ih =>
    by_cases hfirst : b ∈ Mapping.keys first
    · exact .inl ⟨[], first, rows, rfl, nofun, hfirst⟩
    · rcases ih with ⟨front, row, rest, rfl, hfront, htaken⟩ | hfree
      · exact .inl ⟨first :: front, row, rest, rfl, List.forall_mem_cons.mpr ⟨hfirst, hfront⟩, htaken⟩
      · exact .inr (List.forall_mem_cons.mpr ⟨hfirst, hfree⟩)

theorem execute_eq_rowsFrom (hab : a ≠ b) : (Rename.mk a b).toDirective.execute context rows s =
    match (Rename.mk a b).rowsFrom 0 rows with
    | .ok out => (.ok (some out), s)
    | .error e => (.error (.recipe (.execution e)), s) := by
  have happly : (Rename.mk a b).apply rows = (Rename.mk a b).rowsFrom 0 rows := if_neg hab
  rw [← happly]
  exact RowStep.execute_eq (.rename ⟨a, b⟩)

/-- Renaming a column fails at the first row that has a column of the new name, and names this row. If there is none,
all rows keep their cells in their places under their names, but for the new one, and renaming the column back gives
the batch again. -/
theorem execute_and_back (hab : a ≠ b) (rows : List Row) (context : Context) (s : Session) :
    (∃ front row rest, rows = front ++ row :: rest ∧ (∀ row ∈ front, b ∉ Mapping.keys row) ∧ b ∈ Mapping.keys row ∧
      (Rename.mk a b).toDirective.execute context rows s =
        (.error (.recipe (.execution
          { fault := .columnExists front.length a b
            directive := some "rename", row := some front.length, column := some b, value := .null })), s)) ∨
    ((∀ row ∈ rows, b ∉ Mapping.keys row) ∧ ∃ out,
      (Rename.mk a b).toDirective.execute context rows s = (.ok (some out), s) ∧
      List.Forall₂ (Renamed a b) rows out ∧
      ∀ (context' : Context) (t : Session),
        (Rename.mk b a).toDirective.execute context' out t = (.ok (some rows), t)) := by
  rcases exists_first_or_free b rows with ⟨front, row, rest, rfl, hfront, htaken⟩ | hfree
  · refine .inl ⟨front, row, rest, rfl, hfront, htaken, ?_⟩
    rw [execute_eq_rowsFrom hab, rowsFrom_of_taken 0 hfront htaken, Nat.zero_add]
    rfl
  · refine .inr ⟨hfree, rows.map (Rename.mk a b).renamed, ?_, ?_, fun context' t => ?_⟩
    · rw [execute_eq_rowsFrom hab, rowsFrom_of_free 0 hfree]
    · rw [List.forall₂_map_right_iff, List.forall₂_same]
      exact fun row hrow => renamed_of_free (hfree row hrow)
    · have hback : ∀ row ∈ rows.map (Rename.mk a b).renamed, a ∉ Mapping.keys row := by
        rw [List.forall_mem_map]
        exact fun row _ => source_not_mem_renamed hab row
      have hrows : (rows.map (Rename.mk a b).renamed).map (Rename.mk b a).renamed = rows := by
        rw [List.map_map]
        exact (List.map_congr_left fun row hrow => renamed_renamed (hfree row hrow)).trans (List.map_id rows)
      rw [execute_eq_rowsFrom hab.symm, rowsFrom_of_free 0 hback, hrows]

/-- Rows of different shapes. -/
def unevenRows : List Row :=
  [[("id", .int 1), ("old", .text "x"), ("note", .null)], [], [("older", .int 2), ("old", .int 3)]]

theorem execute_and_back_unevenRows : "old" ≠ "new" ∧ ∃ out,
    (Rename.mk "old" "new").toDirective.execute ⟨.transform, [], "default"⟩ unevenRows ⟨.empty, []⟩ =
      (.ok (some out), ⟨.empty, []⟩) ∧
    List.Forall₂ (Renamed "old" "new") unevenRows out ∧
    ∀ (context' : Context) (t : Session),
      (Rename.mk "new" "old").toDirective.execute context' out t = (.ok (some unevenRows), t) := by
  have hfree : ∀ row ∈ unevenRows, "new" ∉ Mapping.keys row := by decide
  refine ⟨by decide, ?_⟩
  rcases execute_and_back (a := "old") (b := "new") (by decide) unevenRows ⟨.transform, [], "default"⟩ ⟨.empty, []⟩ with
    ⟨front, row, rest, hrows, -, htaken, -⟩ | ⟨-, hout⟩
  · exact absurd htaken (hfree row (hrows ▸ List.mem_append_right front List.mem_cons_self))
  · exact hout

end RowRecipe.Rename
