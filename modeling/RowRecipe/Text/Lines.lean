import RowRecipe.Text.Blank

/-!
# Lines

A text is one line more than it has line ends. Joining the lines with line ends gives the text back.
-/

namespace RowRecipe.Text

/-- The lines of a text, without their ends. -/
def lines : List Char → List (List Char)
  | [] => [[]]
  | c :: cs =>
    if c = '\n' then [] :: lines cs
    else match lines cs with
      | l :: ls => (c :: l) :: ls
      | [] => [[c]]

/-- The text of lines. -/
def unlines : List (List Char) → List Char
  | [] => []
  | [l] => l
  | l :: ls => l ++ '\n' :: unlines ls

theorem lines_ne_nil (cs : List Char) : lines cs ≠ [] := by
  cases cs with
  | nil => simp [lines]
  | cons c cs =>
    rw [lines]
    split
    · simp
    · split <;> simp

theorem unlines_lines (cs : List Char) : unlines (lines cs) = cs := by
  induction cs with
  | nil => rfl
  | cons c cs ih =>
    rw [lines]
    split
    next h =>
      obtain ⟨l, ls, hl⟩ := List.exists_cons_of_ne_nil (lines_ne_nil cs)
      rw [hl] at ih ⊢
      rw [unlines, ih, h]
      · rfl
      · simp
    next =>
      split
      next l ls hl =>
        rw [hl] at ih
        rw [← ih]
        cases ls <;> rfl
      next hl => exact absurd hl (lines_ne_nil cs)

/-- A line, counted from one, without the blanks at its right end. -/
def lineAt? (source : String) (line : Nat) : Option String :=
  if line = 0 then none
  else (lines source.toList)[line - 1]?.map fun l => String.ofList (trimRight l)

/-- The characters of a text from one place up to another. -/
def slice (source : String) (start stop : Nat) : String :=
  String.ofList ((source.toList.drop start).take (stop - start))

end RowRecipe.Text
