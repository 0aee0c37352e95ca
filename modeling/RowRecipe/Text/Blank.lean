/-!
# Blank characters

The blank characters of every script, and the trimming of blanks from the ends of a text.
-/

namespace RowRecipe.Text

/-- Whether `c` lies in one of the given closed ranges of code points. -/
def inRanges (ranges : List (Nat × Nat)) (c : Char) : Bool :=
  ranges.any fun r => r.1 ≤ c.toNat && c.toNat ≤ r.2

/-- The blank characters: tabulators and line ends, the four information separators, and every space
and separator of Unicode. -/
def blankRanges : List (Nat × Nat) :=
  [(9, 13), (28, 32), (133, 133), (160, 160), (5760, 5760), (8192, 8202), (8232, 8233),
   (8239, 8239), (8287, 8287), (12288, 12288)]

def isBlank (c : Char) : Bool :=
  inRanges blankRanges c

/-- The blank characters without the four information separators. -/
def isSpace (c : Char) : Bool :=
  isBlank c && !inRanges [(28, 31)] c

/-- Drops the blanks at the left end. -/
def trimLeft (cs : List Char) : List Char :=
  cs.dropWhile isBlank

/-- Drops the blanks at the right end. -/
def trimRight (cs : List Char) : List Char :=
  (cs.reverse.dropWhile isBlank).reverse

/-- Drops the blanks at both ends. -/
def trim (cs : List Char) : List Char :=
  trimRight (trimLeft cs)

/-- The text without the blanks at its ends. -/
def trimmed (s : String) : String :=
  String.ofList (trim s.toList)

/-- A text that neither starts nor ends with a blank stays as it is. -/
theorem trimmed_of_ends {c : Char} {cs : List Char} (hfirst : isBlank c = false)
    (hlast : ∀ d ∈ (c :: cs).getLast?, isBlank d = false) :
    trimmed (String.ofList (c :: cs)) = String.ofList (c :: cs) := by
  have hleft : trimLeft (c :: cs) = c :: cs := by
    rw [trimLeft, List.dropWhile_cons_of_neg (by simp [hfirst])]
  have hright : trimRight (c :: cs) = c :: cs := by
    rw [trimRight]
    rw [← List.head?_reverse] at hlast
    cases hrev : (c :: cs).reverse with
    | nil => simp at hrev
    | cons d ds =>
      rw [hrev] at hlast
      rw [List.dropWhile_cons_of_neg (by simp [hlast d rfl]), ← hrev, List.reverse_reverse]
  rw [trimmed, String.toList_ofList, trim, hleft, hright]

end RowRecipe.Text
