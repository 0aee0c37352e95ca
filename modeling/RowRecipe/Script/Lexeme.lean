import RowRecipe.Grammar.Scan

/-!
# Lexemes

A lexeme is a terminal of a recipe with its text and its place. Lines end at line feeds only, and
columns count characters.
-/

namespace RowRecipe.Script

open Grammar

/-- A place in a text. -/
structure Place where
  /-- The number of characters before the place. -/
  offset : Nat
  /-- The line, counted from one. -/
  line : Nat
  /-- The column, counted from one. -/
  column : Nat
  deriving DecidableEq

namespace Place

/-- The place at which every text starts. -/
def origin : Place := ⟨0, 1, 1⟩

/-- The place behind a character. -/
def next (p : Place) (c : Char) : Place :=
  if c = '\n' then ⟨p.offset + 1, p.line + 1, 1⟩ else ⟨p.offset + 1, p.line, p.column + 1⟩

/-- The place behind a text. -/
def after (p : Place) (cs : List Char) : Place :=
  cs.foldl next p

theorem after_append (p : Place) (cs ds : List Char) : p.after (cs ++ ds) = (p.after cs).after ds :=
  List.foldl_append

theorem after_offset (p : Place) (cs : List Char) : (p.after cs).offset = p.offset + cs.length := by
  induction cs generalizing p with
  | nil => rfl
  | cons c cs ih =>
    have hc : (p.next c).offset = p.offset + 1 := by
      unfold next
      split <;> rfl
    rw [after, List.foldl_cons, ← after, ih, hc, List.length_cons]
    omega

end Place

/-- A terminal in its place. -/
structure Lexeme where
  terminal : Terminal
  text : String
  start : Place

namespace Lexeme

/-- The number of characters up to the end of the lexeme. -/
def stop (l : Lexeme) : Nat :=
  l.start.offset + l.text.length

end Lexeme

/-- The lexemes among the pieces of a text that starts at a place. -/
def locate (p : Place) : List Piece → List Lexeme
  | [] => []
  | x :: xs =>
    (x.terminal?.map fun t => ⟨t, String.ofList x.text, p⟩).toList ++ locate (p.after x.text) xs

theorem locate_append (p : Place) (xs ys : List Piece) :
    locate p (xs ++ ys) = locate p xs ++ locate (p.after (Piece.textOf xs)) ys := by
  induction xs generalizing p with
  | nil => rfl
  | cons x xs ih =>
    rw [List.cons_append, locate, locate, ih, List.append_assoc, ← Place.after_append]
    rfl

end RowRecipe.Script
