import Mathlib.Data.List.DropRight
import RowRecipe.Proofs.Migration.Insertion

/-!
# Migration piece by piece

A migrated line is made of what becomes of each part of the line, from left to right. What becomes of a part follows
from its own text and from the parts in front of it as they stood in the line: from whether a comment has started, and
from the pieces of its own statement.
-/

namespace RowRecipe.Migration

/-! ## In front of a part -/

/-- The text of a piece. -/
def Part.piece? : Part → Option (List Char)
  | between _ => none
  | piece text => some text

/-- The pieces among parts. -/
def piecesOf (ps : List Part) : List (List Char) :=
  ps.filterMap Part.piece?

/-- Whether a comment has started behind the given parts. -/
def commented (before : List Part) : Bool :=
  (piecesOf before).any ("//".toList.isPrefixOf ·)

/-- The pieces of the statement that is open behind the given parts: those behind the last semicolon. -/
def openStatement (before : List Part) : List (List Char) :=
  (piecesOf before).rtakeWhile (· ≠ [';'])

/-- What becomes of a part behind the given parts. A semicolon and all that stands in a comment, in front of the first
argument of a statement, or in a pragma is left as it is. An argument takes its current form. -/
def form (known : Option Registry) (before : List Part) : Part → List Char
  | .between c => [c]
  | .piece text =>
    if commented (before ++ [.piece text]) then text
    else if text = [';'] then text
    else match openStatement before with
      | [] => text
      | name :: arguments =>
        if name.head? = some '#' then text
        else currentForm (acceptsAt (usageOf known (String.ofList name)) arguments.length) text

variable {known : Option Registry} {before : List Part} {text : List Char}

theorem piecesOf_between (c : Char) : piecesOf (before ++ [.between c]) = piecesOf before := by
  rw [piecesOf, List.filterMap_append]
  exact List.append_nil _

theorem piecesOf_piece : piecesOf (before ++ [.piece text]) = piecesOf before ++ [text] :=
  List.filterMap_append

theorem commented_append (before behind : List Part) :
    commented (before ++ behind) = (commented before || commented behind) := by
  rw [commented, piecesOf, List.filterMap_append, List.any_append]
  rfl

theorem commented_between (c : Char) : commented (before ++ [.between c]) = commented before := by
  rw [commented_append]
  exact Bool.or_false _

theorem commented_piece :
    commented (before ++ [.piece text]) = (commented before || "//".toList.isPrefixOf text) := by
  have hpiece : commented [.piece text] = "//".toList.isPrefixOf text := Bool.or_false _
  rw [commented_append, hpiece]

theorem openStatement_between (c : Char) : openStatement (before ++ [.between c]) = openStatement before := by
  rw [openStatement, piecesOf_between, openStatement]

theorem openStatement_piece :
    openStatement (before ++ [.piece text]) = if text = [';'] then [] else openStatement before ++ [text] := by
  rw [openStatement, piecesOf_piece, List.rtakeWhile_concat, openStatement]
  simp

theorem openStatement_next : standingBehind known (openStatement (before ++ [.piece text])) =
    (standingBehind known (openStatement before)).next known text := by
  rw [openStatement_piece]
  split
  next hsemi =>
    symm
    exact if_pos hsemi
  next hsemi => exact standingBehind_concat _ hsemi

/-! ## What becomes of a part -/

theorem form_of_commented (h : commented before = true) (p : Part) : form known before p = p.text := by
  cases p with
  | between c => rfl
  | piece text =>
    have hcommented : commented (before ++ [.piece text]) = true := by rw [commented_append, h, Bool.true_or]
    exact if_pos hcommented

/-- Up to a comment, a piece becomes what its standing makes of it. -/
theorem form_piece (h : commented (before ++ [.piece text]) = false) :
    form known before (.piece text) = (standingBehind known (openStatement before)).updated text := by
  have hcommented : ¬ commented (before ++ [.piece text]) = true := ne_true_of_eq_false h
  rw [form, if_neg hcommented]
  cases openStatement before with
  | nil => exact ite_self text
  | cons name arguments =>
    simp only [standingBehind]
    by_cases hpragma : name.head? = some '#'
    · rw [if_pos hpragma, if_pos hpragma]
      exact ite_self text
    · rw [if_neg hpragma, if_neg hpragma]
      rfl

/-- Behind the start of a comment nothing changes. -/
theorem mapIdx_form_of_commented (h : commented before = true) (ps : List Part) :
    (ps.mapIdx fun i p => form known (before ++ ps.take i) p) = ps.map Part.text := by
  have hbehind (behind : List Part) : commented (before ++ behind) = true := by
    rw [commented_append, h, Bool.true_or]
  exact List.ext_getElem (by simp) fun i _ _ => by simp [form_of_commented (hbehind _)]

/-- A walk over parts makes of each of them what becomes of it. -/
theorem updateParts_eq (h : commented before = false) (ps : List Part) :
    updateParts known (standingBehind known (openStatement before)) ps =
      ps.mapIdx fun i p => form known (before ++ ps.take i) p := by
  induction ps generalizing before with
  | nil => rfl
  | cons p ps ih =>
    have htake (i : Nat) : before ++ (p :: ps).take (i + 1) = (before ++ [p]) ++ ps.take i := by simp
    rw [List.mapIdx_cons, List.take_zero, List.append_nil]
    simp only [htake]
    cases p with
    | between c =>
      rw [← ih ((commented_between c).trans h), openStatement_between]
      rfl
    | piece text =>
      cases hslash : "//".toList.isPrefixOf text with
      | true =>
        have hcommented : commented (before ++ [.piece text]) = true := by rw [commented_piece, hslash, Bool.or_true]
        rw [updateParts_comment hslash, mapIdx_form_of_commented hcommented, form, if_pos hcommented]
      | false =>
        have hcommented : commented (before ++ [.piece text]) = false := by rw [commented_piece, h, hslash]; rfl
        rw [updateParts_piece hslash, form_piece hcommented, ← openStatement_next, ih hcommented]

/-! ## A line -/

theorem Inserted.sublist {cs ds : List Char} (h : Inserted cs ds) : cs.Sublist ds := by
  induction h with
  | nil => exact .slnil
  | same c _ ih => exact ih.cons_cons c
  | mark _ _ ih => exact ih.cons _

/-- The parts of a line make up the line, and what becomes of each of them makes up the migrated line. So the line is
what is left of the migrated line without the inserted colons, quotes and backslashes. -/
theorem line_piecewise (known : Option Registry) (cs : List Char) :
    (parts cs).flatMap Part.text = cs ∧
      line known cs = ((parts cs).mapIdx fun i p => form known ((parts cs).take i) p).flatten ∧
      cs.Sublist (line known cs) ∧ Inserted cs (line known cs) := by
  have hwalk : updateParts known .name (parts cs) =
      (parts cs).mapIdx fun i p => form known ((parts cs).take i) p := @updateParts_eq known [] rfl (parts cs)
  have hinserted := inserted_line known cs
  refine ⟨parts_text cs, ?_, hinserted.sublist, hinserted⟩
  rw [line_eq, hwalk]

example : line none "cut a , ; #cut , ; cut , // cut ,".toList =
    "cut a ',' ; #cut , ; cut ',' // cut ,".toList := by decide +kernel

end RowRecipe.Migration
