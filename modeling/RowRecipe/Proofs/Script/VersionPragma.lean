import RowRecipe.Dialect
import RowRecipe.Proofs.Script.Taking
import RowRecipe.Script.Basic

/-!
# Scripts behind a version pragma

A script stays a script behind the pragma of the current version. The pragma becomes a statement of its own,
and the first line stays the first one.
-/

namespace RowRecipe.Script

open Grammar

variable {cs : List Char} {ps : List Piece}

/-- The first word of a pragma, with the blank behind it. -/
theorem takes_pragmaWord (hcs : ∀ c ∈ cs.head?, isGapBlank c = false) : Takes .statement ("#pragma".toList ++ ' ' :: cs)
    [⟨some .pragmaWord, "#pragma".toList⟩, ⟨none, [' ']⟩] .pragma cs := by
  have hstep : State.statement.step? ("#pragma".toList ++ ' ' :: cs) =
      some (⟨some .pragmaWord, "#pragma".toList⟩, .pragma, ' ' :: cs) := by
    refine State.step?_of_only rfl rfl fun u hu => ?_
    cases u with
    | pragmaWord => exact absurd rfl hu
    | separator => exact .inr (Terminal.cut?_eq_none_of_starts rfl)
    | name => exact .inr (Terminal.cut?_eq_none_of_starts (by decide +kernel))
    | _ => exact .inl rfl
  exact .cons hstep (.blank hcs .nil)

/-- The pieces of the pragma, and those of a text behind it. -/
def pragmaPieces (ps : List Piece) : List Piece :=
  ⟨some .pragmaWord, "#pragma".toList⟩ :: ⟨none, [' ']⟩ :: ⟨some .versionWord, "version".toList⟩ ::
    ⟨none, [' ']⟩ :: ⟨some .version, Dialect.target.toList⟩ :: ⟨some .separator, [';']⟩ :: ps

theorem takes_pragmaPieces (cs : List Char) :
    Takes .statement ("#pragma version 2.0;".toList ++ cs) (pragmaPieces []) .statement cs := by
  have hword : State.pragma.step? ("version 2.0;".toList ++ cs) =
      some (⟨some .versionWord, "version".toList⟩, .version, " 2.0;".toList ++ cs) := by
    refine State.step?_of_only rfl rfl fun u hu => ?_
    cases u with
    | versionWord => exact absurd rfl hu
    | loadWord => exact .inr (Terminal.cut?_eq_none_of_starts rfl)
    | _ => exact .inl rfl
  have hversion : State.version.step? ("2.0;".toList ++ cs) =
      some (⟨some .version, Dialect.target.toList⟩, .versionEnd, ';' :: cs) := by
    refine State.step?_of_only rfl rfl fun u hu => .inl ?_
    cases u <;> first | rfl | exact absurd rfl hu
  have hnumber := Takes.cons hversion (.semicolon rfl cs)
  have hblank {c : Char} {ds : List Char} (hc : isGapBlank c = false) :
      ∀ d ∈ (c :: ds).head?, isGapBlank d = false := by
    rintro _ ⟨⟩
    exact hc
  exact (takes_pragmaWord (hblank rfl)).append (.cons hword (.blank (hblank rfl) hnumber))

theorem scanned_pragmaPieces (h : Scanned .statement cs ps) :
    Scanned .statement ("#pragma version 2.0;".toList ++ cs) (pragmaPieces ps) :=
  (takes_pragmaPieces cs).scanned h

/-- The pragma is a statement of its own, which gives the current version. -/
theorem statements_pragmaPieces_eq (ps : List Piece) : (ofLexemes (locate .origin (pragmaPieces ps))).statements =
    .version ⟨.version, Dialect.target, Place.origin.after "#pragma version ".toList⟩ ::
      (ofLexemes (locate (Place.origin.after "#pragma version 2.0;".toList) ps)).statements := by
  let place (text : String) : Place := Place.origin.after text.toList
  let pragma : List Lexeme := [⟨.pragmaWord, "#pragma", place ""⟩, ⟨.versionWord, "version", place "#pragma "⟩,
    ⟨.version, Dialect.target, place "#pragma version "⟩]
  let separator : Lexeme := ⟨.separator, ";", place "#pragma version 2.0"⟩
  have hlocate : locate .origin (pragmaPieces ps) = pragma ++ separator :: locate (place "#pragma version 2.0;") ps := rfl
  have hseparator : (separator.terminal == .separator) = true := rfl
  have hsplit := List.splitOnP_append_cons (p := (·.terminal == .separator)) pragma
    (locate (place "#pragma version 2.0;") ps) hseparator
  rw [ofLexemes, hlocate, hsplit]
  rfl

/-- It stands on the first line. -/
theorem statements_pragmaPieces (ps : List Piece) : ∃ (number : Lexeme) (place : Place), place.line = 1 ∧
    (ofLexemes (locate .origin (pragmaPieces ps))).statements =
      .version number :: (ofLexemes (locate place ps)).statements :=
  ⟨_, _, rfl, statements_pragmaPieces_eq ps⟩

end RowRecipe.Script
