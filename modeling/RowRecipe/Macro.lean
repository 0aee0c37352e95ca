import RowRecipe.Error
import RowRecipe.Value.Text

/-!
# Macros

A reference `${name}` in a recipe stands for the value of a macro. One pass replaces every reference that
holds no other; passes follow one another until the text settles, so inner references are replaced
before outer ones.
-/

namespace RowRecipe

/-- The values of macros by name. -/
abbrev Macros := Mapping Value

namespace Macros

variable (m : Macros)

/-- The text that replaces a reference. Blanks around the name do not matter; a name without a value is
replaced by nothing. -/
def replacement (name : List Char) : List Char :=
  match m.get? (Text.trimmed (String.ofList name)) with
  | none | some .null => []
  | some v => v.plain.toList

/-- The name up to the closing brace, and what follows it. A name holds no dollar sign and no brace. -/
def nameCut? : List Char → Option (List Char × List Char)
  | [] => none
  | c :: cs =>
    if c = '\x7d' then some ([], cs)
    else if c = '$' ∨ c = '\x7b' then none
    else (nameCut? cs).map fun r => (c :: r.1, r.2)

theorem nameCut?_length {cs : List Char} {r : List Char × List Char} (h : nameCut? cs = some r) :
    r.2.length < cs.length := by
  fun_induction nameCut? cs generalizing r with
  | case1 => cases h
  | case2 => cases h; exact Nat.lt_succ_self _
  | case3 => cases h
  | case4 c cs _ _ ih =>
    obtain ⟨u, hu, rfl⟩ := Option.map_eq_some_iff.1 h
    have := ih hu
    exact Nat.lt_succ_of_lt this

/-- The reference at the start of a text: its name, and what follows it. -/
def reference? : List Char → Option (List Char × List Char)
  | '$' :: '\x7b' :: cs => nameCut? cs
  | _ => none

theorem reference?_length {cs : List Char} {r : List Char × List Char} (h : reference? cs = some r) :
    r.2.length < cs.length := by
  unfold reference? at h
  split at h
  next => exact Nat.lt_succ_of_lt (Nat.lt_succ_of_lt (nameCut?_length h))
  next => cases h

/-- Replaces every reference once, from left to right. -/
def pass (cs : List Char) : List Char :=
  match _h : reference? cs with
  | some (name, rest) => m.replacement name ++ pass rest
  | none =>
    match cs with
    | [] => []
    | c :: cs => c :: pass cs
termination_by cs.length
decreasing_by
  · exact reference?_length _h
  · exact Nat.lt_succ_self _

/-- The text on which passes settle. There is none if every pass changes the text. -/
def settle? (cs : List Char) : Option (List Char) :=
  if m.pass cs = cs then some cs else settle?.comp m.pass cs
partial_fixpoint monotonicity fun _ _ h cs => by
  dsimp only
  split
  · exact .refl
  · exact h (m.pass cs)

/-- Replaces references until the text settles. An expansion that never ends has no text. -/
def expand (text : String) : Except CompileError String :=
  match m.settle? text.toList with
  | some cs => pure (String.ofList cs)
  | none => throw .unsettledMacros

end Macros

end RowRecipe
