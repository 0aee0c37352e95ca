import RowRecipe.Error
import RowRecipe.Grammar.Literal

/-!
# Dialects

A recipe declares the version of its dialect by a pragma. Recipes of version 1, and recipes that declare
no version, are in the legacy dialect. Pragmas are looked for in the whole text, comments included.
-/

namespace RowRecipe.Dialect

open Grammar

/-- The version that the current dialect has. -/
def target : String := "2.0"

/-- The pragma that declares a version. -/
def versionPragma (version : String) : String :=
  "#pragma version " ++ version

/-- Skips blanks; there has to be one at least. -/
def afterBlanks? (cs : List Char) : Option (List Char) :=
  (runCut? Text.isBlank Text.isBlank cs).map (·.2)

/-- The version that a pragma at the start of a text declares, and what follows the pragma. -/
def pragmaCut? (cs : List Char) : Option Cut := do
  let pragma ← wordCut? "#pragma".toList cs
  let word ← wordCut? "version".toList (← afterBlanks? pragma.2)
  runCut? (·.isDigit) (fun c => c.isDigit || c == '.') (← afterBlanks? word.2)

theorem pragmaCut?_length {cs : List Char} {r : Cut} (h : pragmaCut? cs = some r) :
    r.2.length < cs.length := by
  have skip {as bs : List Char} (h : afterBlanks? as = some bs) : bs.length < as.length := by
    obtain ⟨u, hu, rfl⟩ := Option.map_eq_some_iff.1 h
    exact (runCut?_of hu).length_lt
  simp only [pragmaCut?, Option.bind_eq_bind, Option.bind_eq_some_iff] at h
  obtain ⟨pragma, hp, as, has, word, hw, bs, hbs, hr⟩ := h
  have h1 := (wordCut?_of (by decide) hp).length_lt
  have h2 := skip has
  have h3 := (wordCut?_of (by decide) hw).length_lt
  have h4 := skip hbs
  have h5 := (runCut?_of hr).length_lt
  omega

/-- The first version that a text declares. -/
def versionIn? : List Char → Option String
  | [] => none
  | c :: cs =>
    match pragmaCut? (c :: cs) with
    | some r => some (String.ofList r.1)
    | none => versionIn? cs

/-- The first version that a recipe declares. -/
def declared? (text : String) : Option String :=
  versionIn? text.toList

/-- The text with every declared version replaced by the current one. -/
def retarget (cs : List Char) : List Char :=
  match _h : pragmaCut? cs with
  | some (_, rest) => (versionPragma target).toList ++ retarget rest
  | none =>
    match cs with
    | [] => []
    | c :: cs => c :: retarget cs
termination_by cs.length
decreasing_by
  · exact pragmaCut?_length _h
  · exact Nat.lt_succ_self _

/-- Whether a recipe is in the legacy dialect. Only the versions 1 and 2 are known. -/
def isLegacy (text : String) : Except CompileError Bool :=
  match declared? text with
  | none => pure true
  | some version =>
    let major := version.toList.takeWhile (· != '.')
    if major = ['1'] then pure true
    else if major = ['2'] then pure false
    else throw (.unsupportedVersion version)

/-- Declares names as supplied by the host, on the first line of a recipe. Blank names are left out. -/
def declareLoadable (names : List String) (text : String) : String :=
  let names := (names.map Text.trimmed).filter (!·.isEmpty)
  if names.isEmpty then text
  else "#pragma load-directives " ++ ", ".intercalate names ++ "; " ++ text

end RowRecipe.Dialect
