import RowRecipe.Dialect
import RowRecipe.Registry
import RowRecipe.Text.Lines

/-!
# Migration

Legacy recipes name columns by bare words and give single punctuation marks without quotes. Migration
updates such arguments one by one and line by line: a bare word gets a colon where the usage of its
directive takes a column, and a punctuation mark gets quotes. Everything else stays as it is, comments
included.
-/

namespace RowRecipe.Migration

open Grammar

/-! ## Pieces of a line -/

/-- A part of a line: text that migration never looks at, or a piece that may be updated. -/
inductive Part
  | between (c : Char)
  | piece (text : List Char)

namespace Part

/-- The text of a part. -/
def text : Part → List Char
  | between c => [c]
  | piece text => text

end Part

/-- A text in braces. -/
def bracesCut? : List Char → Option Cut
  | '\x7b' :: cs =>
    match cs.dropWhile (· != '\x7d') with
    | [] => none
    | close :: rest => some ('\x7b' :: cs.takeWhile (· != '\x7d') ++ [close], rest)
  | _ => none

theorem bracesCut?_of {cs : List Char} {r : Cut} (h : bracesCut? cs = some r) : r.Of cs := by
  unfold bracesCut? at h
  split at h
  next cs =>
    have hs := List.takeWhile_append_dropWhile (p := (· != '\x7d')) (l := cs)
    split at h
    next => cases h
    next close rest hd =>
      cases h
      rw [hd] at hs
      refine ⟨List.cons_ne_nil _ _, ?_⟩
      conv => rhs; rw [← hs]
      simp
  next => cases h

/-- Whether `c` may stand in a bare piece. -/
def isBare (c : Char) : Bool :=
  !(Text.isBlank c || c == ';' || c == '\'' || c == '"' || c == '\x7b')

/-- The piece at the start of a text: a quoted text, a text in braces, a semicolon, or a bare piece. -/
def pieceCut? (cs : List Char) : Option Cut :=
  textCut? cs <|> bracesCut? cs <|> runCut? (· == ';') (fun _ => false) cs <|> runCut? isBare isBare cs

theorem pieceCut?_of {cs : List Char} {r : Cut} (h : pieceCut? cs = some r) : r.Of cs := by
  simp only [pieceCut?, Option.orElse_eq_orElse, Option.orElse_eq_or, Option.or_eq_some_iff] at h
  rcases h with h | ⟨_, h | ⟨_, h | ⟨_, h⟩⟩⟩
  · exact textCut?_of h
  · exact bracesCut?_of h
  · exact runCut?_of h
  · exact runCut?_of h

/-- The parts of a line, from left to right. -/
def parts (cs : List Char) : List Part :=
  match _h : pieceCut? cs with
  | some (text, rest) => .piece text :: parts rest
  | none =>
    match cs with
    | [] => []
    | c :: cs => .between c :: parts cs
termination_by cs.length
decreasing_by
  · exact (pieceCut?_of _h).length_lt
  · exact Nat.lt_succ_self _

/-- The parts of a line make up the line. -/
theorem parts_text (cs : List Char) : (parts cs).flatMap Part.text = cs := by
  fun_induction parts cs with
  | case1 cs text rest h ih =>
    rw [List.flatMap_cons, ih]
    exact (pieceCut?_of h).2
  | case2 => rfl
  | case3 c cs h ih =>
    rw [List.flatMap_cons, ih]
    rfl

/-! ## Arguments -/

/-- A word that may be the name of a column. -/
def isBareWord : List Char → Bool
  | [] => false
  | c :: cs => isNameStart c && cs.all fun c => c == '.' || isNameChar c

/-- Whether a piece names a truth value, in any case. -/
def isTruth (text : List Char) : Bool :=
  let lower := Text.lower (String.ofList text)
  lower == "true" || lower == "false"

/-- A single punctuation mark. -/
def isPunctuation : List Char → Bool
  | [c] => !(Text.isWordChar c || Text.isBlank c || c == '\'' || c == '"' || c == '\x7b' || c == '\x7d')
  | _ => false

/-- A word as a column. -/
def asColumn (text : List Char) : List Char :=
  ':' :: text

/-- A text in quotes. -/
def inQuotes (text : List Char) : List Char :=
  '\'' :: text.flatMap (fun c => if c = '\\' then ['\\', '\\'] else [c]) ++ ['\'']

/-- The columns of a list of bare words joined by commas, if there are two at least. -/
def columnList? (text : List Char) : Option (List Char) :=
  let words := text.splitOn ','
  if words.length > 1 && words.all isBareWord then
    some ([','].intercalate (words.map asColumn))
  else none

/-- The current form of an argument that stands where the given variants are accepted. -/
def currentForm (accepts : List TokenType) (text : List Char) : List Char :=
  let takesList := accepts.contains .columnNameList
  let takesColumn := takesList || accepts.contains .columnName
  if takesColumn && isBareWord text && !isTruth text then asColumn text
  else match (if takesList then columnList? text else none) with
    | some columns => columns
    | none => if isPunctuation text then inQuotes text else text

/-- The variants that are accepted at an index. -/
def acceptsAt (usage? : Option UsageDefinition) (index : Nat) : List TokenType :=
  ((usage?.bind (·.slots[index]?)).map (·.accepts)).getD []

/-- The usage of a directive, if it is known. -/
def usageOf (known : Option Registry) (name : String) : Option UsageDefinition :=
  known.bind fun r => r.usages.get? name

/-! ## Replacements -/

/-- A piece and the place in its line where it starts. -/
structure Placed where
  start : Nat
  text : List Char

/-- The place behind a piece. -/
def Placed.stop (p : Placed) : Nat :=
  p.start + p.text.length

/-- The pieces among parts, the first of which starts at the place. -/
def placed : Nat → List Part → List Placed
  | _, [] => []
  | n, .between _ :: ps => placed (n + 1) ps
  | n, .piece text :: ps => ⟨n, text⟩ :: placed (n + text.length) ps

/-- A stretch of a line and the text that takes its place. -/
structure Replacement where
  start : Nat
  stop : Nat
  text : List Char

def Replacement.apply (r : Replacement) (cs : List Char) : List Char :=
  cs.take r.start ++ r.text ++ cs.drop r.stop

/-- What has to be replaced where a piece takes another form. -/
def Placed.replacement? (p : Placed) (form : List Char) : Option Replacement :=
  if form = p.text then none else some ⟨p.start, p.stop, form⟩

/-- What is replaced in a statement: the arguments that are not in their current form. -/
def statementReplacements (known : Option Registry) : List Placed → List Replacement
  | [] => []
  | name :: arguments =>
    if name.text.head? = some '#' then []
    else
      let usage? := usageOf known (String.ofList name.text)
      arguments.zipIdx.filterMap fun a => a.1.replacement? (currentForm (acceptsAt usage? a.2) a.1.text)

/-- What is replaced in a line, from left to right, up to a comment. The first pieces of the current statement are
given. -/
def replacements (known : Option Registry) (statement : List Placed) : List Placed → List Replacement
  | [] => statementReplacements known statement
  | p :: ps =>
    if "//".toList.isPrefixOf p.text then statementReplacements known statement
    else if p.text = [';'] then statementReplacements known statement ++ replacements known [] ps
    else replacements known (statement ++ [p]) ps

/-- Migrates one line. The last replacement comes first, so the places of the others stay right. -/
def line (known : Option Registry) (cs : List Char) : List Char :=
  (replacements known [] (placed 0 (parts cs))).foldr Replacement.apply cs

/-- Migrates a recipe and makes it declare the current version. Without a registry no directive has a
known usage. -/
def migrate (known : Option Registry) (text : String) : String :=
  let migrated := Text.unlines ((Text.lines text.toList).map (line known))
  if (Dialect.versionIn? migrated).isSome then String.ofList (Dialect.retarget migrated)
  else Dialect.versionPragma Dialect.target ++ "; " ++ String.ofList migrated

end RowRecipe.Migration
