import RowRecipe.Text.Blank
import RowRecipe.Text.Digit
import RowRecipe.Text.Letter
import RowRecipe.Number.Decimal.Text
import RowRecipe.Unit.Kind

/-!
# Lexical forms

How the words, columns, texts, numbers and quantities of a recipe are spelled. Each form is a cut: it
takes what it can from the start of a text and leaves the rest, or it takes nothing at all.
-/

namespace RowRecipe.Grammar

/-- What a form takes from a text, and the rest. -/
abbrev Cut := List Char × List Char

/-- A cut takes something, and its two parts make up the text. -/
def Cut.Of (r : Cut) (cs : List Char) : Prop :=
  r.1 ≠ [] ∧ r.1 ++ r.2 = cs

theorem Cut.Of.length_lt {r : Cut} {cs : List Char} (h : r.Of cs) : r.2.length < cs.length := by
  have : 0 < r.1.length := List.length_pos_iff.2 h.1
  rw [← h.2, List.length_append]
  omega

/-- A fixed word. -/
def wordCut? (word cs : List Char) : Option Cut :=
  if word.isPrefixOf cs then some (word, cs.drop word.length) else none

theorem wordCut?_of {word cs : List Char} {r : Cut} (hw : word ≠ []) (h : wordCut? word cs = some r) :
    r.Of cs := by
  unfold wordCut? at h
  split at h
  next hp =>
    cases h
    exact ⟨hw, List.prefix_iff_eq_append.1 (List.isPrefixOf_iff_prefix.1 hp)⟩
  next => cases h

/-- A character of one class and as many of another class as follow. -/
def runCut? (first more : Char → Bool) (cs : List Char) : Option Cut :=
  match cs with
  | [] => none
  | c :: cs => if first c then some (c :: cs.takeWhile more, cs.dropWhile more) else none

theorem runCut?_of {first more : Char → Bool} {cs : List Char} {r : Cut}
    (h : runCut? first more cs = some r) : r.Of cs := by
  unfold runCut? at h
  split at h
  next => cases h
  next c cs =>
    split at h
    next =>
      cases h
      exact ⟨List.cons_ne_nil _ _, by simp⟩
    next => cases h

/-- Whether `c` may start a name. -/
def isNameStart (c : Char) : Bool :=
  c == '_' || Text.isLatin c

/-- Whether `c` may stand in a name. -/
def isNameChar (c : Char) : Bool :=
  c == '-' || Text.isWordChar c

/-- A name: of a directive, or a bare word. -/
def nameCut? (cs : List Char) : Option Cut :=
  runCut? isNameStart isNameChar cs

/-- A column: a colon and a name, which may hold points. -/
def columnCut? : List Char → Option Cut
  | ':' :: cs => (runCut? isNameStart (fun c => c == '.' || isNameChar c) cs).map fun r => (':' :: r.1, r.2)
  | _ => none

/-- The rest of a quoted text up to its closing quote. A backslash takes the next character along, which
must not end the line. -/
def closingCut? (quote : Char) : List Char → Option Cut
  | [] => none
  | '\\' :: c :: cs =>
    if c = '\n' then none else (closingCut? quote cs).map fun r => ('\\' :: c :: r.1, r.2)
  | c :: cs =>
    if c = quote then some ([c], cs)
    else if c = '\\' then none
    else (closingCut? quote cs).map fun r => (c :: r.1, r.2)

/-- A text in single or double quotes. -/
def textCut? : List Char → Option Cut
  | c :: cs =>
    if c = '\'' ∨ c = '"' then (closingCut? c cs).map fun r => (c :: r.1, r.2) else none
  | [] => none

/-- An unsigned number: digits, and a point only between digits. -/
def unsignedCut? (cs : List Char) : Option Cut :=
  let whole := Decimal.spanDigits cs
  if whole.1.isEmpty then none
  else match whole.2 with
    | '.' :: r =>
      let part := Decimal.spanDigits r
      if part.1.isEmpty then some whole else some (whole.1 ++ '.' :: part.1, part.2)
    | _ => some whole

/-- A number with or without a minus sign. -/
def numberCut? : List Char → Option Cut
  | '-' :: cs => (unsignedCut? cs).map fun r => ('-' :: r.1, r.2)
  | cs => unsignedCut? cs

/-- A version: numbers joined by points. -/
def versionRun : List Char → Cut
  | [] => ([], [])
  | c :: cs =>
    if Text.isDigit c || (c == '.' && cs.head?.any Text.isDigit) then
      let r := versionRun cs
      (c :: r.1, r.2)
    else ([], c :: cs)

/-- A version, which starts with a digit. -/
def versionCut? (cs : List Char) : Option Cut :=
  if cs.head?.any Text.isDigit then some (versionRun cs) else none

/-- The opening of properties: `prop`, a colon and a brace, with any blanks between them. -/
def openingCut? (cs : List Char) : Option Cut :=
  match wordCut? "prop".toList cs with
  | none => none
  | some r =>
    let first := r.2.takeWhile Text.isBlank
    match r.2.dropWhile Text.isBlank with
    | ':' :: cs =>
      let second := cs.takeWhile Text.isBlank
      match cs.dropWhile Text.isBlank with
      | '\x7b' :: cs => some (r.1 ++ first ++ ':' :: second ++ ['\x7b'], cs)
      | _ => none
    | _ => none

/-! ## Units -/

/-- The spelling of a unit. -/
structure Spelling where
  text : String
  /-- Whether letters of both cases are taken. -/
  anyCase : Bool

/-- Whether `c` is the Latin letter `l` up to case. Besides the capital letter these are the dotted
capital and the dotless small i, the long s, and the sign for kelvin. -/
def sameLetter (l c : Char) : Bool :=
  c == l || c == l.toUpper ||
    (l == 'i' && (c.toNat == 0x130 || c.toNat == 0x131)) ||
    (l == 's' && c.toNat == 0x17f) || (l == 'k' && c.toNat == 0x212a)

/-- Takes a spelling letter by letter. -/
def lettersCut? (same : Char → Char → Bool) : List Char → List Char → Option Cut
  | [], cs => some ([], cs)
  | _ :: _, [] => none
  | l :: ls, c :: cs => if same l c then (lettersCut? same ls cs).map fun r => (c :: r.1, r.2) else none

/-- Whether a unit may end before this text: no letter of a unit, digit or underscore follows. -/
def endsUnit (cs : List Char) : Bool :=
  !cs.head?.any fun c => Text.isLatin c || c.isDigit || c == '_' || c == 'µ'

/-- A spelling of a unit that ends here. -/
def Spelling.cut? (s : Spelling) (cs : List Char) : Option Cut :=
  (lettersCut? (if s.anyCase then sameLetter else (· == ·)) s.text.toList cs).filter fun r => endsUnit r.2

/-- The spellings of the units of a kind. -/
def spellings : UnitKind → List Spelling
  | .size =>
    ["YiB", "ZiB", "EiB", "PiB", "TiB", "GiB", "MiB", "KiB", "YB", "ZB", "EB", "PB", "TB", "GB", "MB",
      "KB", "B", "nibbles", "nibble", "bits", "bit"].map fun s => ⟨s, false⟩
  | .time =>
    (["nanoseconds", "nanosecond", "microseconds", "microsecond", "milliseconds", "millisecond",
      "seconds", "second", "minutes", "minute", "hours", "hour", "days", "day", "weeks", "week",
      "months", "month", "years", "year"].map fun s => ⟨s, true⟩) ++
    (["ns", "us", "µs", "ms", "sec", "min", "s", "m", "h", "d", "w", "y"].map fun s => ⟨s, false⟩)

/-- A number with a unit glued to it. -/
def quantityCut? (kind : UnitKind) (cs : List Char) : Option Cut :=
  match numberCut? cs with
  | none => none
  | some n => ((spellings kind).findSome? fun s => s.cut? n.2).map fun u => (n.1 ++ u.1, u.2)

/-- A number with letters glued to it. -/
def malformedCut? (cs : List Char) : Option Cut :=
  let letter (c : Char) : Bool := Text.isLatin c || c == 'µ'
  match numberCut? cs with
  | none => none
  | some n => (runCut? letter letter n.2).map fun u => (n.1 ++ u.1, u.2)

/-! ## Every form cuts -/

/-- What follows a cut extends it. -/
theorem Cut.Of.cons {r : Cut} {cs : List Char} (h : r.Of cs) (c : Char) :
    Cut.Of (c :: r.1, r.2) (c :: cs) :=
  ⟨List.cons_ne_nil _ _, by rw [List.cons_append, h.2]⟩

theorem columnCut?_of {cs : List Char} {r : Cut} (h : columnCut? cs = some r) : r.Of cs := by
  unfold columnCut? at h
  split at h
  next cs =>
    obtain ⟨u, hu, rfl⟩ := Option.map_eq_some_iff.1 h
    exact (runCut?_of hu).cons ':'
  next => cases h

theorem closingCut?_of {quote : Char} {cs : List Char} {r : Cut} (h : closingCut? quote cs = some r) :
    r.Of cs := by
  fun_induction closingCut? quote cs generalizing r with
  | case1 => cases h
  | case2 => cases h
  | case3 c cs hc ih =>
    obtain ⟨u, hu, rfl⟩ := Option.map_eq_some_iff.1 h
    exact ((ih hu).cons c).cons '\\'
  | case4 =>
    cases h
    exact ⟨List.cons_ne_nil _ _, rfl⟩
  | case5 => cases h
  | case6 c cs _ _ _ ih =>
    obtain ⟨u, hu, rfl⟩ := Option.map_eq_some_iff.1 h
    exact (ih hu).cons c

theorem textCut?_of {cs : List Char} {r : Cut} (h : textCut? cs = some r) : r.Of cs := by
  unfold textCut? at h
  split at h
  next c cs =>
    split at h
    next =>
      obtain ⟨u, hu, rfl⟩ := Option.map_eq_some_iff.1 h
      exact (closingCut?_of hu).cons c
    next => cases h
  next => cases h

theorem spanDigits_append (cs : List Char) :
    (Decimal.spanDigits cs).1 ++ (Decimal.spanDigits cs).2 = cs :=
  List.takeWhile_append_dropWhile

theorem unsignedCut?_of {cs : List Char} {r : Cut} (h : unsignedCut? cs = some r) : r.Of cs := by
  have hs := spanDigits_append cs
  unfold unsignedCut? at h
  simp only at h
  split at h
  next => cases h
  next hne =>
    have hne : (Decimal.spanDigits cs).1 ≠ [] := by simpa using hne
    split at h
    next rest hrest =>
      split at h
      next => cases h; exact ⟨hne, hs⟩
      next =>
        cases h
        refine ⟨by simp, ?_⟩
        rw [List.append_assoc, List.cons_append, spanDigits_append, ← hrest, hs]
    next => cases h; exact ⟨hne, hs⟩

theorem numberCut?_of {cs : List Char} {r : Cut} (h : numberCut? cs = some r) : r.Of cs := by
  unfold numberCut? at h
  split at h
  next cs =>
    obtain ⟨u, hu, rfl⟩ := Option.map_eq_some_iff.1 h
    exact (unsignedCut?_of hu).cons '-'
  next => exact unsignedCut?_of h

theorem versionRun_append (cs : List Char) : (versionRun cs).1 ++ (versionRun cs).2 = cs := by
  fun_induction versionRun cs with
  | case1 => rfl
  | case2 c cs _ r ih => rw [List.cons_append, ih]
  | case3 => rfl

theorem versionCut?_of {cs : List Char} {r : Cut} (h : versionCut? cs = some r) : r.Of cs := by
  unfold versionCut? at h
  split at h
  next hd =>
    cases h
    refine ⟨?_, versionRun_append cs⟩
    cases cs with
    | nil => cases hd
    | cons c cs =>
      have hd : Text.isDigit c = true := by simpa using hd
      simp [versionRun, hd]
  next => cases h

theorem openingCut?_of {cs : List Char} {r : Cut} (h : openingCut? cs = some r) : r.Of cs := by
  unfold openingCut? at h
  split at h
  next => cases h
  next u hu =>
    have hu := wordCut?_of (by decide) hu
    have hb := List.takeWhile_append_dropWhile (p := Text.isBlank) (l := u.2)
    split at h
    next rest hrest =>
      have hb' := List.takeWhile_append_dropWhile (p := Text.isBlank) (l := rest)
      split at h
      next rest' hrest' =>
        cases h
        refine ⟨by simp, ?_⟩
        rw [hrest'] at hb'
        rw [hrest] at hb
        have hcs : u.1 ++ (u.2.takeWhile Text.isBlank ++ ':' :: rest) = cs := by rw [hb, hu.2]
        rw [← hb'] at hcs
        conv => rhs; rw [← hcs]
        simp
      next => cases h
    next => cases h

theorem lettersCut?_append {same : Char → Char → Bool} {ls cs : List Char} {r : Cut}
    (h : lettersCut? same ls cs = some r) : r.1 ++ r.2 = cs := by
  fun_induction lettersCut? same ls cs generalizing r with
  | case1 => cases h; rfl
  | case2 => cases h
  | case3 l ls c cs _ ih =>
    obtain ⟨u, hu, rfl⟩ := Option.map_eq_some_iff.1 h
    rw [List.cons_append, ih hu]
  | case4 => cases h

/-- A cut that continues a cut. -/
theorem Cut.Of.append {r u : Cut} {cs : List Char} (h : r.Of cs) (hu : u.1 ++ u.2 = r.2) :
    Cut.Of (r.1 ++ u.1, u.2) cs :=
  ⟨by simp [h.1], by rw [List.append_assoc, hu, h.2]⟩

theorem quantityCut?_of {kind : UnitKind} {cs : List Char} {r : Cut}
    (h : quantityCut? kind cs = some r) : r.Of cs := by
  unfold quantityCut? at h
  split at h
  next => cases h
  next n hn =>
    obtain ⟨u, hu, rfl⟩ := Option.map_eq_some_iff.1 h
    obtain ⟨s, _, hs⟩ := List.exists_of_findSome?_eq_some hu
    exact (numberCut?_of hn).append (lettersCut?_append (Option.eq_some_of_filter_eq_some hs))

theorem malformedCut?_of {cs : List Char} {r : Cut} (h : malformedCut? cs = some r) : r.Of cs := by
  unfold malformedCut? at h
  simp only at h
  split at h
  next => cases h
  next n hn =>
    obtain ⟨u, hu, rfl⟩ := Option.map_eq_some_iff.1 h
    exact (numberCut?_of hn).append (runCut?_of hu).2

end RowRecipe.Grammar
