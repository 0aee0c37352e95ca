import RowRecipe.Proofs.Migration.Alignment

/-!
# Lines of a migrated recipe

Migration goes line by line, and a version pragma on one line is replaced on that line. The words of a pragma may also
stand on several lines: the pragma that replaces it stands on one, so the lines behind it move up. These are the only
line ends that a recipe loses, and if there are none, every line is migrated on its own.
-/

namespace RowRecipe

/-! ## Lines -/

namespace Text

open Migration

variable {c : Char} {w l cs : List Char} {ls : List (List Char)}

theorem lines_newline : lines ('\n' :: cs) = [] :: lines cs := by
  rw [lines, if_pos rfl]

/-- What stands in front of a text belongs to its first line. -/
theorem lines_append (hw : '\n' ∉ w) : lines (w ++ cs) = (lines cs).modifyHead (w ++ ·) := by
  rw [lines_eq, lineOf_append hw, followingLines_append hw, lines_eq cs]
  rfl

theorem lines_cons (hc : c ≠ '\n') : lines (c :: cs) = (lines cs).modifyHead (c :: ·) :=
  lines_append (w := [c]) (mt List.mem_singleton.mp (Ne.symm hc))

theorem length_lines (cs : List Char) : (lines cs).length = cs.count '\n' + 1 := by
  induction cs with
  | nil => rfl
  | cons c cs ih =>
    by_cases hc : c = '\n'
    · rw [hc, lines_newline, List.length_cons, ih, List.count_cons_self]
    · rw [lines_cons hc, List.length_modifyHead, ih, List.count_cons_of_ne hc]

theorem newline_not_mem_of_mem_lines (h : l ∈ lines cs) : '\n' ∉ l := by
  induction cs generalizing l with
  | nil =>
    rw [lines, List.mem_singleton] at h
    rw [h]
    exact List.not_mem_nil
  | cons c cs ih =>
    by_cases hc : c = '\n'
    · rw [hc, lines_newline] at h
      rcases List.mem_cons.mp h with rfl | h
      · exact List.not_mem_nil
      · exact ih h
    · rw [lines_cons hc, lines_eq, List.modifyHead_cons] at h
      rcases List.mem_cons.mp h with rfl | h
      · exact List.not_mem_cons_of_ne_of_not_mem (Ne.symm hc) newline_not_mem_lineOf
      · exact ih (by rw [lines_eq cs]; exact List.mem_cons_of_mem _ h)

/-- The lines of joined lines are the lines. -/
theorem lines_unlines (hne : ls ≠ []) (h : ∀ l ∈ ls, '\n' ∉ l) : lines (unlines ls) = ls := by
  induction ls with
  | nil => exact absurd rfl hne
  | cons l ls ih =>
    rw [List.forall_mem_cons] at h
    cases ls with
    | nil =>
      have hlines : lines (l ++ []) = (lines []).modifyHead (l ++ ·) := lines_append h.1
      rw [List.append_nil] at hlines
      rw [unlines, hlines, lines, List.modifyHead_cons, List.append_nil]
    | cons l' ls =>
      have hjoin : unlines (l :: l' :: ls) = l ++ '\n' :: unlines (l' :: ls) := rfl
      rw [hjoin, lines_append h.1, lines_newline, ih (List.cons_ne_nil _ _) h.2, List.modifyHead_cons, List.append_nil]

end Text

/-! ## Version pragmas -/

namespace Dialect

open Grammar Migration

variable {cs ds w : List Char} {c : Char} {r : Cut}

/-- A character of a version. -/
def isNumeral (c : Char) : Bool :=
  c.isDigit || c == '.'

/-- A version pragma, with the blanks between its words. -/
structure WrittenPragma where
  gap : List Char
  space : List Char
  digit : Char
  numerals : List Char
  gap_blank : ∀ c ∈ gap, Text.isBlank c = true
  gap_ne : gap ≠ []
  space_blank : ∀ c ∈ space, Text.isBlank c = true
  space_ne : space ≠ []
  digit_isDigit : digit.isDigit = true
  numerals_numeral : ∀ c ∈ numerals, isNumeral c = true

namespace WrittenPragma

variable (p : WrittenPragma)

/-- The words behind the number sign. -/
def words : List Char :=
  "pragma".toList ++ (p.gap ++ ("version".toList ++ (p.space ++ p.digit :: p.numerals)))

def text : List Char :=
  '#' :: p.words

theorem words_eq : p.words = "pragma".toList ++ (p.gap ++ ("version".toList ++ (p.space ++ p.digit :: p.numerals))) :=
  rfl

theorem of_mem_words (h : c ∈ p.words) : Text.isBlank c = true ∨ isNumeral c = true ∨ c.isAlpha = true := by
  simp only [words_eq, List.mem_append, List.mem_cons] at h
  rcases h with h | h | h | h | rfl | h
  · exact .inr (.inr (List.all_eq_true.mp (by decide) c h))
  · exact .inl (p.gap_blank c h)
  · exact .inr (.inr (List.all_eq_true.mp (by decide) c h))
  · exact .inl (p.space_blank c h)
  · exact .inr (.inl (by rw [isNumeral, p.digit_isDigit]; rfl))
  · exact .inr (.inl (p.numerals_numeral c h))

theorem not_mem_words (hblank : Text.isBlank c = false) (hnumeral : isNumeral c = false) (halpha : c.isAlpha = false) :
    c ∉ p.words := by
  intro h
  rcases p.of_mem_words h with h | h | h
  · exact absurd h (by simp [hblank])
  · exact absurd h (by simp [hnumeral])
  · exact absurd h (by simp [halpha])

theorem not_mem_text (hsign : c ≠ '#') (hblank : Text.isBlank c = false) (hnumeral : isNumeral c = false)
    (halpha : c.isAlpha = false) : c ∉ p.text := by
  rw [text, List.mem_cons, not_or]
  exact ⟨hsign, p.not_mem_words hblank hnumeral halpha⟩

/-- A pragma is recognised whatever follows, and numerals behind it belong to it. -/
theorem pragmaCut?_text (rest : List Char) : pragmaCut? (p.text ++ rest) =
    some (p.digit :: (p.numerals ++ rest.takeWhile isNumeral), rest.dropWhile isNumeral) := by
  have htext : p.text ++ rest = "#pragma".toList ++
      (p.gap ++ ("version".toList ++ (p.space ++ p.digit :: (p.numerals ++ rest)))) := by
    simp only [text, words_eq, List.cons_append, List.append_assoc]
    rfl
  rw [htext, pragmaCut?_written p.gap_blank p.gap_ne p.space_blank p.space_ne p.digit_isDigit, runCut?,
    if_pos p.digit_isDigit]
  change some (p.digit :: (p.numerals ++ rest).takeWhile isNumeral, (p.numerals ++ rest).dropWhile isNumeral) = _
  rw [List.takeWhile_append_of_pos p.numerals_numeral, List.dropWhile_append_of_pos p.numerals_numeral]

end WrittenPragma

/-- Where a version is cut off, a pragma is written, and no numeral stands behind it. -/
theorem exists_of_pragmaCut? (h : pragmaCut? cs = some r) :
    ∃ p : WrittenPragma, cs = p.text ++ r.2 ∧ ∀ c ∈ r.2.head?, isNumeral c = false := by
  obtain ⟨u, v, d, rest, hu, hune, hv, hvne, hd, rfl⟩ := pragmaCut?_isSome.mp (Option.isSome_of_eq_some h)
  rw [pragmaCut?_written hu hune hv hvne hd, runCut?, if_pos hd] at h
  cases h
  refine ⟨⟨u, v, d, rest.takeWhile isNumeral, hu, hune, hv, hvne, hd, fun c => List.mem_takeWhile_imp⟩, ?_,
    head?_dropWhile (p := isNumeral) rest⟩
  have hrest : rest.takeWhile isNumeral ++ rest.dropWhile isNumeral = rest := List.takeWhile_append_dropWhile
  conv => lhs; rw [← hrest]
  simp only [WrittenPragma.text, WrittenPragma.words_eq, List.cons_append, List.append_assoc]
  rfl

/-- Where no pragma starts in a text, none starts in a shorter one. -/
theorem pragmaCut?_eq_none_of_prefix (h : pragmaCut? cs = none) (hds : ds <+: cs) : pragmaCut? ds = none := by
  rw [Option.eq_none_iff_forall_ne_some]
  intro r hr
  obtain ⟨p, rfl, -⟩ := exists_of_pragmaCut? hr
  obtain ⟨more, rfl⟩ := hds
  rw [List.append_assoc, p.pragmaCut?_text] at h
  cases h

/-! ## Line ends in pragmas -/

/-- The number of line ends in a version pragma at the start of a text. -/
def lineEndsAt (cs : List Char) : Nat :=
  match pragmaCut? cs with
  | some r => cs.count '\n' - r.2.count '\n'
  | none => 0

/-- The number of line ends in the version pragmas of a text. -/
def pragmaLineEnds : List Char → Nat
  | [] => 0
  | c :: cs => lineEndsAt (c :: cs) + pragmaLineEnds cs

theorem lineEndsAt_none (h : pragmaCut? cs = none) : lineEndsAt cs = 0 := by
  rw [lineEndsAt, h]

theorem lineEndsAt_text (p : WrittenPragma) (rest : List Char) : lineEndsAt (p.text ++ rest) = p.text.count '\n' := by
  have hnumerals : (rest.takeWhile isNumeral).count '\n' = 0 := by
    rw [List.count_eq_zero]
    exact fun hmem => absurd (List.mem_takeWhile_imp hmem) (by decide)
  have hrest := congrArg (List.count '\n') (List.takeWhile_append_dropWhile (p := isNumeral) (l := rest))
  rw [List.count_append, hnumerals, Nat.zero_add] at hrest
  rw [lineEndsAt, p.pragmaCut?_text, List.count_append]
  exact Nat.sub_eq_of_eq_add (by rw [hrest])

theorem pragmaLineEnds_append (hw : '#' ∉ w) : pragmaLineEnds (w ++ cs) = pragmaLineEnds cs := by
  induction w with
  | nil => rfl
  | cons c w ih =>
    rw [List.mem_cons, not_or] at hw
    rw [List.cons_append, pragmaLineEnds, lineEndsAt_none (pragmaCut?_eq_none (Ne.symm hw.1)), Nat.zero_add, ih hw.2]

/-- No pragma starts within a pragma. -/
theorem pragmaLineEnds_text (p : WrittenPragma) (rest : List Char) :
    pragmaLineEnds (p.text ++ rest) = p.text.count '\n' + pragmaLineEnds rest := by
  have hwords : '#' ∉ p.words := p.not_mem_words (by decide) (by decide) (by decide)
  calc pragmaLineEnds (p.text ++ rest)
      _ = lineEndsAt (p.text ++ rest) + pragmaLineEnds (p.words ++ rest) := rfl
      _ = p.text.count '\n' + pragmaLineEnds rest := by rw [lineEndsAt_text, pragmaLineEnds_append hwords]

/-- Marks do not make a pragma appear, so the line ends in pragmas do not get more. -/
theorem pragmaLineEnds_of_inserted (h : Inserted cs ds) : pragmaLineEnds ds ≤ pragmaLineEnds cs := by
  induction h with
  | nil => exact le_rfl
  | @same cs ds c h ih =>
    refine Nat.add_le_add ?_ ih
    cases hcut : pragmaCut? (c :: ds) with
    | none =>
      rw [lineEndsAt_none hcut]
      exact Nat.zero_le _
    | some r =>
      obtain ⟨p, hds, -⟩ := exists_of_pragmaCut? hcut
      have hplain : ∀ c ∈ p.text, isInserted c = false := by
        intro c hc
        rw [← Bool.not_eq_true, isInserted, Bool.or_eq_true, Bool.or_eq_true, beq_iff_eq, beq_iff_eq, beq_iff_eq]
        rintro ((rfl | rfl) | rfl) <;> exact p.not_mem_text (by decide) (by decide) (by decide) (by decide) hc
      have hinserted := Inserted.same c h
      rw [hds] at hinserted
      obtain ⟨es, hcs, -⟩ := hinserted.of_append hplain
      rw [hds, hcs, lineEndsAt_text, lineEndsAt_text]
  | @mark cs ds c hc _ ih =>
    rw [pragmaLineEnds, lineEndsAt_none (pragmaCut?_eq_none (ne_sign_of_isInserted hc)), Nat.zero_add]
    exact ih

/-! ## Replacing versions -/

theorem retarget_text (p : WrittenPragma) {rest : List Char} (h : ∀ c ∈ rest.head?, isNumeral c = false) :
    retarget (p.text ++ rest) = (versionPragma target).toList ++ retarget rest := by
  have hrest : rest.dropWhile isNumeral = rest := by
    cases rest with
    | nil => rfl
    | cons c rest => rw [List.dropWhile_cons, h c rfl]; rfl
  have hcut := p.pragmaCut?_text rest
  rw [hrest] at hcut
  rw [retarget]
  split
  next hsome =>
    rw [hcut] at hsome
    cases hsome
    rfl
  next hnone =>
    rw [hcut] at hnone
    cases hnone

theorem retarget_cons (h : pragmaCut? (c :: cs) = none) : retarget (c :: cs) = c :: retarget cs := by
  rw [retarget]
  split
  next hcut =>
    rw [h] at hcut
    cases hcut
  next => rfl

theorem retarget_nil : retarget [] = [] := by
  rw [retarget]
  rfl

theorem newline_not_mem_versionPragma : '\n' ∉ (versionPragma target).toList := by
  decide +kernel

/-- The line ends that are lost are those in the pragmas. -/
theorem count_retarget (cs : List Char) : (retarget cs).count '\n' + pragmaLineEnds cs = cs.count '\n' := by
  fun_induction retarget cs with
  | case1 cs _ rest hcut ih =>
    obtain ⟨p, rfl, -⟩ := exists_of_pragmaCut? hcut
    rw [List.count_append, List.count_eq_zero.mpr newline_not_mem_versionPragma, Nat.zero_add, pragmaLineEnds_text,
      List.count_append, ← ih]
    dsimp only
    omega
  | case2 => rfl
  | case3 c cs hcut ih =>
    rw [pragmaLineEnds, lineEndsAt_none hcut, List.count_cons, List.count_cons, ← ih]
    omega

/-- If no pragma goes over a line end, versions are replaced on each line. -/
theorem lines_retarget (h : pragmaLineEnds cs = 0) : Text.lines (retarget cs) = (Text.lines cs).map retarget := by
  fun_induction retarget cs with
  | case1 cs _ rest hcut ih =>
    obtain ⟨p, rfl, hhead⟩ := exists_of_pragmaCut? hcut
    rw [pragmaLineEnds_text, Nat.add_eq_zero_iff, List.count_eq_zero] at h
    have hline : ∀ c ∈ (lineOf rest).head?, isNumeral c = false := fun c hc => hhead c (head?_of_head?_lineOf hc)
    rw [Text.lines_append newline_not_mem_versionPragma, ih h.2, Text.lines_append h.1, lines_eq rest, List.map_cons,
      List.modifyHead_cons, List.modifyHead_cons, List.map_cons, retarget_text p hline]
  | case2 => rw [Text.lines, List.map_singleton, retarget_nil]
  | case3 c cs hcut ih =>
    rw [pragmaLineEnds, Nat.add_eq_zero_iff] at h
    by_cases hc : c = '\n'
    · rw [hc, Text.lines_newline, Text.lines_newline, List.map_cons, retarget_nil, ih h.2]
    · have hline : pragmaCut? (c :: lineOf cs) = none :=
        pragmaCut?_eq_none_of_prefix hcut (List.cons_prefix_cons.mpr ⟨rfl, List.takeWhile_prefix _⟩)
      rw [Text.lines_cons hc, Text.lines_cons hc, ih h.2, lines_eq cs, List.map_cons, List.modifyHead_cons,
        List.modifyHead_cons, List.map_cons, retarget_cons hline]

/-- Without a version there is nothing to replace. -/
theorem retarget_of_versionIn? (h : versionIn? cs = none) : retarget cs = cs := by
  induction cs with
  | nil => exact retarget_nil
  | cons c cs ih =>
    rw [versionIn?] at h
    split at h
    next => cases h
    next hcut => rw [retarget_cons hcut, ih h]

end Dialect

/-! ## Line by line -/

namespace Migration

open Dialect

variable {known : Option Registry} {l : List Char}

theorem newline_not_mem_line (h : '\n' ∉ l) : '\n' ∉ line known l := by
  intro hmem
  rcases (inserted_line known l).mem hmem with hmark | hmem
  · cases hmark
  · exact h hmem

/-- The migrated lines, in front of the version. -/
def migratedLines (known : Option Registry) (text : String) : List Char :=
  Text.unlines ((Text.lines text.toList).map (line known))

theorem lines_migratedLines (known : Option Registry) (text : String) :
    Text.lines (migratedLines known text) = (Text.lines text.toList).map (line known) := by
  apply Text.lines_unlines
  · rw [ne_eq, List.map_eq_nil_iff]
    exact Text.lines_ne_nil _
  · rw [List.forall_mem_map]
    exact fun l hl => newline_not_mem_line (Text.newline_not_mem_of_mem_lines hl)

/-- What stands in front of the first line: a version pragma, if there is none in the lines. -/
def declarationOf (migrated : List Char) : List Char :=
  if (versionIn? migrated).isSome then [] else (versionPragma target ++ "; ").toList

theorem newline_not_mem_declarationOf (migrated : List Char) : '\n' ∉ declarationOf migrated := by
  rw [declarationOf]
  split
  · exact List.not_mem_nil
  · decide +kernel

theorem toList_declaring (migrated : List Char) :
    (declaring migrated).toList = declarationOf migrated ++ retarget migrated := by
  rw [declaring, declarationOf]
  split
  next => rw [String.toList_ofList, List.nil_append]
  next h =>
    rw [Option.not_isSome_iff_eq_none] at h
    rw [String.toList_append, String.toList_ofList, retarget_of_versionIn? h]

theorem toList_migrate (known : Option Registry) (text : String) : (migrate known text).toList =
    declarationOf (migratedLines known text) ++ retarget (migratedLines known text) := by
  rw [migrate_eq, ← unlines_lines_eq_update, toList_declaring, migratedLines]

/-- Migration loses the line ends within version pragmas, of which there are no more than in the text, and no other ones.
Where there are none, each line is migrated on its own, but for the version in front of the first one. -/
theorem migrate_lines (known : Option Registry) (text : String) :
    (migrate known text).toList.count '\n' + pragmaLineEnds (migratedLines known text) = text.toList.count '\n' ∧
      pragmaLineEnds (migratedLines known text) ≤ pragmaLineEnds text.toList ∧
      (pragmaLineEnds (migratedLines known text) = 0 → Text.lines (migrate known text).toList =
        ((Text.lines text.toList).map fun l => retarget (line known l)).modifyHead
          (declarationOf (migratedLines known text) ++ ·)) := by
  have hdeclaration := newline_not_mem_declarationOf (migratedLines known text)
  refine ⟨?_, pragmaLineEnds_of_inserted (inserted_lines known text.toList), fun h => ?_⟩
  · have hcount : (migratedLines known text).count '\n' = text.toList.count '\n' := by
      have hlength := congrArg List.length (lines_migratedLines known text)
      rwa [List.length_map, Text.length_lines, Text.length_lines, Nat.add_right_cancel_iff] at hlength
    rw [toList_migrate, List.count_append, List.count_eq_zero.mpr hdeclaration, Nat.zero_add, count_retarget, hcount]
  · rw [toList_migrate, Text.lines_append hdeclaration, lines_retarget h, lines_migratedLines, List.map_map]
    rfl

theorem migrate_lines_redeclared :
    pragmaLineEnds (migratedLines (some .builtin) "rename a b\n#pragma version 1.0\n\ndrop c") = 0 ∧
      Text.lines (migrate (some .builtin) "rename a b\n#pragma version 1.0\n\ndrop c").toList =
        ["rename :a :b".toList, "#pragma version 2.0".toList, [], "drop :c".toList] := by
  have hends : pragmaLineEnds (migratedLines (some .builtin) "rename a b\n#pragma version 1.0\n\ndrop c") = 0 := by
    decide +kernel
  refine ⟨hends, ?_⟩
  rw [(migrate_lines (some .builtin) "rename a b\n#pragma version 1.0\n\ndrop c").2.2 hends]
  decide +kernel

/-- A version pragma in a comment, as it is looked for, and in the statement behind it. -/
def pragmaOverLines : String :=
  "x 1 // #pragma\nversion 1\nrename a b"

/-- The pragma takes the end of its line with it, so the renaming moves up a line. -/
theorem renaming_moved :
    (Recipe.ofText pragmaOverLines).toOption.map (·.groups.map fun g => (g.name, g.line)) =
        some [("x", 1), ("version", 2), ("rename", 3)] ∧
      pragmaOverLines.toList.count '\n' = 2 ∧
      migrate (some .builtin) pragmaOverLines = "x 1 // #pragma version 2.0\nrename :a :b" ∧
      (migrate (some .builtin) pragmaOverLines).toList.count '\n' = 1 ∧
      (Recipe.ofText (migrate (some .builtin) pragmaOverLines)).toOption.map (·.groups.map fun g => (g.name, g.line)) =
        some [("x", 1), ("rename", 2)] := by
  decide +kernel

end Migration

end RowRecipe
