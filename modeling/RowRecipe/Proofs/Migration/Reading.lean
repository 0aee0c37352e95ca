import RowRecipe.Proofs.Grammar.Excerpt
import RowRecipe.Proofs.Migration.Written
import RowRecipe.Proofs.Script.Excerpt
import RowRecipe.Proofs.Script.Items

/-!
# Reading migrated words

The words of a legacy statement are migrated one by one, and each is read as one argument: a name alone, or columns
joined by commas. What stands behind a word starts with a blank or with the end of the statement.
-/

namespace RowRecipe.Migration

open Grammar Script

variable {known : Option Registry} {accepts : List TokenType} {c : Char} {cs u w more : List Char} {s : State}
  {list : Option Terminal} {ps us : List Piece}

/-! ## The pieces of one word -/

theorem isLexical_of_isBareWord (h : isBareWord w = true) : ∀ c ∈ w, isLexical c = true := by
  cases w with
  | nil => simp
  | cons c cs =>
    rw [isBareWord, Bool.and_eq_true, List.all_eq_true] at h
    rw [List.forall_mem_cons]
    exact ⟨isLexical_of_isNameStart h.1, h.2⟩

theorem isBareWord_of_isName (h : isName w = true) : isBareWord w = true := by
  cases w with
  | nil => cases h
  | cons c cs =>
    rw [isName, Bool.and_eq_true, List.all_eq_true] at h
    rw [isBareWord, h.1, Bool.true_and, List.all_eq_true]
    intro d hd
    rw [h.2 d hd, Bool.or_true]

theorem exists_of_isName (hw : isName w = true) : ∃ c cs, w = c :: cs ∧ isNameStart c = true ∧
    ∀ d ∈ cs, isNameChar d = true := by
  cases w with
  | nil => cases hw
  | cons c cs =>
    rw [isName, Bool.and_eq_true, List.all_eq_true] at hw
    exact ⟨c, cs, rfl, hw.1, hw.2⟩

theorem nameCut?_of_isName (hw : isName w = true) (hd : Delimits more) : nameCut? (w ++ more) = some (w, more) := by
  obtain ⟨c, cs, rfl, hc, hcs⟩ := exists_of_isName hw
  have hmore : ∀ d ∈ more.head?, isNameChar d = false := hd.head fun d => isLexical_of_isNameChar
  rw [List.cons_append, nameCut?, runCut?, if_pos hc, takeWhile_append_of_head hmore,
    dropWhile_append_of_head hmore, List.takeWhile_eq_self_iff.mpr hcs, List.dropWhile_eq_nil_iff.mpr hcs,
    List.nil_append]

theorem isName_of_nameCut? {w : List Char} (h : nameCut? w = some (w, [])) : isName w = true := by
  have hcut : nameCut? (w ++ []) = some (w, []) := by rwa [List.append_nil]
  obtain ⟨⟨c, ds, rfl, hc⟩, hchars, -⟩ := nameCut?_again hcut
  rw [isName, hc, Bool.true_and, List.all_eq_true]
  exact fun d hd => hchars d (List.mem_cons_of_mem c hd)

/-- A name in front of a delimiter is read as one. -/
theorem scanned_name (hw : isName w = true) (hd : Delimits more) (h : Scanned (.arguments none) more ps) :
    Scanned (.arguments list) (w ++ more) (⟨some .name, w⟩ :: ps) := by
  have hcut := nameCut?_of_isName hw hd
  obtain ⟨c, cs, rfl, hc, -⟩ := exists_of_isName hw
  refine .step (State.step?_of_only rfl hcut fun t ht => ?_) h
  cases hnext : (State.arguments list).next? t with
  | none => exact .inl rfl
  | some s' =>
    right
    by_cases hopen : t = .opening
    · subst hopen
      exact openingCut?_eq_none hcut h
    · apply Terminal.cut?_eq_none_of_starts
      rw [← Bool.not_eq_true]
      intro hstart
      have hfirst : (State.arguments none).next? t = some s' := by
        cases t with
        | comma =>
          obtain rfl : c = ',' := beq_iff_eq.mp hstart
          cases hc
        | _ => exact hnext
      rcases name_or_opening rfl hfirst hstart hc with ⟨rfl, -, -⟩ | hopening
      · exact ht rfl
      · exact hopen hopening

/-- The pieces of columns behind a first one, each behind its comma. -/
def joinedPieces (ws : List (List Char)) : List Piece :=
  ws.flatMap fun w => [⟨some .comma, [',']⟩, ⟨some .column, asColumn w⟩]

/-- The pieces of columns that commas join. -/
def columnPieces : List (List Char) → List Piece
  | [] => []
  | w :: ws => ⟨some .column, asColumn w⟩ :: joinedPieces ws

theorem columnPieces_eq (ws : List (List Char)) : columnPieces ws = itemPieces .column (ws.map asColumn) := by
  have hjoined (ws : List (List Char)) : joinedPieces ws = moreItems .column (ws.map asColumn) := by
    rw [moreItems, List.flatMap_map]
    rfl
  cases ws with
  | nil => rfl
  | cons w ws => rw [columnPieces, hjoined, List.map_cons, itemPieces]

theorem textOf_columnPieces (w : List Char) (ws : List (List Char)) :
    Piece.textOf (columnPieces (w :: ws)) = [','].intercalate ((w :: ws).map asColumn) := by
  rw [columnPieces_eq, List.map_cons, textOf_itemPieces]

theorem columnName_of_text {l : Lexeme} (h : l.text = String.ofList (asColumn w)) : l.columnName = String.ofList w := by
  rw [Lexeme.columnName, h, String.toList_ofList]
  rfl

theorem step?_column {s' : State} (hs : s.next? .column = some s') (hw : isBareWord w = true) (hd : Delimits more) :
    s.step? (asColumn w ++ more) = some (⟨some .column, asColumn w⟩, s', more) := by
  obtain ⟨c, cs, rfl⟩ : ∃ c cs, w = c :: cs := by
    cases w with
    | nil => cases hw
    | cons c cs => exact ⟨c, cs, rfl⟩
  rw [isBareWord, Bool.and_eq_true, List.all_eq_true] at hw
  have hcut : columnCut? (':' :: (c :: cs ++ more)) = some (':' :: c :: cs, more) := by
    have hmore : ∀ d ∈ more.head?, (d == '.' || isNameChar d) = false := hd.head fun d hd => hd
    rw [columnCut?, List.cons_append, runCut?, if_pos hw.1, takeWhile_append_of_head hmore,
      dropWhile_append_of_head hmore, List.takeWhile_eq_self_iff.mpr hw.2, List.dropWhile_eq_nil_iff.mpr hw.2,
      List.nil_append]
    rfl
  refine State.step?_of_only hs hcut fun t ht => .inr ?_
  apply Terminal.cut?_eq_none_of_starts
  rw [← Bool.not_eq_true]
  intro hstart
  exact ht (Terminal.eq_of_starts (t := .column) rfl rfl hstart)

/-! ## The meaning of one word -/

/-- Pieces that are read as one argument with the given meaning. -/
structure ReadsAs (us : List Piece) (m : Meaning) : Prop where
  separators : ∀ p ∈ us, p.terminal? ≠ some .separator
  ne_nil : Piece.textOf us ≠ []
  solid : ∀ c ∈ Piece.textOf us, Text.isBlank c = false
  scanned {more : List Char} {ps : List Piece} (hd : Delimits more) (h : ∀ list, Scanned (.arguments list) more ps)
    (list : Option Terminal) : Scanned (.arguments list) (Piece.textOf us ++ more) (us ++ ps)
  head (place : Place) (ls : List Lexeme) : ∀ l ∈ (locate place us ++ ls).head?, l.terminal ≠ .comma
  argument (source : String) (place : Place) {ls : List Lexeme} (hls : ∀ l ∈ ls.head?, l.terminal ≠ .comma) :
    ∃ arg t, argumentsOf (locate place us ++ ls) = arg :: argumentsOf ls ∧ arg.token source = .ok t ∧ t.meaning = m

theorem not_isBlank_of_isBareWord (h : isBareWord w = true) : ∀ c ∈ w, Text.isBlank c = false :=
  fun c hc => not_isBlank_of_isLexical (isLexical_of_isBareWord h c hc)

/-- A name that is read as an argument is a truth value or a text. -/
theorem exists_token_word (source : String) (l : Lexeme) :
    ∃ t, (Argument.word l).token source = .ok t ∧ t.meaning = wordMeaning l.text.toList := by
  have hmeaning : wordMeaning l.text.toList = (l.truth?.map Meaning.boolean).getD (.text l.text) := by
    rw [wordMeaning, String.ofList_toList, Lexeme.truth?]
    by_cases htrue : Text.lower l.text = "true"
    · rw [if_pos htrue, if_pos htrue]
      rfl
    by_cases hfalse : Text.lower l.text = "false"
    · rw [if_neg htrue, if_neg htrue, if_pos hfalse, if_pos hfalse]
      rfl
    · rw [if_neg htrue, if_neg htrue, if_neg hfalse, if_neg hfalse]
      rfl
  rw [Argument.token.eq_def, hmeaning]
  dsimp only
  cases l.truth? with
  | none => exact ⟨_, rfl, rfl⟩
  | some b => exact ⟨_, rfl, rfl⟩

theorem readsAs_name (hw : isName w = true) : ReadsAs [⟨some .name, w⟩] (wordMeaning w) where
  separators := by simp
  ne_nil := by
    rw [Piece.textOf_singleton]
    rintro rfl
    cases hw
  solid := by
    rw [Piece.textOf_singleton]
    exact not_isBlank_of_isBareWord (isBareWord_of_isName hw)
  scanned hd h list := by
    rw [Piece.textOf_singleton]
    exact scanned_name hw hd (h none)
  head place ls := by
    rintro _ ⟨⟩
    simp
  argument source place ls _ := by
    let l : Lexeme := ⟨.name, String.ofList w, place⟩
    have hlocate : locate place [⟨some .name, w⟩] ++ ls = l :: ls := rfl
    have harg : argumentsOf (l :: ls) = .word l :: argumentsOf ls := argumentsOf_single rfl (by simp [l])
    rw [hlocate, harg]
    obtain ⟨t, ht, hm⟩ := exists_token_word source l
    exact ⟨.word l, t, rfl, ht, hm.trans (by rw [String.toList_ofList])⟩

theorem meaning_ofItems (ws : List (List Char)) (first : Lexeme) (more : List Lexeme)
    (h : (first :: more).map (·.text) = (ws.map asColumn).map String.ofList) :
    (Token.ofItems .columnName .columnNameList Lexeme.columnName first more).meaning = columnMeaning ws := by
  have hnames : (first :: more).map Lexeme.columnName = ws.map String.ofList := by
    rw [List.map_map] at h
    exact map_of_map_text (fun l w => columnName_of_text) h
  rw [columnMeaning, ← hnames]
  cases more <;> rfl

theorem readsAs_columns {ws : List (List Char)} (hne : ws ≠ []) (hws : ∀ w ∈ ws, isBareWord w = true) :
    ReadsAs (columnPieces ws) (columnMeaning ws) := by
  obtain ⟨w, ws, rfl⟩ := List.exists_cons_of_ne_nil hne
  have hsolid (w : List Char) (hw : isBareWord w = true) : ∀ c ∈ asColumn w, Text.isBlank c = false :=
    List.forall_mem_cons.mpr ⟨by decide, not_isBlank_of_isBareWord hw⟩
  have hread : ∀ v ∈ (w :: ws).map asColumn, ReadAs .column v := by
    rw [List.forall_mem_map]
    intro v hv s s' more hs hd
    exact step?_column hs (hws v hv) hd
  have hpieces := columnPieces_eq (w :: ws)
  rw [List.map_cons] at hpieces hread
  constructor
  · intro p hp
    rw [hpieces] at hp
    rcases terminal?_of_mem_itemPieces hp with h | h <;> simp [h]
  · simp [columnPieces, Piece.textOf, asColumn]
  · rw [List.forall_mem_cons] at hws
    rw [columnPieces, Piece.textOf_cons, List.forall_mem_append]
    refine ⟨hsolid w hws.1, fun c hc => ?_⟩
    simp only [Piece.textOf, joinedPieces, List.mem_flatMap] at hc
    obtain ⟨p, ⟨v, hv, hp⟩, hc⟩ := hc
    simp only [List.mem_cons, List.not_mem_nil, or_false] at hp
    rcases hp with rfl | rfl
    · rw [List.mem_singleton.mp hc]
      decide
    · exact hsolid v (hws.2 v hv) c hc
  · intro more ps hd h list
    rw [hpieces]
    exact scanned_itemPieces rfl hread hd (h _)
  · rintro place ls _ ⟨⟩
    simp
  · intro source place ls hls
    obtain ⟨first, items, harguments, hfirst, htexts⟩ :=
      argumentsOf_itemPieces .column rfl _ hls (asColumn w) (ws.map asColumn) place
    have hcolumns : Argument.starting first items = .columns first items := by rw [Argument.starting, hfirst]
    rw [hpieces, harguments, hcolumns]
    exact ⟨_, _, rfl, Argument.token_columns first items, meaning_ofItems (w :: ws) first items htexts⟩

/-! ## The current form of a word -/

/-- A truth value is written in letters. -/
theorem not_mem_of_isTruth (h : isTruth w = true) (hc : Text.lowerChar c = [c]) (hmem : c ∉ "truefalse".toList) :
    c ∉ w := by
  intro hw
  have hlower : c ∈ (Text.lower (String.ofList w)).toList := by
    rw [Text.lower, String.toList_ofList, String.toList_ofList, List.mem_flatMap]
    exact ⟨c, hw, by rw [hc]; exact List.mem_singleton_self c⟩
  rw [isTruth, Bool.or_eq_true, beq_iff_eq, beq_iff_eq] at h
  apply hmem
  rcases h with h | h
  all_goals
    rw [h] at hlower
    revert hlower
    simp only [String.reduceToList, List.mem_cons]
    tauto

theorem splitOn_of_not_mem (h : ',' ∉ w) : w.splitOn ',' = [w] := by
  apply List.splitOnP_eq_singleton
  intro c hc
  rw [beq_eq_false_iff_ne]
  rintro rfl
  exact h hc

theorem comma_not_mem_of_isBareWord (h : isBareWord w = true) : ',' ∉ w :=
  fun hmem => absurd (isLexical_of_isBareWord h _ hmem) (by decide +kernel)

theorem isName_of_isBareWord (h : isBareWord w = true) (hpoint : '.' ∉ w) : isName w = true := by
  cases w with
  | nil => cases h
  | cons c cs =>
    rw [isBareWord, Bool.and_eq_true, List.all_eq_true] at h
    rw [isName, h.1, Bool.true_and, List.all_eq_true]
    intro d hd
    have hne : d ≠ '.' := by
      rintro rfl
      exact hpoint (List.mem_cons_of_mem _ hd)
    simpa [hne] using h.2 d hd

/-- All words between the commas of a written word are bare, where columns are accepted. -/
theorem IsWritten.bare_words (h : IsWritten accepts w) : ∀ v ∈ w.splitOn ',', isBareWord v = true := by
  rcases h with h | ⟨_, h⟩ | ⟨_, h⟩
  · rw [splitOn_of_not_mem (comma_not_mem_of_isBareWord (isBareWord_of_isName h))]
    simpa using isBareWord_of_isName h
  · rw [splitOn_of_not_mem (comma_not_mem_of_isBareWord h)]
    simpa using h
  · exact h

theorem IsWritten.ne_nil (h : IsWritten accepts w) : w ≠ [] := by
  rintro rfl
  have hnil := h.bare_words [] (by simp)
  cases hnil

/-- A written word has lexical characters, and commas between them. -/
theorem IsWritten.lexical (h : IsWritten accepts w) : ∀ c ∈ w, c ≠ ',' → isLexical c = true := by
  intro c hc hcomma
  obtain ⟨v, hv, hmem⟩ := exists_mem_splitOnP (p := (· == ',')) hc (beq_false_of_ne hcomma)
  exact isLexical_of_isBareWord (h.bare_words v hv) c hmem

/-- Several words are written where a list of columns is accepted. -/
theorem IsWritten.accepts_list (h : IsWritten accepts w) (hmore : 1 < (w.splitOn ',').length) : .columnNameList ∈ accepts := by
  have single (hw : isBareWord w = true) : .columnNameList ∈ accepts := by
    rw [splitOn_of_not_mem (comma_not_mem_of_isBareWord hw)] at hmore
    exact absurd hmore (by simp)
  rcases h with h | ⟨_, h⟩ | ⟨h, _⟩
  · exact single (isBareWord_of_isName h)
  · exact single h
  · exact h

/-- A written word that names no column is a name. -/
theorem IsWritten.is_name (h : IsWritten accepts w) (hw : ¬(TakesColumn accepts ∧ isTruth w = false)) :
    isName w = true := by
  by_cases htruth : isTruth w = true
  · have hword := h.bare_words
    rw [splitOn_of_not_mem (not_mem_of_isTruth htruth (by decide +kernel) (by decide)), List.forall_mem_singleton] at hword
    exact isName_of_isBareWord hword (not_mem_of_isTruth htruth (by decide +kernel) (by decide))
  · rcases h with h | ⟨hcolumn, _⟩ | ⟨hlist, _⟩
    · exact h
    · exact absurd ⟨hcolumn, eq_false_of_ne_true htruth⟩ hw
    · exact absurd ⟨.inr hlist, eq_false_of_ne_true htruth⟩ hw

theorem currentForm_column (hcolumn : TakesColumn accepts) (htruth : isTruth w = false) (hw : isBareWord w = true) :
    currentForm accepts w = asColumn w := by
  have htakes : (accepts.contains .columnNameList || accepts.contains .columnName) = true := by
    rw [Bool.or_eq_true, List.contains_iff_mem, List.contains_iff_mem]
    exact hcolumn.symm
  simp only [currentForm, htakes, hw, htruth, Bool.not_false, Bool.and_self, if_true]

theorem currentForm_columns (hlist : .columnNameList ∈ accepts) (hw : ∀ v ∈ w.splitOn ',', isBareWord v = true)
    (hmore : 1 < (w.splitOn ',').length) :
    currentForm accepts w = [','].intercalate ((w.splitOn ',').map asColumn) := by
  have hcomma : isBareWord w = false := by
    rw [← Bool.not_eq_true]
    intro h
    rw [splitOn_of_not_mem (comma_not_mem_of_isBareWord h)] at hmore
    exact absurd hmore (by simp)
  have hcontains : accepts.contains .columnNameList = true := List.contains_iff_mem.mpr hlist
  have hall : (w.splitOn ',').all isBareWord = true := List.all_eq_true.mpr hw
  have hcolumns : columnList? w = some ([','].intercalate ((w.splitOn ',').map asColumn)) := by
    simp [columnList?, hmore, hall]
  simp only [currentForm, hcontains, hcomma, hcolumns, Bool.and_false, Bool.false_and, Bool.false_eq_true, if_false,
    if_true]

theorem currentForm_word (hword : isBareWord w = true) (hw : ¬(TakesColumn accepts ∧ isTruth w = false)) :
    currentForm accepts w = w := by
  rcases currentForm_cases accepts w with h | ⟨-, htruth, -, hcolumn⟩ | ⟨first, tail, h, -⟩ | h
  · exact h
  · exact absurd ⟨hcolumn, htruth⟩ hw
  · exact absurd (by simp [h]) (comma_not_mem_of_isBareWord hword)
  · obtain ⟨c, rfl⟩ : ∃ c, w = [c] := by
      unfold isPunctuation at h
      split at h
      next c => exact ⟨c, rfl⟩
      next => cases h
    rw [isBareWord, List.all_nil, Bool.and_true] at hword
    rw [isPunctuation, isWordChar_of_isNameStart hword] at h
    cases h

/-- Migration writes a word in a form that is read with its meaning. -/
theorem exists_readsAs (h : IsWritten accepts w) :
    ∃ us, Piece.textOf us = currentForm accepts w ∧ ReadsAs us (meaningOf accepts w) := by
  by_cases hcolumn : TakesColumn accepts ∧ isTruth w = false
  · refine ⟨columnPieces (w.splitOn ','), ?_, ?_⟩
    · have htext : Piece.textOf (columnPieces (w.splitOn ',')) = [','].intercalate ((w.splitOn ',').map asColumn) := by
        obtain ⟨v, vs, hsplit⟩ := List.exists_cons_of_ne_nil (List.splitOn_ne_nil ',' w)
        rw [hsplit, textOf_columnPieces]
      rw [htext]
      have hword := h.bare_words
      by_cases hmore : 1 < (w.splitOn ',').length
      · have hlist : .columnNameList ∈ accepts := h.accepts_list hmore
        rw [currentForm_columns hlist hword hmore]
      · have hsplit : w.splitOn ',' = [w] := by
          have hjoin : [','].intercalate (w.splitOn ',') = w := List.intercalate_splitOn ','
          obtain ⟨v, hv⟩ : ∃ v, w.splitOn ',' = [v] := by
            rw [← List.length_eq_one_iff]
            have := List.length_pos_iff.mpr (List.splitOn_ne_nil ',' w)
            omega
          rw [hv, List.intercalate_singleton] at hjoin
          rw [hv, hjoin]
        rw [hsplit, List.forall_mem_singleton] at hword
        rw [currentForm_column hcolumn.1 hcolumn.2 hword, hsplit, List.map_singleton, List.intercalate_singleton]
    · rw [meaningOf, if_pos hcolumn]
      exact readsAs_columns (List.splitOn_ne_nil _ _) h.bare_words
  · refine ⟨[⟨some .name, w⟩], ?_, ?_⟩
    · rw [Piece.textOf_singleton, currentForm_word (isBareWord_of_isName (h.is_name hcolumn)) hcolumn]
    · rw [meaningOf, if_neg hcolumn]
      exact readsAs_name (h.is_name hcolumn)

end RowRecipe.Migration
