import Mathlib.Tactic.Common
import RowRecipe.Grammar.Terminal

/-!
# Locality of terminals

Apart from texts and openings, no terminal looks beyond the lexical characters behind its first one: the
characters of names and numbers, and points. What follows a character that is not lexical therefore has no
influence on the cut. A text is cut up to its closing quote, whatever follows.
-/

namespace RowRecipe

/-! ## Runs -/

section Runs

variable {p : Char → Bool} {u xs : List Char}

/-- The run at the start of a text ends before a text that starts with no such character. -/
theorem takeWhile_append_of_head (h : ∀ c ∈ xs.head?, p c = false) :
    (u ++ xs).takeWhile p = u.takeWhile p := by
  induction u with
  | nil =>
    cases xs with
    | nil => rfl
    | cons x xs => simp [h x rfl]
  | cons c u ih => simp only [List.cons_append, List.takeWhile_cons, ih]

theorem dropWhile_append_of_head (h : ∀ c ∈ xs.head?, p c = false) :
    (u ++ xs).dropWhile p = u.dropWhile p ++ xs := by
  induction u with
  | nil =>
    cases xs with
    | nil => rfl
    | cons x xs => simp [h x rfl]
  | cons c u ih =>
    simp only [List.cons_append, List.dropWhile_cons, ih]
    split <;> rfl

theorem head?_dropWhile (cs : List Char) : ∀ c ∈ (cs.dropWhile p).head?, p c = false := by
  intro c hc
  have := List.head?_dropWhile_not p cs
  rw [Option.mem_def] at hc
  rw [hc] at this
  exact this

end Runs

namespace Text

theorem inRanges_iff {ranges : List (Nat × Nat)} {c : Char} :
    inRanges ranges c = true ↔ ∃ r ∈ ranges, r.1 ≤ c.toNat ∧ c.toNat ≤ r.2 := by
  simp [inRanges]

theorem isAlphanumeric_of_isDigit {c : Char} (h : isDigit c = true) : isAlphanumeric c = true := by
  have blocks : (digitZeros.all fun z => alphanumericRanges.any fun r => Nat.ble (z + 9) r.2 && Nat.ble r.1 z) =
      true := by
    decide +kernel
  simp only [List.all_eq_true, List.any_eq_true, Bool.and_eq_true, Nat.ble_eq] at blocks
  unfold isDigit digitValue? at h
  rw [Option.isSome_map, List.find?_isSome] at h
  obtain ⟨z, hz, hc⟩ := h
  obtain ⟨r, hr, hhigh, hlow⟩ := blocks z hz
  simp only [Bool.and_eq_true, decide_eq_true_eq] at hc
  exact inRanges_iff.mpr ⟨r, hr, by omega, by omega⟩

theorem isAlphanumeric_of_isLatin {c : Char} (h : isLatin c = true) : isAlphanumeric c = true := by
  have capital : (65, 90) ∈ alphanumericRanges := by decide
  have small : (97, 122) ∈ alphanumericRanges := by decide
  simp only [isLatin, Bool.or_eq_true, Bool.and_eq_true, decide_eq_true_eq] at h
  rcases h with ⟨hlow, hhigh⟩ | ⟨hlow, hhigh⟩
  · exact inRanges_iff.mpr ⟨_, capital, hlow, hhigh⟩
  · exact inRanges_iff.mpr ⟨_, small, hlow, hhigh⟩

theorem isAlphanumeric_of_decimal {c : Char} (h : c.isDigit = true) : isAlphanumeric c = true := by
  have digits : (48, 57) ∈ alphanumericRanges := by decide
  simp only [Char.isDigit, Bool.and_eq_true, decide_eq_true_eq] at h
  exact inRanges_iff.mpr ⟨_, digits, h.1, h.2⟩

/-- No character of a word is blank. -/
theorem not_isBlank_of_isWordChar {c : Char} (h : isWordChar c = true) : isBlank c = false := by
  have apart : (blankRanges.all fun r => alphanumericRanges.all fun q => Nat.blt r.2 q.1 || Nat.blt q.2 r.1) =
      true := by
    decide +kernel
  simp only [List.all_eq_true, Bool.or_eq_true, Nat.blt_eq] at apart
  rw [isWordChar, Bool.or_eq_true, beq_iff_eq] at h
  rcases h with rfl | h
  · decide
  · obtain ⟨q, hq, hlow, hhigh⟩ := inRanges_iff.mp h
    rw [← Bool.not_eq_true]
    intro hb
    obtain ⟨r, hr, hlow', hhigh'⟩ := inRanges_iff.mp hb
    rcases apart r hr q hq with hlt | hlt <;> omega

end Text

namespace Grammar

/-- Whether `c` may continue a word, a column or a number. -/
def isLexical (c : Char) : Bool :=
  c == '.' || isNameChar c

/-- The same cut with more text behind it. -/
def Cut.followedBy (r : Cut) (xs : List Char) : Cut := (r.1, r.2 ++ xs)

/-- What follows a text starts with no lexical character. -/
def Delimits (xs : List Char) : Prop := ∀ c ∈ xs.head?, isLexical c = false

/-- Characters that no word, column or number has in it. -/
def marks : List Char :=
  [' ', '\t', '\x0c', '\r', '\n', ';', ',', ':', '=', '#', '/', '\'', '"', '\x7b', '\x7d']

theorem isLexical_mark {c : Char} (h : c ∈ marks) : isLexical c = false := by
  have hall : marks.all (fun c => !isLexical c) = true := by decide +kernel
  simpa using List.all_eq_true.mp hall c h

theorem isLexical_of_isNameChar {c : Char} (h : isNameChar c = true) : isLexical c = true := by
  simp [isLexical, h]

theorem isNameChar_mark {c : Char} (h : c ∈ marks) : isNameChar c = false := by
  rw [← Bool.not_eq_true]
  intro hc
  have := isLexical_mark h
  rw [isLexical_of_isNameChar hc] at this
  cases this

theorem isLexical_of_isWordChar {c : Char} (h : Text.isWordChar c = true) : isLexical c = true :=
  isLexical_of_isNameChar (by simp [isNameChar, h])

theorem isLexical_of_isAlphanumeric {c : Char} (h : Text.isAlphanumeric c = true) : isLexical c = true :=
  isLexical_of_isWordChar (by simp [Text.isWordChar, h])

theorem isLexical_of_isDigit {c : Char} (h : Text.isDigit c = true) : isLexical c = true :=
  isLexical_of_isAlphanumeric (Text.isAlphanumeric_of_isDigit h)

theorem isLexical_of_isLatin {c : Char} (h : Text.isLatin c = true) : isLexical c = true :=
  isLexical_of_isAlphanumeric (Text.isAlphanumeric_of_isLatin h)

theorem isWordChar_of_isNameStart {c : Char} (h : isNameStart c = true) : Text.isWordChar c = true := by
  rw [isNameStart, Bool.or_eq_true, beq_iff_eq] at h
  rcases h with rfl | h
  · decide
  · simp [Text.isWordChar, Text.isAlphanumeric_of_isLatin h]

theorem isLexical_of_isNameStart {c : Char} (h : isNameStart c = true) : isLexical c = true :=
  isLexical_of_isWordChar (isWordChar_of_isNameStart h)

/-- A class of lexical characters does not start a delimiting text. -/
theorem Delimits.head {xs : List Char} (hx : Delimits xs) {p : Char → Bool}
    (hp : ∀ c, p c = true → isLexical c = true) : ∀ c ∈ xs.head?, p c = false := by
  intro c hc
  rw [← Bool.not_eq_true]
  intro h
  have := hx c hc
  rw [hp c h] at this
  cases this

variable {u xs : List Char}

/-! ## Words and runs -/

theorem isPrefixOf_append (hx : Delimits xs) {word : List Char} (hw : ∀ c ∈ word, isLexical c = true) :
    word.isPrefixOf (u ++ xs) = word.isPrefixOf u := by
  induction word generalizing u with
  | nil => simp
  | cons w word ih =>
    rw [List.forall_mem_cons] at hw
    cases u with
    | nil =>
      cases xs with
      | nil => rfl
      | cons x xs =>
        have hne : w ≠ x := by
          rintro rfl
          have := hx w rfl
          rw [hw.1] at this
          cases this
        rw [List.nil_append, List.isPrefixOf_cons_cons, beq_eq_false_iff_ne.mpr hne, Bool.false_and]
        rfl
    | cons c u => simp only [List.cons_append, List.isPrefixOf_cons_cons, ih hw.2]

theorem wordCut?_append (hx : Delimits xs) {c : Char} (word : List Char)
    (hw : ∀ c ∈ word, isLexical c = true) (hu : u ≠ []) :
    wordCut? (c :: word) (u ++ xs) = (wordCut? (c :: word) u).map (·.followedBy xs) := by
  obtain ⟨d, u, rfl⟩ := List.exists_cons_of_ne_nil hu
  unfold wordCut?
  rw [List.cons_append, List.isPrefixOf_cons_cons, List.isPrefixOf_cons_cons, isPrefixOf_append hx hw]
  split
  · next h =>
    rw [Bool.and_eq_true] at h
    have hlen := (List.isPrefixOf_iff_prefix.mp h.2).length_le
    simp only [Cut.followedBy, List.length_cons, List.drop_succ_cons, Option.map_some]
    rw [List.drop_append_of_le_length hlen]
  · rfl

theorem runCut?_append (hx : Delimits xs) {first more : Char → Bool}
    (hm : ∀ c, more c = true → isLexical c = true)
    (hu : u ≠ [] ∨ ∀ c, first c = true → isLexical c = true) :
    runCut? first more (u ++ xs) = (runCut? first more u).map (·.followedBy xs) := by
  cases u with
  | nil =>
    have hf := hx.head (hu.resolve_left fun h => h rfl)
    cases xs with
    | nil => rfl
    | cons x xs => simp [runCut?, hf x rfl]
  | cons c u =>
    simp only [List.cons_append, runCut?, takeWhile_append_of_head (hx.head hm),
      dropWhile_append_of_head (hx.head hm)]
    split <;> rfl

theorem columnCut?_append (hx : Delimits xs) (hu : u ≠ []) :
    columnCut? (u ++ xs) = (columnCut? u).map (·.followedBy xs) := by
  obtain ⟨c, u, rfl⟩ := List.exists_cons_of_ne_nil hu
  rw [List.cons_append]
  by_cases hc : c = ':'
  · subst hc
    have hrun : runCut? isNameStart isLexical (u ++ xs) = (runCut? isNameStart isLexical u).map (·.followedBy xs) :=
      runCut?_append hx (fun c h => h) (.inr fun c h => isLexical_of_isNameStart h)
    unfold isLexical at hrun
    simp only [columnCut?, hrun, Option.map_map]
    rfl
  · rw [columnCut?, columnCut?]
    · rfl
    · simp [hc]
    · simp [hc]

/-! ## Numbers -/

theorem unsignedCut?_append (hx : Delimits xs) :
    unsignedCut? (u ++ xs) = (unsignedCut? u).map (·.followedBy xs) := by
  have hd := hx.head fun c h => isLexical_of_isDigit h
  have hspan (v : List Char) : Decimal.spanDigits (v ++ xs) =
      ((Decimal.spanDigits v).1, (Decimal.spanDigits v).2 ++ xs) := by
    simp only [Decimal.spanDigits, takeWhile_append_of_head hd, dropWhile_append_of_head hd]
  unfold unsignedCut?
  simp only [hspan]
  split
  · rfl
  · cases hrest : (Decimal.spanDigits u).2 with
    | nil =>
      cases xs with
      | nil =>
        simp only [List.append_nil, Option.map_some, Cut.followedBy, hrest]
      | cons x xs =>
        have hne : x ≠ '.' := by
          rintro rfl
          have := hx '.' rfl
          cases this
        simp [Cut.followedBy, hrest, hne]
    | cons c rest =>
      by_cases hc : c = '.'
      · subst hc
        simp only [List.cons_append, hspan]
        split <;> simp [Cut.followedBy, hrest]
      · simp [Cut.followedBy, hrest, hc]

theorem numberCut?_append (hx : Delimits xs) (hu : u ≠ []) :
    numberCut? (u ++ xs) = (numberCut? u).map (·.followedBy xs) := by
  obtain ⟨c, u, rfl⟩ := List.exists_cons_of_ne_nil hu
  by_cases hc : c = '-'
  · subst hc
    simp only [List.cons_append, numberCut?, unsignedCut?_append hx, Option.map_map]
    rfl
  · have hplain (v : List Char) : numberCut? (c :: v) = unsignedCut? (c :: v) := by
      rw [numberCut?]
      simp [hc]
    rw [List.cons_append, hplain, hplain, ← List.cons_append, unsignedCut?_append hx]

theorem versionRun_followedBy (hx : Delimits xs) : versionRun (u ++ xs) = (versionRun u).followedBy xs := by
  have hd := hx.head fun c h => isLexical_of_isDigit h
  induction u with
  | nil =>
    cases xs with
    | nil => rfl
    | cons x xs =>
      have hdot : (x == '.') = false := by
        rw [beq_eq_false_iff_ne]
        rintro rfl
        have := hx '.' rfl
        cases this
      simp [versionRun, hd x rfl, hdot, Cut.followedBy]
  | cons c u ih =>
    have hnext : (u ++ xs).head?.any Text.isDigit = u.head?.any Text.isDigit := by
      cases u with
      | nil =>
        cases xs with
        | nil => rfl
        | cons x xs => simp [hd x rfl]
      | cons => rfl
    simp only [List.cons_append, versionRun, hnext, ih]
    split <;> rfl

theorem versionCut?_append (hx : Delimits xs) (hu : u ≠ []) :
    versionCut? (u ++ xs) = (versionCut? u).map (·.followedBy xs) := by
  have hhead : (u ++ xs).head? = u.head? := by
    obtain ⟨c, u, rfl⟩ := List.exists_cons_of_ne_nil hu
    rfl
  unfold versionCut?
  rw [hhead, versionRun_followedBy hx]
  split <;> rfl

/-! ## Units -/

theorem lettersCut?_followedBy (hx : Delimits xs) {same : Char → Char → Bool} {ls : List Char}
    (hl : ∀ l ∈ ls, ∀ c, same l c = true → isLexical c = true) :
    lettersCut? same ls (u ++ xs) = (lettersCut? same ls u).map (·.followedBy xs) := by
  induction ls generalizing u with
  | nil => rw [lettersCut?, lettersCut?]; rfl
  | cons l ls ih =>
    rw [List.forall_mem_cons] at hl
    cases u with
    | nil =>
      cases xs with
      | nil => rfl
      | cons x xs =>
        have hne : same l x = false := hx.head (hl.1) x rfl
        simp [lettersCut?, hne]
    | cons c u =>
      simp only [List.cons_append, lettersCut?, ih hl.2]
      split
      · rw [Option.map_map, Option.map_map]
        rfl
      · rfl

theorem endsUnit_append (hx : Delimits xs) : endsUnit (u ++ xs) = endsUnit u := by
  cases u with
  | nil =>
    cases xs with
    | nil => rfl
    | cons x xs =>
      have lexical : ∀ c, (Text.isLatin c || c.isDigit || c == '_' || c == 'µ') = true →
          isLexical c = true := by
        intro c hc
        simp only [Bool.or_eq_true, beq_iff_eq] at hc
        rcases hc with ((hc | hc) | rfl) | rfl
        · exact isLexical_of_isLatin hc
        · exact isLexical_of_isAlphanumeric (Text.isAlphanumeric_of_decimal hc)
        · decide
        · decide
      simp [endsUnit, hx.head lexical x rfl]
  | cons => rfl

/-- The letters of the units are lexical, and so is whatever stands for them. -/
theorem isLexical_of_sameLetter {kind : UnitKind} {s : Spelling} (hs : s ∈ spellings kind) :
    ∀ l ∈ s.text.toList, ∀ c, (if s.anyCase then sameLetter else (· == ·)) l c = true →
      isLexical c = true := by
  have letters : ∀ kind, ∀ s ∈ spellings kind,
      s.text.toList.all (fun l => isLexical l && isLexical l.toUpper) = true := by
    intro kind
    cases kind <;> decide
  have variants : ∀ n ∈ [0x130, 0x131, 0x17f, 0x212a], ∃ r ∈ Text.alphanumericRanges, r.1 ≤ n ∧ n ≤ r.2 := by
    decide +kernel
  intro l hl c hc
  obtain ⟨hlow, hup⟩ := Bool.and_eq_true_iff.mp (List.all_eq_true.mp (letters kind s hs) l hl)
  have variant {n : Nat} (hn : n ∈ [0x130, 0x131, 0x17f, 0x212a]) (h : c.toNat = n) : isLexical c = true :=
    isLexical_of_isAlphanumeric (Text.inRanges_iff.mpr (h ▸ variants n hn))
  split at hc
  · simp only [sameLetter, Bool.or_eq_true, Bool.and_eq_true, beq_iff_eq] at hc
    rcases hc with (((rfl | rfl) | ⟨_, h | h⟩) | ⟨_, h⟩) | ⟨_, h⟩
    · exact hlow
    · exact hup
    all_goals exact variant (by decide) h
  · rw [beq_iff_eq] at hc
    exact hc ▸ hlow

theorem Spelling.cut?_append (hx : Delimits xs) {kind : UnitKind} {s : Spelling} (hs : s ∈ spellings kind) :
    s.cut? (u ++ xs) = (s.cut? u).map (·.followedBy xs) := by
  unfold Spelling.cut?
  rw [lettersCut?_followedBy hx (isLexical_of_sameLetter hs)]
  cases lettersCut? (if s.anyCase then sameLetter else (· == ·)) s.text.toList u with
  | none => rfl
  | some r =>
    have hend : endsUnit (r.followedBy xs).2 = endsUnit r.2 := endsUnit_append hx
    rw [Option.map_some, Option.filter_some, Option.filter_some, hend]
    split <;> rfl

theorem quantityCut?_append (hx : Delimits xs) (hu : u ≠ []) {kind : UnitKind} :
    quantityCut? kind (u ++ xs) = (quantityCut? kind u).map (·.followedBy xs) := by
  unfold quantityCut?
  rw [numberCut?_append hx hu]
  cases numberCut? u with
  | none => rfl
  | some n =>
    have hfind : ((spellings kind).findSome? fun s => s.cut? (n.2 ++ xs)) =
        ((spellings kind).findSome? fun s => s.cut? n.2).map (·.followedBy xs) := by
      rw [List.map_findSome?]
      have hcut : ∀ s ∈ spellings kind, s.cut? (n.2 ++ xs) = (s.cut? n.2).map (·.followedBy xs) :=
        fun s hs => Spelling.cut?_append hx hs
      generalize spellings kind = ss at hcut
      induction ss with
      | nil => rfl
      | cons s ss ih =>
        rw [List.forall_mem_cons] at hcut
        rw [List.findSome?_cons, List.findSome?_cons, hcut.1, ih hcut.2]
        rfl
    simp only [Option.map_some, Cut.followedBy] at hfind ⊢
    rw [hfind, Option.map_map, Option.map_map]
    rfl

theorem malformedCut?_append (hx : Delimits xs) (hu : u ≠ []) :
    malformedCut? (u ++ xs) = (malformedCut? u).map (·.followedBy xs) := by
  have lexical : ∀ c, (Text.isLatin c || c == 'µ') = true → isLexical c = true := by
    intro c hc
    simp only [Bool.or_eq_true, beq_iff_eq] at hc
    rcases hc with hc | rfl
    · exact isLexical_of_isLatin hc
    · decide
  unfold malformedCut?
  simp only [numberCut?_append hx hu]
  cases numberCut? u with
  | none => rfl
  | some n =>
    simp only [Option.map_some, Cut.followedBy]
    rw [runCut?_append hx lexical (.inr lexical), Option.map_map, Option.map_map]
    rfl

/-! ## All terminals -/

/-- What follows a delimiter has no influence on the cut of a terminal. -/
theorem Terminal.cut?_append (hx : Delimits xs) (hu : u ≠ []) {t : Terminal} (ht : t ≠ .text)
    (ho : t ≠ .opening) : t.cut? (u ++ xs) = (t.cut? u).map (·.followedBy xs) := by
  have mark {c : Char} : wordCut? [c] (u ++ xs) = (wordCut? [c] u).map (·.followedBy xs) :=
    wordCut?_append hx [] (by simp) hu
  cases t with
  | text => exact absurd rfl ht
  | opening => exact absurd rfl ho
  | duration => exact quantityCut?_append hx hu
  | byteSize => exact quantityCut?_append hx hu
  | malformedUnit => exact malformedCut?_append hx hu
  | number => exact numberCut?_append hx hu
  | version => exact versionCut?_append hx hu
  | separator => exact runCut?_append hx (by simp) (.inl hu)
  | column => exact columnCut?_append hx hu
  | name => exact runCut?_append hx (fun _ => isLexical_of_isNameChar) (.inl hu)
  | comma => exact mark
  | equal => exact mark
  | closing => exact mark
  | pragmaWord => exact wordCut?_append hx "pragma".toList (List.all_eq_true.mp (by decide)) hu
  | versionWord => exact wordCut?_append hx "ersion".toList (List.all_eq_true.mp (by decide)) hu
  | loadWord => exact wordCut?_append hx "oad-directives".toList (List.all_eq_true.mp (by decide)) hu

/-! ## Texts -/

theorem closingCut?_followedBy {quote : Char} {cs : List Char} {r : Cut} (hquote : quote ≠ '\\')
    (h : closingCut? quote cs = some r) (xs : List Char) : closingCut? quote (r.1 ++ xs) = some (r.1, xs) := by
  fun_induction closingCut? quote cs generalizing r with
  | case1 => cases h
  | case2 => cases h
  | case3 c cs hc ih =>
    obtain ⟨u, hu, rfl⟩ := Option.map_eq_some_iff.mp h
    simp [closingCut?, hc, ih hu]
  | case4 cs hq =>
    cases h
    rw [List.singleton_append, closingCut?]
    · simp
    · simp [hquote]
  | case5 => cases h
  | case6 c cs hq hne hback ih =>
    obtain ⟨u, hu, rfl⟩ := Option.map_eq_some_iff.mp h
    rw [List.cons_append, closingCut?]
    · simp [hne, hback, ih hu]
    · simp [hback]

/-- A text ends at its closing quote, whatever follows. -/
theorem textCut?_followedBy {cs : List Char} {r : Cut} (h : textCut? cs = some r) (xs : List Char) :
    textCut? (r.1 ++ xs) = some (r.1, xs) := by
  unfold textCut? at h
  split at h
  next c cs =>
    split at h
    next hc =>
      obtain ⟨u, hu, rfl⟩ := Option.map_eq_some_iff.mp h
      have hquote : c ≠ '\\' := by rcases hc with rfl | rfl <;> decide
      simp [textCut?, hc, closingCut?_followedBy hquote hu]
    next => cases h
  next => cases h

end Grammar

end RowRecipe
