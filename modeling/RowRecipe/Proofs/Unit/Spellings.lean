import RowRecipe.Proofs.Unit.Literal

/-!
# Spellings of units

The units of a kind are written down twice: as the spellings that are cut from a text, in their order, and as the
tables of factors. Behind a number the letters up to the end of a text are cut as a unit exactly if the tables know
them. Where case does not matter, though, the spellings take four characters for Latin letters that are none, and
these no quantity can have.
-/

namespace RowRecipe

open Grammar

/-! ## Letters up to case -/

namespace Grammar

/-- The characters that are taken for a Latin letter where case does not matter: the dotted capital and the dotless
small i, the long s, and the sign for kelvin. -/
def lookalikes : List Char :=
  ['\u0130', '\u0131', '\u017f', '\u212a']

variable {l c : Char}

theorem not_isUnitLetter_of_lookalike (h : c ∈ lookalikes) : Text.isUnitLetter c = false := by
  have hall : lookalikes.all (fun c => !Text.isUnitLetter c) = true := by decide
  simpa using List.all_eq_true.mp hall c h

theorem sameLetter_cases (h : sameLetter l c = true) : c = l ∨ c = l.toUpper ∨ c ∈ lookalikes := by
  have code {n : Nat} (hn : c.toNat = n) : c = Char.ofNat n := by rw [← hn, Char.ofNat_toNat]
  simp only [sameLetter, Bool.or_eq_true, Bool.and_eq_true, beq_iff_eq] at h
  rcases h with (((h | h) | ⟨-, h | h⟩) | ⟨-, h⟩) | ⟨-, h⟩
  · exact .inl h
  · exact .inr (.inl h)
  all_goals
    rw [code h]
    exact .inr (.inr (by decide))

theorem sameLetter_toLower (h : Text.isUnitLetter c = true) : sameLetter c.toLower c = true :=
  Text.of_isUnitLetter (p := fun c => sameLetter c.toLower c) (by decide +kernel) h

/-- Letters are cut off one by one. -/
theorem lettersCut?_eq_some {same : Char → Char → Bool} {ls cs u rest : List Char} :
    lettersCut? same ls cs = some (u, rest) ↔ List.Forall₂ (fun l c => same l c = true) ls u ∧ cs = u ++ rest := by
  induction ls generalizing cs u with
  | nil =>
    rw [lettersCut?, List.forall₂_nil_left_iff]
    constructor
    · intro h
      cases h
      exact ⟨rfl, rfl⟩
    · rintro ⟨rfl, rfl⟩
      rfl
  | cons l ls ih =>
    cases cs with
    | nil =>
      simp only [lettersCut?, reduceCtorEq, false_iff, not_and]
      intro hsame hnil
      cases hsame
      cases hnil
    | cons c cs =>
      rw [lettersCut?]
      constructor
      · intro h
        split at h
        next hc =>
          obtain ⟨⟨v, r⟩, hv, he⟩ := Option.map_eq_some_iff.mp h
          cases he
          obtain ⟨hsame, rfl⟩ := ih.mp hv
          exact ⟨.cons hc hsame, rfl⟩
        next => cases h
      · rintro ⟨hsame, htext⟩
        cases hsame with
        | cons hc hsame =>
          obtain ⟨rfl, hcs⟩ := List.cons.inj htext
          rw [if_pos hc, ih.mpr ⟨hsame, hcs⟩]
          rfl

namespace Spelling

variable {s : Spelling} {u : List Char}

/-- The text is the spelling, up to case where this does not matter. -/
def Writes (s : Spelling) (u : List Char) : Prop :=
  List.Forall₂ (fun l c => (if s.anyCase then sameLetter else (· == ·)) l c = true) s.text.toList u

theorem writes_of_cut? {r : Cut} (h : s.cut? u = some r) : s.Writes r.1 ∧ u = r.1 ++ r.2 :=
  lettersCut?_eq_some.mp (cut?_eq_some.mp h).1

theorem cut?_of_writes (h : s.Writes u) : s.cut? u = some (u, []) :=
  cut?_eq_some.mpr ⟨lettersCut?_eq_some.mpr ⟨h, (List.append_nil u).symm⟩, rfl⟩

/-- Letters are cut to their end, or not at all. -/
theorem rest_of_cut? (hletters : ∀ c ∈ u, Text.isUnitLetter c = true) {r : Cut} (h : s.cut? u = some r) :
    r = (u, []) := by
  obtain ⟨v, rest⟩ := r
  obtain ⟨-, rfl⟩ := writes_of_cut? h
  have hend : endsUnit rest = true := (cut?_eq_some.mp h).2
  cases rest with
  | nil => rw [List.append_nil]
  | cons c rest =>
    have hc := hletters c (by simp)
    simp only [Text.isUnitLetter, Bool.or_eq_true, beq_iff_eq] at hc
    rcases hc with hc | rfl <;> simp_all [endsUnit]

theorem writes_exact (h : s.anyCase = false) : s.Writes u ↔ s.text.toList = u := by
  unfold Writes
  simp only [h, Bool.false_eq_true, if_false, beq_iff_eq]
  rw [List.forall₂_eq_eq_eq]

end Spelling

end Grammar

/-! ## Spellings and tables -/

namespace UnitKind

/-- The units whose case matters. -/
def symbols : UnitKind → List (String × UnitFactor)
  | size => sizeUnits
  | time => timeSymbols

/-- The units whose case does not matter. -/
def names : UnitKind → List (String × UnitFactor)
  | size => []
  | time => timeNames

variable {kind : UnitKind} {u : List Char} {f : UnitFactor}

theorem knows_iff : kind.Knows u f ↔
    (String.ofList u, f) ∈ kind.symbols ∨ ∃ name, (name, f) ∈ kind.names ∧ u.map Char.toLower = name.toList := by
  constructor
  · intro h
    cases h with
    | size h => exact .inl h
    | symbol h => exact .inl h
    | name h same => exact .inr ⟨_, h, same⟩
  · rintro (h | ⟨name, h, same⟩)
    · cases kind with
      | size => exact .size h
      | time => exact .symbol h
    · cases kind with
      | size => cases h
      | time => exact .name h same

/-- Whether a letter is a small one, and a unit letter in both cases. -/
def isSmallLetter (l : Char) : Bool :=
  l.toLower == l && l.toUpper.toLower == l && Text.isUnitLetter l && Text.isUnitLetter l.toUpper

/-- Every spelling is in the tables, and so that its letters are small where case does not matter. -/
theorem spelling_listed : ∀ s ∈ spellings kind, if s.anyCase
    then s.text ∈ kind.names.map (·.1) ∧ s.text.toList.all isSmallLetter = true
    else s.text ∈ kind.symbols.map (·.1) ∧ s.text.toList.all Text.isUnitLetter = true := by
  cases kind <;> decide +kernel

/-- Every unit in the tables has a spelling. -/
theorem listed_spelled : (∀ e ∈ kind.symbols, ∃ s ∈ spellings kind, s.text = e.1 ∧ s.anyCase = false) ∧
    ∀ e ∈ kind.names, ∃ s ∈ spellings kind, s.text = e.1 ∧ s.anyCase = true := by
  cases kind <;> decide +kernel

/-- The small form of letters that stand for small letters. -/
theorem toLower_of_writes {s : Spelling} (hs : s ∈ spellings kind) (hcase : s.anyCase = true) (h : s.Writes u)
    (hletters : ∀ c ∈ u, c ∉ lookalikes) :
    u.map Char.toLower = s.text.toList ∧ ∀ c ∈ u, Text.isUnitLetter c = true := by
  have hlisted := spelling_listed s hs
  rw [if_pos hcase] at hlisted
  have hsmall := List.all_eq_true.mp hlisted.2
  unfold Spelling.Writes at h
  simp only [hcase, if_true] at h
  generalize s.text.toList = letters at h hsmall
  induction h with
  | nil => exact ⟨rfl, by simp⟩
  | @cons l c ls u hsame _ ih =>
    rw [List.forall_mem_cons] at hsmall hletters
    obtain ⟨⟨⟨hlower, hupper⟩, hl⟩, hu⟩ : ((l.toLower = l ∧ l.toUpper.toLower = l) ∧ Text.isUnitLetter l = true) ∧
        Text.isUnitLetter l.toUpper = true := by simpa [isSmallLetter] using hsmall.1
    obtain ⟨hrest, hmem⟩ := ih hletters.2 hsmall.2
    rcases sameLetter_cases hsame with rfl | rfl | hlookalike
    · exact ⟨by rw [List.map_cons, hrest, hlower], List.forall_mem_cons.mpr ⟨hl, hmem⟩⟩
    · exact ⟨by rw [List.map_cons, hrest, hupper], List.forall_mem_cons.mpr ⟨hu, hmem⟩⟩
    · exact absurd hlookalike hletters.1

/-- Only names of times may be written in any case. -/
theorem eq_time_of_anyCase {s : Spelling} (hs : s ∈ spellings kind) (hcase : s.anyCase = true) : kind = .time := by
  cases kind with
  | time => rfl
  | size =>
    have hlisted := spelling_listed s hs
    rw [if_pos hcase] at hlisted
    cases hlisted.1

/-- What a spelling writes without the lookalikes of letters is a unit that the kind knows. -/
theorem knows_of_writes {s : Spelling} (hs : s ∈ spellings kind) (h : s.Writes u)
    (hletters : s.anyCase = true → ∀ c ∈ u, c ∉ lookalikes) :
    (∃ f, kind.Knows u f) ∧ ∀ c ∈ u, Text.isUnitLetter c = true := by
  have hlisted := spelling_listed s hs
  cases hcase : s.anyCase with
  | false =>
    rw [hcase] at hlisted
    obtain ⟨hmem, hunit⟩ := hlisted
    obtain ⟨⟨name, f⟩, he, hname⟩ := List.mem_map.mp hmem
    rw [Spelling.writes_exact hcase] at h
    subst h
    refine ⟨⟨f, knows_iff.mpr (.inl ?_)⟩, List.all_eq_true.mp hunit⟩
    rw [String.ofList_toList, ← hname]
    exact he
  | true =>
    obtain ⟨hlower, hunit⟩ := toLower_of_writes hs hcase h (hletters hcase)
    rw [hcase] at hlisted
    obtain ⟨⟨name, f⟩, he, hname⟩ := List.mem_map.mp hlisted.1
    exact ⟨⟨f, knows_iff.mpr (.inr ⟨name, he, by rw [hlower, ← hname]⟩)⟩, hunit⟩

/-- Every unit that the kind knows is written by a spelling. -/
theorem exists_writes (hletters : ∀ c ∈ u, Text.isUnitLetter c = true) (h : kind.Knows u f) :
    ∃ s ∈ spellings kind, s.Writes u := by
  rcases knows_iff.mp h with hsymbol | ⟨name, hname, hlower⟩
  · obtain ⟨s, hs, htext, hcase⟩ := listed_spelled.1 _ hsymbol
    exact ⟨s, hs, (Spelling.writes_exact hcase).mpr (by rw [htext, String.toList_ofList])⟩
  · obtain ⟨s, hs, htext, hcase⟩ := listed_spelled.2 _ hname
    refine ⟨s, hs, ?_⟩
    have htext : s.text.toList = u.map Char.toLower := by rw [hlower, htext]
    unfold Spelling.Writes
    rw [htext, List.forall₂_map_left_iff, List.forall₂_same]
    intro c hc
    rw [hcase, if_pos rfl]
    exact sameLetter_toLower (hletters c hc)

end UnitKind

namespace Grammar

variable {kind : UnitKind} {cs n u : List Char}

/-- Letters at the end of a text are cut off behind a number exactly if they are a unit that the kind knows. -/
theorem quantityCut?_letters (hn : numberCut? cs = some (n, u)) (hletters : ∀ c ∈ u, Text.isUnitLetter c = true) :
    quantityCut? kind cs = if (kind.factor? (String.ofList u)).isSome then some (cs, []) else none := by
  have htext : n ++ u = cs := (numberCut?_of hn).2
  have hcut : quantityCut? kind cs = ((spellings kind).findSome? fun s => s.cut? u).map fun r => (n ++ r.1, r.2) := by
    rw [quantityCut?, hn]
  rw [hcut]
  split
  next hknown =>
    obtain ⟨f, hf⟩ := Option.isSome_iff_exists.mp hknown
    obtain ⟨s, hs, hwrites⟩ := UnitKind.exists_writes hletters ((UnitKind.factor?_eq_some_iff hletters).mp hf)
    -- whichever spelling comes first, it takes all the letters
    have hfound : ((spellings kind).findSome? fun s => s.cut? u).isSome = true :=
      List.findSome?_isSome_iff.mpr ⟨s, hs, by rw [Spelling.cut?_of_writes hwrites]; rfl⟩
    obtain ⟨r, hr⟩ := Option.isSome_iff_exists.mp hfound
    obtain ⟨first, -, hfirst⟩ := List.exists_of_findSome?_eq_some hr
    rw [hr, Spelling.rest_of_cut? hletters hfirst]
    simp [htext]
  next hunknown =>
    rw [Option.map_eq_none_iff, List.findSome?_eq_none_iff]
    intro s hs
    by_contra hsome
    obtain ⟨r, hr⟩ := Option.ne_none_iff_exists'.mp hsome
    have hwrites := (Spelling.writes_of_cut? hr).1
    rw [Spelling.rest_of_cut? hletters hr] at hwrites
    have hplain : ∀ c ∈ u, c ∉ lookalikes := by
      intro c hc hlookalike
      have := hletters c hc
      rw [not_isUnitLetter_of_lookalike hlookalike] at this
      cases this
    obtain ⟨⟨f, hf⟩, -⟩ := UnitKind.knows_of_writes hs hwrites fun _ => hplain
    exact hunknown (by rw [(UnitKind.factor?_eq_some_iff hletters).mpr hf]; rfl)

end Grammar

/-! ## Cut and written quantities -/

namespace Quantity

variable {kind : UnitKind} {text : String} {cs n u : List Char}

namespace Written

/-- No part of a written quantity has a lookalike of a letter in it. -/
theorem not_mem_lookalikes (w : Written) : ∀ c ∈ w.text, c ∉ lookalikes := by
  intro c hc hlookalike
  have hletter := not_isUnitLetter_of_lookalike hlookalike
  have hnone : Text.isDigit c = false ∧ Text.isBlank c = false ∧ c ≠ '+' ∧ c ≠ '-' ∧ c ≠ '.' := by
    have hall : lookalikes.all (fun c => !(Text.isDigit c || Text.isBlank c || c == '+' || c == '-' || c == '.')) =
        true := by
      decide +kernel
    simpa [and_assoc] using List.all_eq_true.mp hall c hlookalike
  obtain ⟨hdigit, hblank, hplus, hminus, hpoint⟩ := hnone
  have hnumber : c ∉ w.number := by
    have hwhole : c ∉ w.whole := by
      intro hmem
      rw [w.whole_digits c hmem] at hdigit
      cases hdigit
    unfold number
    cases hfraction : w.fraction? with
    | none => exact hwhole
    | some ds =>
      simp only [List.mem_append, List.mem_cons, not_or]
      refine ⟨hwhole, hpoint, fun hmem => ?_⟩
      rw [w.fraction_digits ds hfraction c hmem] at hdigit
      cases hdigit
  simp only [text, List.mem_append, Option.mem_toList] at hc
  rcases hc with hsign | hmem | hmem | hmem
  · rcases w.sign_mem c hsign with rfl | rfl
    · exact hplus rfl
    · exact hminus rfl
  · exact hnumber hmem
  · rw [w.blanks_blank c hmem] at hblank
    cases hblank
  · rw [w.unit_letters c hmem] at hletter
    cases hletter

/-- Without a plus sign and blanks, the number is cut off, and the unit is left. -/
theorem numberCut?_text (w : Written) (hsign : w.sign? ≠ some '+') (hblanks : w.blanks = []) :
    numberCut? w.text = some (w.sign?.toList ++ w.number, w.unit) := by
  have hcut := w.unsignedCut?_number
  rw [hblanks, List.nil_append] at hcut
  unfold Written.text
  rw [hblanks, List.nil_append]
  cases hs : w.sign? with
  | some c =>
    rcases w.sign_mem c hs with rfl | rfl
    · exact absurd hs hsign
    · simp [numberCut?, hcut]
  | none =>
    have hne : w.number ≠ [] := (unsignedCut?_of hcut).1
    obtain ⟨d, ds, hnumber⟩ := List.exists_cons_of_ne_nil hne
    have hd : d ≠ '-' := by
      rintro rfl
      simp only [hnumber, List.cons_append] at hcut
      exact absurd (unsignedCut?_starts hcut) (by decide)
    simp only [hnumber, List.cons_append] at hcut
    simp only [hnumber, Option.toList_none, List.nil_append, List.cons_append]
    rw [numberCut?, hcut]
    simp [hd]

/-- A number that is cut off in front of letters makes up a written quantity with them. -/
theorem exists_of_numberCut? (h : numberCut? cs = some (n, u)) (hne : u ≠ [])
    (hletters : ∀ c ∈ u, Text.isUnitLetter c = true) : ∃ w : Written, w.text = cs ∧ w.unit = u := by
  have htrim : Text.trimLeft u = u := by
    obtain ⟨c, v, rfl⟩ := List.exists_cons_of_ne_nil hne
    rw [Text.trimLeft, List.dropWhile_cons_of_neg (by simp [Text.not_isBlank_of_isUnitLetter (hletters c (by simp))])]
  have hunsigned : ∃ m, unsignedCut? (Decimal.splitSign cs).2 = some (m, u) := by
    unfold numberCut? at h
    split at h
    next =>
      obtain ⟨r, hr, he⟩ := Option.map_eq_some_iff.mp h
      cases he
      exact ⟨r.1, hr⟩
    next =>
      obtain ⟨d, ds, rfl⟩ : ∃ d ds, cs = d :: ds := by
        apply List.exists_cons_of_ne_nil
        rintro rfl
        cases h
      rw [splitSign_of_isDigit (unsignedCut?_starts h)]
      exact ⟨n, h⟩
  obtain ⟨m, hm⟩ := hunsigned
  have hsplit : splitLiteral? cs = some ((Decimal.splitSign cs).1, m, u) := by
    rw [splitLiteral?_eq, hm, Option.bind_some, htrim]
    simpa [hne] using hletters
  obtain ⟨w, hw, -, -, hunit⟩ := exists_of_splitLiteral? hsplit
  exact ⟨w, hw, hunit⟩

end Written

/-- A quantity that is cut off as a whole is a written one in a unit that the kind knows, unless it is a time with a
lookalike of a letter in it. -/
theorem exists_of_quantityCut? (h : quantityCut? kind cs = some (cs, []))
    (hplain : kind = .time → ∀ c ∈ cs, c ∉ lookalikes) :
    ∃ (w : Written) (f : UnitFactor), w.text = cs ∧ kind.Knows w.unit f := by
  have h : quantityCut? kind (cs ++ []) = some (cs, []) := by rwa [List.append_nil]
  obtain ⟨n, u, hglued, hfound⟩ := glued_of_quantityCut? h
  rw [List.append_nil] at hfound
  obtain ⟨s, hs, hcut⟩ := List.exists_of_findSome?_eq_some hfound
  have hplain : s.anyCase = true → ∀ c ∈ u, c ∉ lookalikes := by
    intro hcase c hc
    apply hplain (UnitKind.eq_time_of_anyCase hs hcase)
    rw [hglued.text]
    exact List.mem_append_right n hc
  obtain ⟨⟨f, hf⟩, hletters⟩ := UnitKind.knows_of_writes hs (Spelling.writes_of_cut? hcut).1 hplain
  have hne : u ≠ [] := by
    rintro rfl
    have hlength := lettersCut?_length (Spelling.cut?_eq_some.mp hcut).1
    exact spelling_ne_nil hs (List.eq_nil_of_length_eq_zero hlength.symm)
  obtain ⟨w, hw, rfl⟩ := Written.exists_of_numberCut? hglued.numberCut? hne hletters
  exact ⟨w, f, hw, hf⟩

/-- A written quantity below zero is refused as such, whatever its unit is. -/
theorem ofText_negative {w : Written} (htext : Text.trim text.toList = w.text) (hnegative : w.negative = true)
    (hnonzero : w.coefficient ≠ 0) : ofText kind text = .error (.negative kind (Text.trimmed text)) := by
  have hchars : (Text.trimmed text).toList = w.text := by simp [Text.trimmed, htext]
  have hne : (Text.trimmed text).isEmpty = false := by
    rw [← Bool.not_eq_true, String.isEmpty_iff, ← String.toList_inj, hchars]
    simp [Written.text, w.unit_ne]
  unfold ofText
  simp [hne, hchars, w.splitLiteral?_text, w.numberParts_number, hnegative, hnonzero, throw, throwThe,
    MonadExceptOf.throw]

/-- What is no written quantity is refused as malformed, if it is not empty. -/
theorem ofText_malformed (hne : (Text.trimmed text).isEmpty = false)
    (hnone : ∀ w : Written, Text.trim text.toList ≠ w.text) :
    ofText kind text = .error (.malformed kind (Text.trimmed text)) := by
  have hsplit : splitLiteral? (Text.trimmed text).toList = none := by
    cases hsplit : splitLiteral? (Text.trimmed text).toList with
    | none => rfl
    | some r =>
      obtain ⟨w, hw, -⟩ := Written.exists_of_splitLiteral? hsplit
      exact absurd (by rw [hw, Text.trimmed, String.toList_ofList]) (hnone w)
  unfold ofText
  simp [hne, hsplit, throw, throwThe, MonadExceptOf.throw]

end Quantity

end RowRecipe
