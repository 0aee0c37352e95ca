import RowRecipe.Proofs.Migration.Words
import RowRecipe.Proofs.Script.Spelling

/-!
# Numbers with letters behind them

A letter directly behind a number belongs to a unit, so the two are one quantity. There are two exceptions. Behind
the comma of a list only a number may come, and the letters behind it are a word of their own. And an underscore
starts a word, but no unit.
-/

namespace RowRecipe.Grammar

variable {s s' : State} {c : Char} {cs n w rest : List Char} {t : Terminal} {p : Piece} {ps : List Piece}

/-- Terminals that are tried before the one that is read cannot be read. -/
theorem State.unread_before {before after : List Terminal} (hall : Terminal.all = before ++ t :: after)
    (h : s.step? cs = some (⟨some t, w⟩, s', rest)) :
    ∀ u ∈ before, s.next? u = none ∨ u.cut? cs = none := by
  rw [step?_eq, Option.or_eq_some_iff] at h
  rcases h with h | ⟨-, h⟩
  · obtain ⟨before', u, after', hall', hu, hbefore⟩ := List.findSome?_eq_some_iff.mp h
    obtain rfl : t = u := by simpa using (reads?_eq_some.mp hu).1
    have hnodup : Terminal.all.Nodup := by decide
    rw [hall] at hall' hnodup
    have hnot := List.nodup_middle.mp hnodup
    rw [List.nodup_cons, List.mem_append, not_or] at hnot
    obtain ⟨rfl, -⟩ := (List.append_cons_inj_of_notMem hnot.1.1 hnot.1.2).mp hall'
    intro u hu
    exact reads?_eq_none.mp (hbefore u hu)
  · obtain ⟨r, -, he⟩ := Option.map_eq_some_iff.mp h
    cases he

/-- A state that takes a number and something else that is no text and no name is one where an argument may start. -/
theorem State.eq_arguments (hs : (s.next? .number).isSome = true) (h : s.next? t = some s') (hnumber : t ≠ .number)
    (hword : t ≠ .text ∧ t ≠ .name) : ∃ list, s = .arguments list := by
  cases s with
  | «arguments» list => exact ⟨list, rfl⟩
  | item kind =>
    have hkind : (if Terminal.number = kind then some (State.arguments (some kind)) else none).isSome = true := hs
    have ht : (if t = kind then some (State.arguments (some kind)) else none) = some s' := h
    split at hkind
    next hk =>
      subst hk
      rw [if_neg hnumber] at ht
      cases ht
    next => cases hkind
  | value =>
    cases t with
    | number => exact absurd rfl hnumber
    | text => exact absurd rfl hword.1
    | name => exact absurd rfl hword.2
    | _ => cases h
  | _ => cases hs

/-! ## What follows a number -/

theorem numberCut?_rest (h : numberCut? cs = some (n, rest)) : ∀ c ∈ rest.head?, Text.isDigit c = false := by
  unfold numberCut? at h
  split at h
  next =>
    obtain ⟨r, hr, he⟩ := Option.map_eq_some_iff.mp h
    cases he
    exact (unsignedCut?_eq_some.mp hr).2.1
  next => exact (unsignedCut?_eq_some.mp h).2.1

theorem malformedCut?_isSome (h : numberCut? cs = some (n, c :: rest)) (hc : Text.isLatin c = true) :
    (malformedCut? cs).isSome = true := by
  simp [malformedCut?, h, runCut?, hc]

/-- A quantity goes on behind its number. -/
theorem quantityCut?_unit {kind : UnitKind} (h : quantityCut? kind cs = some (w, rest)) {r : Cut}
    (hn : numberCut? cs = some r) : ∃ unit, unit ≠ [] ∧ w = r.1 ++ unit := by
  rw [quantityCut?, hn] at h
  obtain ⟨u, hu, he⟩ := Option.map_eq_some_iff.mp h
  obtain ⟨spelling, hmem, hcut⟩ := List.exists_of_findSome?_eq_some hu
  cases he
  refine ⟨u.1, ?_, rfl⟩
  have hlength := lettersCut?_length (Spelling.cut?_eq_some.mp hcut).1
  intro hnil
  apply spelling_ne_nil hmem
  rw [hnil] at hlength
  exact List.eq_nil_of_length_eq_zero hlength.symm

/-- The only terminals that start with a word character, but not with a digit, are words. -/
theorem Terminal.isNameStart_of_starts (h : t.starts c = true) (hc : Text.isWordChar c = true)
    (hd : Text.isDigit c = false) : isNameStart c = true := by
  have hmark : c ∉ marks := by
    intro hmem
    have := isLexical_mark hmem
    rw [isLexical_of_isWordChar hc] at this
    cases this
  cases hw : t.isWord with
  | false =>
    exfalso
    apply hmark
    cases t with
    | separator | text =>
      simp only [starts, Bool.or_eq_true, beq_iff_eq] at h
      rcases h with rfl | rfl <;> decide
    | pragmaWord | comma | equal | closing | column =>
      obtain rfl : c = _ := beq_iff_eq.mp h
      decide
    | _ => cases hw
  | true =>
    cases t with
    | name => exact h
    | opening | versionWord | loadWord =>
      obtain rfl : c = _ := beq_iff_eq.mp h
      decide
    | version =>
      rw [starts, hd] at h
      cases h
    | duration | byteSize | malformedUnit | number =>
      rw [starts, hd, Bool.or_false, beq_iff_eq] at h
      subst h
      revert hc
      decide +kernel
    | _ => cases hw

/-- A number starts no other terminal than numbers, quantities and versions. -/
theorem Terminal.numeric_of_starts (h : t.starts c = true) (hc : (c == '-' || Text.isDigit c) = true) :
    t = .duration ∨ t = .byteSize ∨ t = .malformedUnit ∨ t = .number ∨ t = .version := by
  have hname : isNameStart c = false := by
    rw [Bool.or_eq_true, beq_iff_eq] at hc
    rcases hc with rfl | hc
    · decide
    · exact Migration.not_isNameStart_of_isDigit hc
  cases t with
  | duration | byteSize | malformedUnit | number | version => simp
  | name =>
    rw [starts, hname] at h
    cases h
  | opening | versionWord | loadWord =>
    obtain rfl : c = _ := beq_iff_eq.mp h
    revert hname
    decide
  | separator | pragmaWord | comma | equal | closing | column | text =>
    cases eq_of_starts (u := .number) rfl h hc

/-! ## How such numbers are read -/

/-- How a number with the character `c` directly behind it is read in a state. -/
inductive ReadsGlued (s : State) (n : List Char) (c : Char) (p : Piece) : Prop
  /-- As one quantity, where an argument may start: what follows the number is its unit. -/
  | quantity (list : Option Terminal) (t : Terminal) (unit : List Char) (hs : s = .arguments list)
      (ht : t = .byteSize ∨ t = .duration) (hunit : unit ≠ []) (hp : p = ⟨some t, n ++ unit⟩)
  /-- Alone, behind the comma of a list. -/
  | item (hs : s = .item .number) (hc : isNameStart c = true) (hp : p = ⟨some .number, n⟩)
  /-- Alone, in front of an underscore. -/
  | underscore (list : Option Terminal) (hs : s = .arguments list) (hc : c = '_') (hp : p = ⟨some .number, n⟩)

/-- In the three states that a number is taken in, this is how it is read, if it is no number with an unknown
unit. A value in braces has nothing glued to it. -/
theorem Scanned.readsGlued (h : Scanned s cs (p :: ps)) (hs : (s.next? .number).isSome = true)
    (hn : numberCut? cs = some (n, c :: rest)) (hc : Text.isWordChar c = true)
    (hp : p.terminal? ≠ some .malformedUnit) : ReadsGlued s n c p := by
  have hu := h.uncons
  obtain ⟨t?, w⟩ := p
  obtain ⟨d, ds, rfl⟩ : ∃ d ds, cs = d :: ds := by
    apply List.exists_cons_of_ne_nil
    rintro rfl
    cases hn
  have hd := numberCut?_starts hn
  rcases State.step?_cases hu.step with ⟨t, ht, hnext, hcut⟩ | ⟨-, -, hgap, -⟩
  · obtain rfl : t? = some t := ht
    rcases Terminal.numeric_of_starts (Terminal.starts_of_cut? hcut) hd with rfl | rfl | rfl | rfl | rfl
    · obtain ⟨unit, hunit, hw⟩ := quantityCut?_unit hcut hn
      obtain ⟨list, rfl⟩ := State.eq_arguments hs hnext (by simp) (by simp)
      exact .quantity list .duration unit rfl (.inr rfl) hunit (congrArg _ hw)
    · obtain ⟨unit, hunit, hw⟩ := quantityCut?_unit hcut hn
      obtain ⟨list, rfl⟩ := State.eq_arguments hs hnext (by simp) (by simp)
      exact .quantity list .byteSize unit rfl (.inl rfl) hunit (congrArg _ hw)
    · exact absurd rfl hp
    · -- the number is read alone, so that its state is what makes the difference
      have hdigit : Text.isDigit c = false := numberCut?_rest hn c rfl
      have hcut : numberCut? (d :: ds) = some (w, Piece.textOf ps) := hcut
      rw [hn, Option.some.injEq, Prod.mk.injEq] at hcut
      obtain ⟨rfl, hrest⟩ := hcut
      have hscanned := hu.rest
      rw [← hrest] at hscanned
      obtain ⟨u, hu', hstart⟩ := hscanned.exists_starts hc
      have hname := Terminal.isNameStart_of_starts hstart hc hdigit
      cases s with
      | item kind =>
        have hkind : (if Terminal.number = kind then some (State.arguments (some kind)) else none).isSome = true := hs
        split at hkind
        next hk => exact .item (by rw [hk]) hname rfl
        next => cases hkind
      | «arguments» list =>
        obtain ⟨after, hall⟩ : ∃ after,
            Terminal.all = [.opening, .duration, .byteSize, .malformedUnit] ++ .number :: after := ⟨_, rfl⟩
        rcases State.unread_before hall hu.step .malformedUnit (by decide) with hnone | hnone
        · cases hnone
        · have hlatin : Text.isLatin c = false := by
            rw [← Bool.not_eq_true]
            intro hlatin
            have := malformedCut?_isSome hn hlatin
            rw [show malformedCut? (d :: ds) = none from hnone] at this
            cases this
          rw [isNameStart, hlatin, Bool.or_false, beq_iff_eq] at hname
          exact .underscore list rfl hname rfl
      | value =>
        have hclosed : ((State.valueEnd).next? u).isSome = true := hu'
        cases u with
        | comma | closing =>
          obtain rfl : c = _ := beq_iff_eq.mp hstart
          cases hname
        | _ => cases hclosed
      | _ => cases hs
    · obtain ⟨list, rfl⟩ := State.eq_arguments hs hnext (by simp) (by simp)
      cases hnext
  · exfalso
    rcases gapCut?_cases hgap with ⟨ds', hcs, -⟩ | ⟨d', ds', hd', hcs, -⟩
    · obtain rfl : d = '/' := (List.cons.inj hcs).1
      revert hd
      decide
    · obtain rfl : d = d' := (List.cons.inj hcs).1
      rcases isGapBlank_iff.mp hd' with rfl | rfl | rfl | rfl <;> revert hd <;> decide

end RowRecipe.Grammar

namespace RowRecipe.Recipe

open Grammar Script

variable {source : String} {r : Recipe} {ps : List Piece}

/-- A recipe has no number with an unknown unit. -/
theorem not_malformed (h : ofText source = .ok r) (hps : Scanned .statement source.toList ps) :
    ∀ p ∈ ps, p.terminal? ≠ some .malformedUnit := by
  intro p hp hmalformed
  obtain ⟨script, hread, hfold⟩ := ofText_eq_ok.mp h
  obtain ⟨all, hall, rfl⟩ := read_eq_ok.mp hread
  obtain rfl : ps = all := Except.ok.inj ((scan_eq_ok_iff.mpr hps).symm.trans (scan_eq_ok_iff.mpr hall))
  obtain ⟨l, hl, hterminal⟩ : ∃ l ∈ locate .origin ps, l.terminal = .malformedUnit := mem_locate_of_mem hp hmalformed
  obtain ⟨ls, hls, hmem⟩ := exists_mem_splitOnP (p := (·.terminal == .separator)) hl (by rw [hterminal]; rfl)
  rcases opened_of_mem_splitOnP hall hls with rfl | ⟨place, w, qs, rfl, hscanned, hsep⟩ | ⟨place, w, qs, rfl, -, -⟩
  · cases hmem
  · -- no pragma takes a number
    obtain ⟨q, hq, hqt⟩ := terminal_of_mem_locate hmem
    rw [hterminal] at hqt
    rcases List.mem_cons.mp hq with rfl | hq
    · cases hqt
    · obtain ⟨s, hs, hnext⟩ := hscanned.exists_region State.next?_inPragma rfl hsep q hq _ hqt
      cases s <;> first | cases hs; done | cases hnext
  · -- the arguments of a directive have tokens, so that they have a meaning
    obtain ⟨ts, hts⟩ := exists_tokens hfold (List.mem_filterMap.mpr ⟨_, hls, rfl⟩)
    obtain ⟨w', qs', halone, ⟨place', hsame⟩, hts, -⟩ := exists_alone_of_directive hall hls rfl hts
    rw [hsame] at hmem
    obtain ⟨q, hq, hqt⟩ := terminal_of_mem_locate hmem
    rw [hterminal] at hqt
    obtain ⟨hmeant, -⟩ := text_respaced w' halone.rest halone.separators
      (head?_ne_comma halone.rest halone.separators _) hts
    rcases List.mem_cons.mp hq with rfl | hq
    · cases hqt
    · cases hmeant q hq _ hqt

/-- Numbers among the pieces of a recipe. -/
structure NumbersGlued (ps : List Piece) : Prop where
  /-- A name stands directly behind a number only if this is an item behind the comma of a list, or if the name
  starts with an underscore. -/
  name {pre post : List Piece} {w v : List Char} (h : ps = pre ++ ⟨some .number, w⟩ :: ⟨some .name, v⟩ :: post) :
    State.statement.afterAll pre = .item .number ∨
      (∃ list, State.statement.afterAll pre = .arguments list) ∧ v.head? = some '_'
  /-- Where a number is taken, a number with a letter or an underscore directly behind it is one quantity, or it is
  one of these exceptions. -/
  read {pre post : List Piece} {p : Piece} {n rest : List Char} {c : Char} (h : ps = pre ++ p :: post)
    (hs : ((State.statement.afterAll pre).next? .number).isSome = true)
    (hn : numberCut? (Piece.textOf (p :: post)) = some (n, c :: rest)) (hc : Text.isWordChar c = true) :
    ReadsGlued (State.statement.afterAll pre) n c p

/-- A recipe has a number with letters glued to it only as one quantity, as the last number of a list, or in front of
an underscore. -/
theorem numbersGlued_of_ofText (h : ofText source = .ok r) :
    ∃ ps, scan .statement source.toList = .ok ps ∧ NumbersGlued ps := by
  obtain ⟨script, hread, -⟩ := ofText_eq_ok.mp h
  obtain ⟨ps, hps, -⟩ := read_eq_ok.mp hread
  have read {pre post : List Piece} {p : Piece} {n rest : List Char} {c : Char} (hpieces : ps = pre ++ p :: post)
      (hs : ((State.statement.afterAll pre).next? .number).isSome = true)
      (hn : numberCut? (Piece.textOf (p :: post)) = some (n, c :: rest)) (hc : Text.isWordChar c = true) :
      ReadsGlued (State.statement.afterAll pre) n c p := by
    have hp := not_malformed h hps p (by simp [hpieces])
    rw [hpieces] at hps
    exact hps.suffix.readsGlued hs hn hc hp
  refine ⟨ps, scan_eq_ok_iff.mpr hps, ?_, read⟩
  intro pre post w v hpieces
  have hsuffix := hps
  rw [hpieces] at hsuffix
  have hnumber := hsuffix.suffix.uncons
  have hname := hnumber.rest.uncons
  obtain ⟨hnext, hcut⟩ := hnumber.reads
  obtain ⟨c, v, rfl⟩ := List.exists_cons_of_ne_nil hname.ne_nil
  have hstart : isNameStart c = true := Terminal.starts_of_cut? hname.reads.2
  rcases read hpieces (Option.isSome_iff_exists.mpr ⟨_, hnext⟩) hcut (isWordChar_of_isNameStart hstart) with
    ⟨_, t, unit, -, ht, -, hp⟩ | ⟨hs, -, -⟩ | ⟨list, hs, rfl, -⟩
  · obtain rfl : Terminal.number = t := Option.some.inj (Piece.mk.inj hp).1
    rcases ht with ht | ht <;> cases ht
  · exact .inl hs
  · exact .inr ⟨⟨list, hs⟩, rfl⟩

/-- A recipe with numbers that have something glued to them: a unit, a column, a sign, and in two places a word. -/
def gluing : String :=
  "cut 10MB 5:a -3-4 1,10XB\nrow 7_a 30ms"

theorem numbersGlued_gluing :
    ∃ r ps, ofText gluing = .ok r ∧ scan .statement gluing.toList = .ok ps ∧ NumbersGlued ps := by
  have hread : (ofText gluing).toOption.isSome = true := by decide +kernel
  cases hr : ofText gluing with
  | error e =>
    rw [hr] at hread
    cases hread
  | ok r =>
    obtain ⟨ps, hps, hnumbers⟩ := numbersGlued_of_ofText hr
    exact ⟨r, ps, rfl, hps, hnumbers⟩

/-- A recipe with a list whose last number has an unknown unit. -/
def unknownUnitInList : String :=
  "x 1,10XB"

deriving instance DecidableEq for Piece

/-- The list ends with the number, and the letters of the unit are a name directly behind it. -/
theorem splits_unknownUnitInList : ∃ r pre post, ofText unknownUnitInList = .ok r ∧
    scan .statement unknownUnitInList.toList =
      .ok (pre ++ ⟨some .number, ['1', '0']⟩ :: ⟨some .name, ['X', 'B']⟩ :: post) := by
  have hread : (ofText unknownUnitInList).toOption.isSome = true := by decide +kernel
  have hscan : (scan .statement unknownUnitInList.toList).toOption =
      some [⟨some .name, ['x']⟩, ⟨none, [' ']⟩, ⟨some .number, ['1']⟩, ⟨some .comma, [',']⟩,
        ⟨some .number, ['1', '0']⟩, ⟨some .name, ['X', 'B']⟩] := by
    decide +kernel
  cases hr : ofText unknownUnitInList with
  | error e =>
    rw [hr] at hread
    cases hread
  | ok r =>
    cases hps : scan .statement unknownUnitInList.toList with
    | error e =>
      rw [hps] at hscan
      cases hscan
    | ok ps =>
      rw [hps] at hscan
      cases hscan
      exact ⟨r, [_, _, _, _], [], rfl, rfl⟩

end RowRecipe.Recipe
