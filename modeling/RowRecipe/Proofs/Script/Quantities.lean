import RowRecipe.Proofs.Script.Pointing
import RowRecipe.Proofs.Script.Spelling
import RowRecipe.Proofs.Unit.Spellings

/-!
# Quantities in recipes

A text that is a quantity is read as that quantity where it stands as an argument. The other way round, what is read
as a quantity is one, unless it is below zero or has a character in it that is only taken for a letter.
-/

namespace RowRecipe

open Grammar Script

namespace Grammar

variable {kind : UnitKind} {cs : List Char}

/-- The terminal of the quantities of a kind. -/
def Terminal.quantity : UnitKind → Terminal
  | .size => byteSize
  | .time => duration

theorem Terminal.cut?_quantity (kind : UnitKind) : (quantity kind).cut? = quantityCut? kind := by
  cases kind <;> rfl

theorem Terminal.isListed_quantity (kind : UnitKind) : (quantity kind).isListed = false := by
  cases kind <;> rfl

theorem Terminal.quantity_ne_opening (kind : UnitKind) : quantity kind ≠ opening := by
  cases kind <;> decide

/-- A quantity is read as an argument; a duration is tried before a size. -/
theorem State.step?_quantity (list : Option Terminal) (hcut : quantityCut? kind cs = some (cs, []))
    (htime : kind = .size → quantityCut? .time cs = none) :
    (State.arguments list).step? cs = some (⟨some (.quantity kind), cs⟩, .arguments none, []) := by
  have hopening : Terminal.opening.cut? cs = none := by
    obtain ⟨c, ds, rfl⟩ := List.exists_cons_of_ne_nil (quantityCut?_of hcut).1
    apply Terminal.cut?_eq_none_of_starts
    have hstart : (Terminal.quantity kind).starts c = true := by
      apply Terminal.starts_of_cut?
      rw [Terminal.cut?_quantity]
      exact hcut
    rw [← Bool.not_eq_true]
    intro hp
    obtain rfl : c = 'p' := beq_iff_eq.mp hp
    cases kind <;> exact absurd hstart (by decide)
  cases kind with
  | time =>
    have hall : Terminal.all = [.opening] ++ .duration :: Terminal.all.drop 2 := rfl
    refine step?_of_before hall rfl hcut ?_
    intro u hu
    rw [List.mem_singleton.mp hu]
    exact .inr hopening
  | size =>
    have hall : Terminal.all = [.opening, .duration] ++ .byteSize :: Terminal.all.drop 3 := rfl
    refine step?_of_before hall rfl hcut ?_
    intro u hu
    simp only [List.mem_cons, List.not_mem_nil, or_false] at hu
    rcases hu with rfl | rfl
    · exact .inr hopening
    · exact .inr (htime rfl)

end Grammar

/-! ## A quantity as an argument -/

/-- A text without blanks is trimmed. -/
theorem Text.trim_of_not_isBlank {cs : List Char} (h : ∀ c ∈ cs, isBlank c = false) : trim cs = cs := by
  have hdrop {ds : List Char} (hds : ds ⊆ cs) : ds.dropWhile isBlank = ds := by
    rw [List.dropWhile_eq_self_iff]
    intro hlength
    rw [h _ (hds (List.getElem_mem hlength))]
    simp
  have hreverse : cs.reverse ⊆ cs := fun c => List.mem_reverse.mp
  rw [trim, trimLeft, hdrop (List.Subset.refl cs), trimRight, hdrop hreverse, List.reverse_reverse]

/-- What a quantity of the kind means as an argument. -/
def UnitKind.meaning : UnitKind → Quantity → Meaning
  | size => .byteSize
  | time => .timeDuration

namespace Quantity

variable {kind : UnitKind} {text : String}

/-- A quantity without blanks and a plus sign is cut off as a whole, and no size is cut off as a duration. -/
theorem quantityCut?_of_spells {w : Written} {f : UnitFactor} (h : Spells kind text w f)
    (hblank : ∀ c ∈ text.toList, Text.isBlank c = false) (hplus : '+' ∉ text.toList) :
    quantityCut? kind text.toList = some (text.toList, []) ∧
      (kind = .size → quantityCut? .time text.toList = none) := by
  have htext : text.toList = w.text := by rw [← h.text, Text.trim_of_not_isBlank hblank]
  have hblanks : w.blanks = [] := by
    rw [List.eq_nil_iff_forall_not_mem]
    intro c hc
    have hnot := hblank c (by simp [htext, Written.text, hc])
    rw [w.blanks_blank c hc] at hnot
    cases hnot
  have hsign : w.sign? ≠ some '+' := by
    intro hsign
    exact hplus (by simp [htext, Written.text, hsign])
  have hnumber := w.numberCut?_text hsign hblanks
  rw [htext, quantityCut?_letters hnumber w.unit_letters, quantityCut?_letters hnumber w.unit_letters,
    (UnitKind.factor?_eq_some_iff w.unit_letters).mpr h.unit]
  refine ⟨rfl, ?_⟩
  rintro rfl
  obtain ⟨hlisted⟩ := h.unit
  have hnone : ∀ e ∈ UnitKind.sizeUnits, UnitKind.time.factor? e.1 = none := by decide +kernel
  rw [hnone _ hlisted]
  rfl

end Quantity

namespace Script

variable {kind : UnitKind} {name cs : List Char} {text source : String} {q : Quantity}

/-- A blank and a quantity behind it. -/
def spacedQuantity (kind : UnitKind) (cs : List Char) : List Piece :=
  [⟨none, [' ']⟩, ⟨some (.quantity kind), cs⟩]

theorem textOf_spacedQuantity (kind : UnitKind) (cs : List Char) :
    Piece.textOf (spacedQuantity kind cs) = ' ' :: cs := by
  simp [spacedQuantity, Piece.textOf]

/-- A name with a quantity behind it is a directive alone. -/
theorem alone_quantity (hname : nameCut? name = some (name, [])) (hcut : quantityCut? kind cs = some (cs, []))
    (htime : kind = .size → quantityCut? .time cs = none) : Alone name (spacedQuantity kind cs) := by
  have hquantity : Scanned (.arguments none) cs [⟨some (.quantity kind), cs⟩] :=
    .step (State.step?_quantity none hcut htime) (.done rfl)
  refine alone_spaced hname hquantity ?_ ?_ ?_
  · intro c hc
    obtain ⟨ds, rfl⟩ := List.head?_eq_some_iff.mp (Option.mem_def.mp hc)
    rw [← Terminal.cut?_quantity] at hcut
    rw [← Bool.not_eq_true]
    intro hblank
    have hstart := Terminal.starts_of_cut? hcut
    rw [Terminal.not_starts_of_isGapBlank hblank] at hstart
    cases hstart
  · cases kind <;> simp [Terminal.quantity]
  · rintro p ⟨⟩
    rfl

/-- A quantity behind a name is its only argument. -/
theorem argumentsBehind_quantity (kind : UnitKind) (name cs : List Char) :
    ∃ l : Lexeme, argumentsBehind name (spacedQuantity kind cs) = [.quantity kind l] ∧
      l.terminal = .quantity kind ∧ l.text = String.ofList cs := by
  let l : Lexeme := ⟨.quantity kind, String.ofList cs, (Place.origin.after name).after [' ']⟩
  have hlocate : locate (Place.origin.after name) (spacedQuantity kind cs) = [l] := rfl
  refine ⟨l, ?_, rfl, rfl⟩
  rw [argumentsBehind, hlocate, argumentsOf_single (Terminal.isListed_quantity kind)
    (Terminal.quantity_ne_opening kind), argumentsOf_nil]
  cases kind <;> rfl

/-- The token of a quantity that is its own text. -/
theorem tokens_quantity (hq : Quantity.ofText kind text = .ok q) (htrim : Text.trimmed text = text) :
    (argumentsBehind name (spacedQuantity kind text.toList)).mapM (Argument.token source) =
      .ok [⟨kind.meaning q, text⟩] := by
  obtain ⟨l, harguments, -, htext⟩ := argumentsBehind_quantity kind name text.toList
  rw [String.ofList_toList] at htext
  subst htext
  have htoken : (Argument.quantity kind l).token source = .ok (.of (kind.meaning q)) := by
    refine Argument.token_quantity.mpr ⟨q, hq, ?_⟩
    cases kind <;> rfl
  have hliteral := literal_of_token_quantity htoken
  rw [htrim] at hliteral
  rw [harguments, Argument.mapM_token_cons]
  refine ⟨_, [], htoken, rfl, ?_⟩
  rw [← hliteral]
  rfl

end Script

namespace Recipe

variable {kind : UnitKind} {name text : String} {q : Quantity}

/-- A quantity of a kind that stands behind a name is the one argument of a directive: the lexer knows the units that
the kind knows. -/
theorem ofText_quantity (hname : nameCut? name.toList = some (name.toList, []))
    (hblank : ∀ c ∈ text.toList, Text.isBlank c = false) (hplus : '+' ∉ text.toList)
    (hq : Quantity.ofText kind text = .ok q) : Recipe.ofText (name ++ " " ++ text) = .ok
      { groups := [⟨name, [⟨kind.meaning q, text⟩], 1, name ++ " " ++ text⟩], version := none, loadable := [] } := by
  obtain ⟨w, f, hspells⟩ := Quantity.exists_spells hq
  obtain ⟨hcut, htime⟩ := Quantity.quantityCut?_of_spells hspells hblank hplus
  have htrim : Text.trimmed text = text := by
    rw [Text.trimmed, Text.trim_of_not_isBlank hblank, String.ofList_toList]
  have hrecipe := (alone_quantity hname hcut htime).ofText (tokens_quantity hq htrim)
  have hsource : String.ofList (name.toList ++ Piece.textOf (spacedQuantity kind text.toList)) =
      name ++ " " ++ text := by
    rw [textOf_spacedQuantity, ← String.toList_inj]
    simp
  rwa [hsource, String.ofList_toList] at hrecipe

/-- Three weeks, with a digit of another script and a capital letter. -/
def threeWeeks : Quantity :=
  { kind := .time, literal := "٣Weeks", numeric := .finite false 3 0, unit := "Weeks", canonical := 1814400000 }

theorem ofText_quantity_weeks :
    nameCut? "every".toList = some ("every".toList, []) ∧
      (∀ c ∈ threeWeeks.literal.toList, Text.isBlank c = false) ∧ '+' ∉ threeWeeks.literal.toList ∧
      Quantity.ofText .time threeWeeks.literal = .ok threeWeeks ∧
      Recipe.ofText ("every" ++ " " ++ threeWeeks.literal) = .ok
        { groups := [⟨"every", [⟨.timeDuration threeWeeks, threeWeeks.literal⟩], 1, "every ٣Weeks"⟩]
          version := none, loadable := [] } := by
  have hname : nameCut? "every".toList = some ("every".toList, []) := by decide +kernel
  have hblanks : threeWeeks.literal.toList.all (fun c => !Text.isBlank c) = true := by decide +kernel
  have hblank : ∀ c ∈ threeWeeks.literal.toList, Text.isBlank c = false := by simpa using List.all_eq_true.mp hblanks
  have hplus : '+' ∉ threeWeeks.literal.toList := by decide +kernel
  obtain ⟨q, hq, hweeks⟩ :=
    exists_eq_ok_of_toOption (Quantity.ofText .time threeWeeks.literal) id (b := threeWeeks) (by decide +kernel)
  obtain rfl : q = threeWeeks := hweeks
  exact ⟨hname, hblank, hplus, hq, ofText_quantity hname hblank hplus hq⟩

end Recipe

/-! ## Quantities in a tree -/

namespace Quantity

variable {kind : UnitKind} {text : String} {e : FormatError}

/-- The text is a quantity, but for a number below zero. -/
def BelowZero (text : String) : Prop :=
  ∃ w : Written, w.text = text.toList ∧ w.negative = true ∧ w.coefficient ≠ 0

/-- Why a text that was read as a quantity of the kind is none: its number is below zero, or it is a time and one of
its characters is taken for a letter that it is not. -/
inductive Refused (kind : UnitKind) (text : String) : FormatError → Prop
  | negative (h : BelowZero text) : Refused kind text (.negative kind text)
  | lookalike {c : Char} (htime : kind = .time) (hc : c ∈ lookalikes) (hmem : c ∈ text.toList) :
      Refused kind text (.malformed kind text)

/-- What is cut off as a quantity is refused for these two reasons only. -/
theorem ofText_eq_error_iff (hcut : quantityCut? kind text.toList = some (text.toList, []))
    (htrim : Text.trimmed text = text) : ofText kind text = .error e ↔ Refused kind text e := by
  have hchars : Text.trim text.toList = text.toList := by
    rw [← String.ofList_inj, String.ofList_toList]
    exact htrim
  have hne : (Text.trimmed text).isEmpty = false := by
    rw [htrim, ← Bool.not_eq_true, String.isEmpty_iff, ← String.toList_inj]
    exact (quantityCut?_of hcut).1
  have hlookalike {c : Char} (hc : c ∈ lookalikes) (hmem : c ∈ text.toList) :
      ofText kind text = .error (.malformed kind text) := by
    have hmalformed : ofText kind text = .error (.malformed kind (Text.trimmed text)) := by
      apply ofText_malformed hne
      intro w hw
      rw [hchars] at hw
      rw [hw] at hmem
      exact w.not_mem_lookalikes c hmem hc
    rwa [htrim] at hmalformed
  constructor
  · intro he
    by_cases hplain : kind = .time → ∀ c ∈ text.toList, c ∉ lookalikes
    · obtain ⟨w, f, htext, hknows⟩ := exists_of_quantityCut? hcut hplain
      by_cases hsign : w.negative = true → w.coefficient = 0
      · rw [ofText_of_spells ⟨hchars.trans htext.symm, hknows, hsign⟩] at he
        cases he
      · obtain ⟨hnegative, hnonzero⟩ := Classical.not_imp.mp hsign
        rw [ofText_negative (hchars.trans htext.symm) hnegative hnonzero, htrim] at he
        cases he
        exact .negative ⟨w, htext, hnegative, hnonzero⟩
    · obtain ⟨htime, hsome⟩ := Classical.not_imp.mp hplain
      simp only [not_forall, not_not] at hsome
      obtain ⟨c, hmem, hc⟩ := hsome
      rw [hlookalike hc hmem] at he
      cases he
      exact .lookalike htime hc hmem
  · rintro (⟨w, htext, hnegative, hnonzero⟩ | ⟨-, hc, hmem⟩)
    · rw [ofText_negative (hchars.trans htext.symm) hnegative hnonzero, htrim]
    · exact hlookalike hc hmem

end Quantity

namespace Script

variable {source : String} {script : Script} {l : Lexeme} {kind : UnitKind}

/-- What a tree holds as a quantity was cut off as one. -/
theorem quantityCut?_of_holds (hread : Script.read source = .ok script) (hl : script.tree.Holds l)
    (ht : l.terminal = .quantity kind) :
    quantityCut? kind l.text.toList = some (l.text.toList, []) ∧ Text.trimmed l.text = l.text := by
  obtain ⟨ps, hps, rfl⟩ := read_eq_ok.mp hread
  obtain ⟨before, after, rfl⟩ := List.append_of_mem (mem_of_mem_locate (mem_of_holds hl))
  obtain ⟨hnext, hcut⟩ := hps.suffix.uncons.reads
  rw [Piece.textOf_cons] at hcut
  constructor
  · rw [ht, Terminal.cut?_quantity] at hcut
    exact quantityCut?_truncate hcut
  · have htrim := trimmed_of_cut? (by cases kind <;> simp [ht, Terminal.quantity]) hcut
    rwa [String.ofList_toList] at htrim

/-- A quantity that a tree holds is refused exactly if its number is below zero, or if it is a time with a character
that is only taken for a letter. -/
theorem refused_of_holds (hread : Script.read source = .ok script) (hl : script.tree.Holds l)
    (ht : l.terminal = .quantity kind) (e : FormatError) :
    Quantity.ofText kind l.text = .error e ↔ Quantity.Refused kind l.text e := by
  obtain ⟨hcut, htrim⟩ := quantityCut?_of_holds hread hl ht
  exact Quantity.ofText_eq_error_iff hcut htrim

/-- Whatever is cut off as a quantity is one in the tree of a directive. -/
theorem exists_holds_quantity (kind : UnitKind) (name cs : List Char) (hname : nameCut? name = some (name, []))
    (hcut : quantityCut? kind cs = some (cs, [])) (htime : kind = .size → quantityCut? .time cs = none) :
    ∃ script l, Script.read (String.ofList (name ++ ' ' :: cs)) = .ok script ∧ script.tree.Holds l ∧
      l.terminal = .quantity kind ∧ l.text = String.ofList cs := by
  have halone := alone_quantity hname hcut htime
  obtain ⟨l, harguments, hterminal, hl⟩ := argumentsBehind_quantity kind name cs
  have hscanned := halone.scanned_source
  rw [textOf_spacedQuantity] at hscanned
  refine ⟨_, l, read_eq_ok.mpr ⟨_, hscanned, rfl⟩, ?_, hterminal, hl⟩
  have hargument : (Argument.quantity kind l).tree.Holds l := by
    cases kind <;> exact .node List.mem_cons_self .leaf
  unfold Script.tree
  rw [halone.statements, harguments]
  exact .node List.mem_cons_self (.node (List.mem_cons_of_mem _ List.mem_cons_self) hargument)

/-- Two hours below zero. -/
def twoHoursAgo : Quantity.Written where
  sign? := some '-'
  whole := ['2']
  fraction? := none
  blanks := []
  unit := ['h']
  sign_mem := by
    rintro c ⟨⟩
    exact .inr rfl
  whole_ne := List.cons_ne_nil _ _
  whole_digits := List.forall_mem_singleton.mpr (by decide)
  fraction_ne := nofun
  fraction_digits := nofun
  blanks_blank := nofun
  unit_ne := List.cons_ne_nil _ _
  unit_letters := List.forall_mem_singleton.mpr (by decide)

theorem refused_of_holds_negative : ∃ script l, Script.read "wait -2h" = .ok script ∧ script.tree.Holds l ∧
    l.terminal = .duration ∧ Quantity.ofText .time l.text = .error (.negative .time l.text) := by
  obtain ⟨script, l, hread, hl, ht, htext⟩ := exists_holds_quantity .time "wait".toList twoHoursAgo.text
    (by decide +kernel) (by decide +kernel) nofun
  have hbelow : Quantity.BelowZero l.text :=
    ⟨twoHoursAgo, by rw [htext, String.toList_ofList], by decide, by decide +kernel⟩
  exact ⟨script, l, hread, hl, ht, (refused_of_holds hread hl ht _).mpr (.negative hbelow)⟩

/-- A week with the sign for kelvin in it: the lexer takes it for a duration. -/
def kelvinWeek : String :=
  "1wee\u212a"

/-- The week is no duration, though its number is not below zero. -/
theorem malformed_kelvinWeek : ∃ script l, Script.read ("x " ++ kelvinWeek) = .ok script ∧ script.tree.Holds l ∧
    l.terminal = .duration ∧ l.text = kelvinWeek ∧ '-' ∉ kelvinWeek.toList ∧
      Quantity.ofText .time kelvinWeek = .error (.malformed .time kelvinWeek) := by
  have hcut : quantityCut? .time kelvinWeek.toList = some (kelvinWeek.toList, []) := by decide +kernel
  obtain ⟨script, l, hread, hl, ht, htext⟩ := exists_holds_quantity .time "x".toList kelvinWeek.toList
    (by decide +kernel) hcut nofun
  rw [String.ofList_toList] at htext
  have hmalformed : Quantity.ofText .time kelvinWeek = .error (.malformed .time kelvinWeek) :=
    (Quantity.ofText_eq_error_iff hcut (by decide +kernel)).mpr
      (.lookalike (c := '\u212a') rfl (by decide) (by decide))
  exact ⟨script, l, hread, hl, ht, htext, by decide, hmalformed⟩

end Script

end RowRecipe
