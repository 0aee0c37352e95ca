import RowRecipe.Proofs.Migration.Reading
import RowRecipe.Proofs.Script.Spelling

/-!
# Reading plain recipes

Migration of a recipe of bare words goes from statement to statement, and from word to word in each of them. Scanning
reads what it writes in the same order, so the statements that are written are the statements that are read.
-/

namespace RowRecipe.Migration

open Grammar Script

variable {known : Option Registry} {standing : Standing} {c : Char} {cs u w x rest : List Char} {s : State}
  {ps qs us : List Piece} {n : Nat}

/-! ## Between words -/

/-- The gap that blanks are read as. -/
def gapOf (u : List Char) : List Piece :=
  if u = [] then [] else [⟨none, u⟩]

theorem textOf_gapOf (u : List Char) : Piece.textOf (gapOf u) = u := by
  unfold gapOf
  split
  next h => rw [h]; rfl
  next => exact Piece.textOf_singleton _

theorem terminal?_of_mem_gapOf {p : Piece} (h : p ∈ gapOf u) : p.terminal? = none := by
  unfold gapOf at h
  split at h
  next => cases h
  next =>
    obtain rfl := List.mem_singleton.mp h
    rfl

theorem locate_gapOf (u : List Char) (place : Place) (ps : List Piece) :
    locate place (gapOf u ++ ps) = locate (place.after u) ps := by
  rw [locate_gaps fun _ => terminal?_of_mem_gapOf, textOf_gapOf]

theorem scanned_gapOf (hu : ∀ c ∈ u, isGapBlank c = true) (hcs : ∀ c ∈ cs.head?, isGapBlank c = false)
    (h : Scanned s cs ps) : Scanned s (u ++ cs) (gapOf u ++ ps) := by
  cases u with
  | nil => exact h
  | cons c u =>
    rw [List.forall_mem_cons] at hu
    exact .step (State.step?_gap (gapCut?_blanks hu.1 hu.2 hcs)) h

theorem update_gap (hu : ∀ c ∈ u, isGapBlank c = true) :
    update known standing (u ++ cs) = u ++ update known standing cs :=
  update_blanks (fun c hc => isBlank_of_isGapBlank (hu c hc)) fun hmem => absurd (hu _ hmem) (by decide)

/-- Migration updates a bare piece on its own. -/
theorem update_run (hne : w ≠ []) (hw : ∀ c ∈ w, isBare c = true) (hslash : ¬ "//".toList <+: w)
    (hcs : ∀ c ∈ cs.head?, isBare c = false) :
    update known standing (w ++ cs) = standing.updated w ++ update known (standing.next known w) cs := by
  refine update_piece (newline_not_mem_of_isBare hw)
    (pieceCut?_bare hne hw fun c hc => hcs c (head?_of_head?_lineOf hc)) ?_
  rwa [← Bool.not_eq_true, List.isPrefixOf_iff_prefix]

theorem update_word (hne : w ≠ []) (hw : ∀ c ∈ w, isBare c = true) (hslash : '/' ∉ w)
    (hcs : ∀ c ∈ cs.head?, isBare c = false) :
    update known standing (w ++ cs) = standing.updated w ++ update known (standing.next known w) cs := by
  refine update_run hne hw ?_ hcs
  rintro ⟨v, rfl⟩
  exact hslash (by simp)

/-- Behind a semicolon a statement starts. -/
theorem update_semicolon : update known standing (';' :: cs) = ';' :: update known .name cs := by
  rw [← List.singleton_append, update_piece (by decide) pieceCut?_semicolon rfl]
  cases standing <;> rfl

theorem not_isGapBlank_of_not_isBlank (h : Text.isBlank c = false) : isGapBlank c = false := by
  rw [← Bool.not_eq_true]
  intro hc
  rw [isBlank_of_isGapBlank hc] at h
  cases h

/-- Pieces within a statement that goes on, on its line. -/
structure IsInner (us : List Piece) : Prop where
  separators : ∀ p ∈ us, p.terminal? ≠ some .separator
  newline : '\n' ∉ Piece.textOf us

theorem IsInner.append {vs : List Piece} (hu : IsInner us) (hv : IsInner vs) : IsInner (us ++ vs) := by
  refine ⟨List.forall_mem_append.mpr ⟨hu.separators, hv.separators⟩, ?_⟩
  rw [Piece.textOf_append, List.mem_append, not_or]
  exact ⟨hu.newline, hv.newline⟩

theorem isInner_gapOf (hu : ∀ c ∈ u, isGapBlank c = true) : IsInner (gapOf u) := by
  constructor
  · intro p hp
    rw [terminal?_of_mem_gapOf hp]
    simp
  · rw [textOf_gapOf]
    exact fun hmem => absurd (hu _ hmem) (by decide)

theorem ReadsAs.isInner {m : Meaning} (h : ReadsAs us m) : IsInner us :=
  ⟨h.separators, fun hmem => absurd (h.solid _ hmem) (by decide)⟩

/-! ## Behind a statement -/

/-- A text at the end of a statement, and the pieces that its update is read as. -/
structure Ends (known : Option Registry) (rest : List Char) (qs : List Piece) : Prop where
  bare : ∀ c ∈ rest.head?, isBare c = false
  update (standing : Standing) : update known standing rest = update known .name rest
  delimits : Delimits (Migration.update known .name rest)
  blank : ∀ c ∈ (Migration.update known .name rest).head?, isGapBlank c = false
  scanned {s : State} (hs : s.isFinal = true) : Scanned s (Migration.update known .name rest) qs

theorem ends_nil : Ends known [] [] where
  bare := by simp
  update standing := by rw [update_nil, update_nil]
  delimits := by simp [update_nil, Delimits]
  blank := by simp [update_nil]
  scanned hs := by
    rw [update_nil]
    exact .done hs

theorem ends_separator (hc : c = ';' ∨ c = '\n') (h : Scanned .statement (update known .name cs) qs) :
    Ends known (c :: cs) (⟨some .separator, [c]⟩ :: qs) := by
  have hupdate (standing : Standing) : update known standing (c :: cs) = c :: update known .name cs := by
    rcases hc with rfl | rfl
    · exact update_semicolon
    · exact update_newline
  constructor
  · rintro _ ⟨⟩
    rcases hc with rfl | rfl <;> decide
  · intro standing
    rw [hupdate, hupdate]
  · rw [hupdate]
    rintro _ ⟨⟩
    rcases hc with rfl | rfl <;> exact isLexical_mark (by decide)
  · rw [hupdate]
    rintro _ ⟨⟩
    rcases hc with rfl | rfl <;> decide
  · intro s hs
    rw [hupdate]
    have hcut : Terminal.separator.cut? [c] = some ([c], []) := by
      rcases hc with rfl | rfl <;> rfl
    exact .step (State.step?_closed rfl (State.next?_separator_of_isFinal hs) hcut (update known .name cs)) h

/-- No bare piece goes on behind a word. -/
theorem bare_behind (hx : ∀ c ∈ x.head?, isGapBlank c = true) (h : Ends known rest qs) :
    ∀ c ∈ (x ++ rest).head?, isBare c = false := by
  cases x with
  | nil => exact h.bare
  | cons c x =>
    rintro _ ⟨⟩
    rw [isBare, isBlank_of_isGapBlank (hx c rfl)]
    rfl

/-- A bare piece among arguments takes its current form, and the next one is counted. -/
theorem update_bare {usage? : Option UsageDefinition} {i : Nat} (hne : w ≠ []) (hw : ∀ c ∈ w, isBare c = true)
    (hslash : '/' ∉ w) (hcs : ∀ c ∈ cs.head?, isBare c = false) :
    update known (.argument usage? i) (w ++ cs) =
      currentForm (acceptsAt usage? i) w ++ update known (.argument usage? (i + 1)) cs := by
  have hsemi : w ≠ [';'] := by
    rintro rfl
    exact absurd (hw ';' List.mem_cons_self) (by decide)
  rw [update_word hne hw hslash hcs, Standing.updated, if_neg hsemi, Standing.next, if_neg hsemi]

/-- The name of a statement stays as it is, and its usage counts for the arguments. -/
theorem update_directive (hw : isName w = true) (hcs : ∀ c ∈ cs.head?, isBare c = false) :
    update known .name (w ++ cs) = w ++ update known (.argument (usageOf known (String.ofList w)) 0) cs := by
  have hlexical := isLexical_of_isBareWord (isBareWord_of_isName hw)
  have hslash : '/' ∉ w := fun hmem => absurd (hlexical _ hmem) (by decide +kernel)
  obtain ⟨c, v, rfl, hc, -⟩ := exists_of_isName hw
  have hsemi : c :: v ≠ [';'] := by
    rintro ⟨⟩
    cases hc
  have hhash : (c :: v).head? ≠ some '#' := by
    rintro ⟨⟩
    cases hc
  rw [update_word (List.cons_ne_nil c v) (fun c hc => isBare_of_isLexical (hlexical c hc)) hslash hcs, Standing.next,
    if_neg hsemi, afterName, if_neg hhash]
  rfl

/-- A written argument is updated to its current form, and the next one is counted. -/
theorem update_written {usage? : Option UsageDefinition} {i : Nat} (hu : ∀ c ∈ u, isGapBlank c = true)
    (hw : IsWritten (acceptsAt usage? i) w) (hx : ∀ c ∈ x.head?, isGapBlank c = true) (h : Ends known rest qs) :
    update known (.argument usage? i) (u ++ (w ++ x) ++ rest) =
      u ++ (currentForm (acceptsAt usage? i) w ++ update known (.argument usage? (i + 1)) (x ++ rest)) := by
  have hbare : ∀ c ∈ w, isBare c = true := by
    intro c hc
    by_cases hcomma : c = ','
    · rw [hcomma]
      decide
    · exact isBare_of_isLexical (hw.lexical c hc hcomma)
  have hslash : '/' ∉ w := fun hmem => absurd (hw.lexical _ hmem (by decide)) (by decide +kernel)
  rw [List.append_assoc, List.append_assoc, update_gap hu, update_bare hw.ne_nil hbare hslash (bare_behind hx h)]

theorem update_name (hu : ∀ c ∈ u, isGapBlank c = true) (hw : isName w = true)
    (hx : ∀ c ∈ x.head?, isGapBlank c = true) (h : Ends known rest qs) :
    update known .name (u ++ (w ++ x) ++ rest) =
      u ++ (w ++ update known (.argument (usageOf known (String.ofList w)) 0) (x ++ rest)) := by
  rw [List.append_assoc, List.append_assoc, update_gap hu, update_directive hw (bare_behind hx h)]

/-! ## Arguments -/

/-- The pieces that the arguments in `x` are read as, with their meanings. -/
structure Reads (known : Option Registry) (standing : Standing) (x : List Char) (us : List Piece)
    (ms : List Meaning) : Prop where
  inner : IsInner us
  scanned {rest : List Char} {qs : List Piece} (h : Ends known rest qs) (list : Option Terminal) :
    Scanned (.arguments list) (update known standing (x ++ rest)) (us ++ qs)
  delimits {rest : List Char} {qs : List Piece} (h : Ends known rest qs) : Delimits (update known standing (x ++ rest))
  head (place : Place) : ∀ l ∈ (locate place us).head?, l.terminal ≠ .comma
  arguments (source : String) (place : Place) :
    ∃ ts, (argumentsOf (locate place us)).mapM (Argument.token source) = .ok ts ∧ ts.map Token.meaning = ms

theorem reads_blanks (hu : ∀ c ∈ u, isGapBlank c = true) : Reads known standing u (gapOf u) [] := by
  have hlocate (place : Place) : locate place (gapOf u) = [] := by
    rw [← List.append_nil (gapOf u), locate_gapOf]
    rfl
  refine ⟨isInner_gapOf hu, ?_, ?_, ?_, ?_⟩
  · intro rest qs h list
    rw [update_gap hu, h.update]
    exact scanned_gapOf hu h.blank (h.scanned rfl)
  · intro rest qs h
    rw [update_gap hu, h.update]
    cases u with
    | nil => exact h.delimits
    | cons c u =>
      rw [List.forall_mem_cons] at hu
      rintro _ ⟨⟩
      exact not_isLexical_of_isGapBlank hu.1
  · simp [hlocate]
  · intro source place
    rw [hlocate, argumentsOf_nil]
    exact ⟨[], rfl, rfl⟩

/-- One more word in front. -/
theorem Reads.word {usage? : Option UsageDefinition} {i : Nat} {ms : List Meaning} (hu : ∀ c ∈ u, isGapBlank c = true)
    (hne : u ≠ []) (hw : IsWritten (acceptsAt usage? i) w) (hx : ∀ c ∈ x.head?, isGapBlank c = true)
    (h : Reads known (.argument usage? (i + 1)) x us ms) :
    ∃ vs, Reads known (.argument usage? i) (u ++ (w ++ x)) vs (meaningOf (acceptsAt usage? i) w :: ms) := by
  obtain ⟨ps, htext, hps⟩ := exists_readsAs hw
  refine ⟨gapOf u ++ (ps ++ us), (isInner_gapOf hu).append (hps.isInner.append h.inner), ?_, ?_, ?_, ?_⟩
  · intro rest qs hrest list
    rw [update_written hu hw hx hrest, ← htext, List.append_assoc, List.append_assoc]
    refine scanned_gapOf hu ?_ (hps.scanned (h.delimits hrest) (h.scanned hrest) list)
    obtain ⟨c, v, hv⟩ := List.exists_cons_of_ne_nil hps.ne_nil
    have hsolid := hps.solid
    rw [hv] at hsolid ⊢
    rintro _ ⟨⟩
    exact not_isGapBlank_of_not_isBlank (hsolid c List.mem_cons_self)
  · intro rest qs hrest
    rw [update_written hu hw hx hrest]
    obtain ⟨c, u, rfl⟩ := List.exists_cons_of_ne_nil hne
    rw [List.forall_mem_cons] at hu
    rintro _ ⟨⟩
    exact not_isLexical_of_isGapBlank hu.1
  · intro place
    rw [locate_gapOf, locate_append]
    exact hps.head _ _
  · intro source place
    rw [locate_gapOf, locate_append]
    obtain ⟨arg, t, hargs, ht, hm⟩ := hps.argument source (place.after u) (h.head _)
    obtain ⟨ts, hts, hms⟩ := h.arguments source ((place.after u).after (Piece.textOf ps))
    rw [hargs]
    exact ⟨t :: ts, Argument.mapM_token_cons.mpr ⟨t, ts, ht, hts, rfl⟩, by rw [List.map_cons, hm, hms]⟩

/-- The arguments that words make up are read with their meanings. -/
theorem exists_reads (usage? : Option UsageDefinition) (x : List Char) : (∀ c ∈ x.head?, isGapBlank c = true) →
    ∀ i, (∀ arg ∈ (wordsOf x).zipIdx i, IsWritten (acceptsAt usage? arg.2) arg.1) →
      ∃ us, Reads known (.argument usage? i) x us
        (((wordsOf x).zipIdx i).map fun arg => meaningOf (acceptsAt usage? arg.2) arg.1) := by
  induction x using words_induction with
  | blanks u hu =>
    intro _ i _
    rw [wordsOf_eq_nil hu]
    exact ⟨_, reads_blanks hu⟩
  | word u w x hu hne hw hx ih =>
    intro hhead i hwritten
    have hune : u ≠ [] := by
      rintro rfl
      obtain ⟨c, w, rfl⟩ := List.exists_cons_of_ne_nil hne
      have hblank := hhead c rfl
      rw [hw c List.mem_cons_self] at hblank
      cases hblank
    rw [wordsOf_blanks hu, wordsOf_word hne hw hx, List.zipIdx_cons] at hwritten ⊢
    rw [List.forall_mem_cons] at hwritten
    obtain ⟨us, hus⟩ := ih hx (i + 1) hwritten.2
    exact hus.word hu hune hwritten.1 hx

/-! ## Statements -/

/-- The statement that is read as what is written. -/
inductive Denotes (known : Option Registry) (source : String) (st : Written) : Statement → Prop
  | directive {name : Lexeme} {args : List Argument} {ts : List Token} (hname : name.text = String.ofList st.name)
      (hline : name.start.line = st.line) (hts : args.mapM (Argument.token source) = .ok ts)
      (hms : ts.map Token.meaning = st.meanings known) : Denotes known source st (.directive name args)

/-- The pieces that a stretch is read as, which starts on the line `n`, with the statement in them. -/
structure Opens (known : Option Registry) (n : Nat) (u : List Char) (us : List Piece) : Prop where
  inner : IsInner us
  scanned {rest : List Char} {qs : List Piece} (h : Ends known rest qs) :
    Scanned .statement (update known .name (u ++ rest)) (us ++ qs)
  statement (source : String) (place : Place) (hline : place.line = n) :
    List.Forall₂ (Denotes known source) (Written.ofWords? n (wordsOf u)).toList
      (Statement.ofLexemes? (locate place us)).toList

/-- A name with arguments behind it is a statement. -/
theorem Reads.opens (hu : ∀ c ∈ u, isGapBlank c = true) (hw : isName w = true) (hx : ∀ c ∈ x.head?, isGapBlank c = true)
    (h : Reads known (.argument (usageOf known (String.ofList w)) 0) x us
      (Written.meanings known ⟨w, wordsOf x, n⟩)) :
    Opens known n (u ++ (w ++ x)) (gapOf u ++ (⟨some .name, w⟩ :: us)) := by
  have hlexical := isLexical_of_isBareWord (isBareWord_of_isName hw)
  have hblank : ∀ c ∈ w, isGapBlank c = false :=
    fun c hc => not_isGapBlank_of_not_isBlank (not_isBlank_of_isLexical (hlexical c hc))
  have hinner : IsInner (⟨some .name, w⟩ :: us) := (readsAs_name hw).isInner.append h.inner
  obtain ⟨c, v, rfl, -⟩ := exists_of_isName hw
  refine ⟨(isInner_gapOf hu).append hinner, ?_, ?_⟩
  · intro rest qs hrest
    rw [update_name hu hw hx hrest, List.append_assoc]
    refine scanned_gapOf hu ?_ (.step (State.step?_name (nameCut?_of_isName hw (h.delimits hrest))) (h.scanned hrest none))
    rintro _ ⟨⟩
    exact hblank c List.mem_cons_self
  · intro source place hline
    obtain ⟨ts, hts, hms⟩ := h.arguments source ((place.after u).after (c :: v))
    have hnewline : '\n' ∉ u := fun hmem => absurd (hu _ hmem) (by decide)
    have hstart : (place.after u).line = n := by
      rw [Place.after_line, hline, List.count_eq_zero.mpr hnewline, Nat.add_zero]
    rw [wordsOf_blanks hu, wordsOf_word (List.cons_ne_nil c v) hblank hx, locate_gapOf]
    exact .cons (.directive rfl hstart hts hms) .nil

theorem exists_opens (hplain : ∀ st ∈ Written.ofWords? n (wordsOf u), st.IsPlain known) :
    ∃ us, Opens known n u us := by
  induction u using words_induction with
  | blanks u hu =>
    refine ⟨gapOf u, isInner_gapOf hu, ?_, ?_⟩
    · intro rest qs h
      rw [update_gap hu]
      exact scanned_gapOf hu h.blank (h.scanned rfl)
    · intro source place _
      rw [wordsOf_eq_nil hu, ← List.append_nil (gapOf u), locate_gapOf]
      exact .nil
  | word u w x hu hne hw hx _ =>
    rw [wordsOf_blanks hu, wordsOf_word hne hw hx, Written.ofWords?] at hplain
    obtain ⟨hname, hargs⟩ := hplain _ rfl
    obtain ⟨us, hus⟩ := exists_reads (usageOf known (String.ofList w)) x hx 0 hargs
    exact ⟨_, Reads.opens hu hname hx hus⟩

/-! ## Recipes -/

/-- A recipe of plain statements is read as them after migration. -/
theorem exists_scanned (hplain : ∀ st ∈ writtenFrom n cs, st.IsPlain known) :
    ∃ ps, Scanned .statement (update known .name cs) ps ∧ ∀ (source : String) (place : Place), place.line = n →
      List.Forall₂ (Denotes known source) (writtenFrom n cs) (ofLexemes (locate place ps)).statements := by
  induction cs using stretch_induction generalizing n with
  | last u hu =>
    rw [writtenFrom_stretch hu] at hplain ⊢
    obtain ⟨us, hus⟩ := exists_opens fun st hst => hplain st (Option.mem_toList.mpr hst)
    have hscanned := hus.scanned ends_nil
    rw [List.append_nil, List.append_nil] at hscanned
    refine ⟨us, hscanned, ?_⟩
    intro source place hline
    rw [statements_of_stretch hus.inner.separators]
    exact hus.statement source place hline
  | more u c rest hu hc ih =>
    obtain ⟨m, hwritten, hm⟩ := writtenFrom_separator n hu hc rest
    rw [hwritten] at hplain ⊢
    rw [List.forall_mem_append] at hplain
    obtain ⟨us, hus⟩ := exists_opens fun st hst => hplain.1 st (Option.mem_toList.mpr hst)
    obtain ⟨ps, hps, hstatements⟩ := ih hplain.2
    refine ⟨us ++ ⟨some .separator, [c]⟩ :: ps, hus.scanned (ends_separator hc hps), ?_⟩
    intro source place hline
    have hmore : ((place.after (Piece.textOf us)).after [c]).line = m := by
      rw [Place.after_line, Place.after_line, List.count_eq_zero.mpr hus.inner.newline, hline, hm, Nat.add_zero]
    have hlocate : locate place (us ++ ⟨some .separator, [c]⟩ :: ps) = locate place us ++
        ⟨.separator, String.ofList [c], place.after (Piece.textOf us)⟩ ::
          locate ((place.after (Piece.textOf us)).after [c]) ps := by
      rw [locate_append]
      rfl
    rw [hlocate, Recipe.statements_append _ _ rfl, statements_of_stretch hus.inner.separators]
    exact List.rel_append (hus.statement source place hline) (hstatements source _ hmore)

/-! ## Characters -/

/-- Every character that is no blank stands in a word. -/
theorem exists_mem_wordsOf (hc : c ∈ u) (hblank : isGapBlank c = false) : ∃ w ∈ wordsOf u, c ∈ w := by
  obtain ⟨w, hw, hmem⟩ := exists_mem_splitOnP hc hblank
  have hne : w ≠ [] := List.ne_nil_of_mem hmem
  exact ⟨w, List.mem_filter.mpr ⟨hw, by simpa using hne⟩, hmem⟩

/-- The characters of plain statements are lexical, but for blanks and marks that separate. -/
theorem isLexical_of_mem (hplain : ∀ st ∈ writtenFrom n cs, st.IsPlain known) (hc : c ∈ cs)
    (hmark : c ∉ [' ', '\t', '\x0c', '\r', '\n', ';', ',']) : isLexical c = true := by
  have hblank : isGapBlank c = false := by
    rw [← Bool.not_eq_true, isGapBlank_iff]
    simp only [List.mem_cons, not_or] at hmark ⊢
    tauto
  -- in a stretch the character stands in the name or in an argument
  have stretch {n : Nat} {u : List Char} (hu : ∀ st ∈ (Written.ofWords? n (wordsOf u)).toList, st.IsPlain known)
      (hc : c ∈ u) : isLexical c = true := by
    obtain ⟨w, hw, hmem⟩ := exists_mem_wordsOf hc hblank
    cases hwords : wordsOf u with
    | nil =>
      rw [hwords] at hw
      cases hw
    | cons name args =>
      rw [hwords] at hu hw
      obtain ⟨hname, hargs⟩ := hu ⟨name, args, n⟩ (by simp [Written.ofWords?])
      rcases List.mem_cons.mp hw with rfl | hw
      · exact isLexical_of_isBareWord (isBareWord_of_isName hname) c hmem
      · obtain ⟨i, hi⟩ := List.mem_iff_getElem?.mp hw
        have hwritten := hargs (w, i) (List.mk_mem_zipIdx_iff_getElem?.mpr hi)
        refine hwritten.lexical c hmem ?_
        rintro rfl
        exact hmark (by simp)
  induction cs using stretch_induction generalizing n with
  | last u hu =>
    rw [writtenFrom_stretch hu] at hplain
    exact stretch hplain hc
  | more u d rest hu hd ih =>
    have hne : c ≠ d := by
      rintro rfl
      exact hmark (by rcases hd with rfl | rfl <;> simp)
    obtain ⟨m, hwritten, -⟩ := writtenFrom_separator n hu hd rest
    rw [hwritten, List.forall_mem_append] at hplain
    rcases List.mem_append.mp hc with hc | hc
    · exact stretch hplain.1 hc
    · exact ih hplain.2 ((List.mem_cons.mp hc).resolve_left hne)

end RowRecipe.Migration
