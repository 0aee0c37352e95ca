import RowRecipe.Proofs.Migration.Insertion
import RowRecipe.Proofs.Script.Spelling

/-!
# The version that a script declares

Versions are looked for in the text of a recipe, and a script declares them by statements. The two agree where no
comment and no quoted text holds the start of a version pragma, and where the pragmas of the script are spelled in
the way that is looked for: with blanks between their words, and with the digits from `0` to `9`.
-/

namespace RowRecipe.Script

open Grammar

variable {cs : List Char} {ps : List Piece} {ls : List Lexeme}

/-- The version that a statement declares. -/
def Statement.version? : Statement → Option String
  | version number => some number.text
  | _ => none

/-- The version of the first statement that declares one. -/
def version? (script : Script) : Option String :=
  script.statements.findSome? Statement.version?

/-! ## The first version among lexemes -/

/-- The first lexeme of a kind is the first one among the statements, if it is no separator. -/
theorem findSome?_splitOnP {f : Lexeme → Bool} (hf : ∀ l, f l = true → (l.terminal == .separator) = false)
    (ls : List Lexeme) :
    (ls.splitOnP (·.terminal == .separator)).findSome? (List.find? f) = ls.find? f := by
  induction ls with
  | nil => rfl
  | cons l ls ih =>
    rw [List.splitOnP_cons_eq_if_modifyHead]
    obtain ⟨first, more, hsplit⟩ := List.exists_cons_of_ne_nil (List.splitOnP_ne_nil (·.terminal == .separator) ls)
    rw [hsplit] at ih ⊢
    split
    next hl =>
      have hnot : f l = false := by
        rw [← Bool.not_eq_true]
        intro hfl
        rw [hf l hfl] at hl
        cases hl
      rw [List.findSome?_cons, List.find?_nil, ih, List.find?_cons, hnot]
    next =>
      rw [List.modifyHead_cons, List.findSome?_cons, List.find?_cons, List.find?_cons, ← ih, List.findSome?_cons]
      cases f l <;> rfl

theorem find?_locate (t : Terminal) (place : Place) (ps : List Piece) :
    ((locate place ps).find? (·.terminal == t)).map (·.text) =
      (ps.find? (·.terminal? == some t)).map fun p => String.ofList p.text := by
  induction ps generalizing place with
  | nil => rfl
  | cons p ps ih =>
    rw [locate, List.find?_append, List.find?_cons]
    cases hp : p.terminal? with
    | none => simp [ih]
    | some u =>
      by_cases hu : u = t
      · subst hu
        simp
      · have hother : (u == t) = false := beq_false_of_ne hu
        simp [hother, ih]

/-- Only pragmas hold versions, and the first one in it is that of the pragma. -/
theorem version?_ofLexemes? (h : ls = [] ∨ Opened ls) :
    (Statement.ofLexemes? ls).bind Statement.version? = (ls.find? (·.terminal == .version)).map (·.text) := by
  rcases h with rfl | ⟨place, w, ps, rfl, -, -⟩ | ⟨place, w, ps, rfl, hscanned, hsep⟩
  · rfl
  · have hlocate : locate place (⟨some .pragmaWord, w⟩ :: ps) =
        ⟨.pragmaWord, String.ofList w, place⟩ :: locate (place.after w) ps := rfl
    rw [hlocate, Statement.ofLexemes?, if_pos rfl, List.find?_cons]
    cases (locate (place.after w) ps).find? (·.terminal == .version) <;> rfl
  · have hnone : (locate (place.after w) ps).find? (·.terminal == .version) = none := by
      rw [List.find?_eq_none]
      intro l hl hterminal
      obtain ⟨p, hp, ht⟩ := terminal_of_mem_locate hl
      obtain ⟨s, hs, hnext⟩ := hscanned.exists_region State.next?_inDirective rfl hsep p hp _ ht
      rw [beq_iff_eq.mp hterminal] at hnext
      cases s with
      | item kind => cases kind <;> first | cases hs; done | cases hnext
      | _ => first | cases hs; done | cases hnext
    have hlocate : locate place (⟨some .name, w⟩ :: ps) =
        ⟨.name, String.ofList w, place⟩ :: locate (place.after w) ps := rfl
    rw [hlocate, List.find?_cons, hnone]
    rfl

theorem findSome?_version? {parts : List (List Lexeme)} (h : ∀ part ∈ parts, part = [] ∨ Opened part) :
    (parts.filterMap Statement.ofLexemes?).findSome? Statement.version? =
      (parts.findSome? (List.find? (·.terminal == .version))).map (·.text) := by
  induction parts with
  | nil => rfl
  | cons part parts ih =>
    rw [List.forall_mem_cons] at h
    have hfirst := version?_ofLexemes? h.1
    rw [List.filterMap_cons, List.findSome?_cons]
    cases hfind : part.find? (·.terminal == .version) with
    | none =>
      rw [hfind] at hfirst
      cases hst : Statement.ofLexemes? part with
      | none => exact ih h.2
      | some st =>
        rw [hst] at hfirst
        rw [List.findSome?_cons, show st.version? = none from hfirst]
        exact ih h.2
    | some l =>
      rw [hfind] at hfirst
      obtain ⟨st, hst, hversion⟩ := Option.bind_eq_some_iff.mp hfirst
      rw [hst, List.findSome?_cons, hversion]
      rfl

/-- The version of a script is the first one among the pieces of its text. -/
theorem version?_ofLexemes (h : Scanned .statement cs ps) (place : Place) :
    (ofLexemes (locate place ps)).version? =
      (ps.find? (·.terminal? == some .version)).map fun p => String.ofList p.text := by
  have hseparator : ∀ l : Lexeme, (l.terminal == .version) = true → (l.terminal == .separator) = false := by
    intro l hl
    rw [beq_iff_eq.mp hl]
    rfl
  rw [← find?_locate, ← findSome?_splitOnP hseparator]
  exact findSome?_version? fun part => opened_of_mem_splitOnP h

end RowRecipe.Script

namespace RowRecipe.Dialect

open Grammar Migration Script

variable {s : State} {cs u v w rest : List Char} {p : Piece} {ps : List Piece}

/-! ## The first version in a text -/

/-- Whether a version pragma starts within `w`, where `rest` stands behind `w`. -/
def startsWithin (rest : List Char) : List Char → Bool
  | [] => false
  | c :: w => (pragmaCut? (c :: (w ++ rest))).isSome || startsWithin rest w

theorem versionIn?_append (h : startsWithin rest w = false) : versionIn? (w ++ rest) = versionIn? rest := by
  induction w with
  | nil => rfl
  | cons c w ih =>
    rw [startsWithin, Bool.or_eq_false_iff] at h
    rw [List.cons_append, versionIn?, Option.isSome_eq_false_iff.mp h.1 |> Option.isNone_iff_eq_none.mp]
    exact ih h.2

/-- A version pragma starts with a number sign. -/
theorem startsWithin_eq_false (h : '#' ∉ w) : startsWithin rest w = false := by
  induction w with
  | nil => rfl
  | cons c w ih =>
    rw [List.mem_cons, not_or] at h
    rw [startsWithin, ih h.2, pragmaCut?_eq_none (Ne.symm h.1)]
    rfl

/-- A pragma that declares names is no version pragma. -/
theorem startsWithin_load (hu : ∀ c ∈ u, Text.isBlank c = true) :
    startsWithin rest ("#pragma".toList ++ (u ++ "load-directives".toList)) = false := by
  have hmore : '#' ∉ "pragma".toList ++ (u ++ "load-directives".toList) := by
    have hblank : '#' ∉ u := fun hmem => absurd (hu '#' hmem) (by decide)
    simp [hblank]
  change startsWithin rest ('#' :: ("pragma".toList ++ (u ++ "load-directives".toList))) = false
  rw [startsWithin, startsWithin_eq_false hmore, Bool.or_false, ← Bool.not_eq_true, pragmaCut?_isSome]
  rintro ⟨u', v', d, rest', hu', -, -, -, -, hcs⟩
  have hcs : u ++ ("load-directives".toList ++ rest) = u' ++ ("version".toList ++ (v' ++ d :: rest')) := by
    simpa using hcs
  have hdrop := congrArg (List.dropWhile Text.isBlank) hcs
  rw [dropWhile_append_of_head (by rintro _ ⟨⟩; decide), dropWhile_append_of_head (by rintro _ ⟨⟩; decide),
    List.dropWhile_eq_nil_iff.mpr hu, List.dropWhile_eq_nil_iff.mpr hu'] at hdrop
  cases hdrop

/-- A version pragma with blanks between its words and plain digits declares the version as it is written. -/
theorem versionIn?_written (hu : ∀ c ∈ u, Text.isBlank c = true) (hune : u ≠ [])
    (hv : ∀ c ∈ v, Text.isBlank c = true) (hvne : v ≠ []) {d : Char} (hd : d.isDigit = true)
    (hw : ∀ c ∈ w, c.isDigit = true ∨ c = '.') (hrest : ∀ c ∈ rest.head?, (c.isDigit || c == '.') = false) :
    versionIn? ("#pragma".toList ++ (u ++ ("version".toList ++ (v ++ d :: (w ++ rest))))) =
      some (String.ofList (d :: w)) := by
  have hrun : runCut? (·.isDigit) (fun c => c.isDigit || c == '.') (d :: (w ++ rest)) = some (d :: w, rest) := by
    have hw : ∀ c ∈ w, (c.isDigit || c == '.') = true := by simpa using hw
    rw [runCut?, if_pos hd, takeWhile_append_of_head hrest, dropWhile_append_of_head hrest,
      List.takeWhile_eq_self_iff.mpr hw, List.dropWhile_eq_nil_iff.mpr hw, List.nil_append]
  have hcut := (pragmaCut?_written hu hune hv hvne hd).trans hrun
  change versionIn? ('#' :: ("pragma".toList ++ _)) = _
  change pragmaCut? ('#' :: ("pragma".toList ++ _)) = _ at hcut
  rw [versionIn?, hcut]

/-! ## The first version among pieces -/

/-- Whether the version pragmas among pieces are spelled as they are looked for, and start nowhere else. The flag says
whether a gap stands in front of the pieces. -/
def arePlain : Bool → List Piece → Bool
  | _, [] => true
  | gap, p :: ps =>
    (match p.terminal? with
      | none | some .text => !startsWithin (Piece.textOf ps) p.text
      | some .versionWord => gap
      | some .version => gap && p.text.all fun c => c.isDigit || c == '.'
      | _ => true) && arePlain p.terminal?.isNone ps

/-- Whether the version pragmas of a recipe are spelled as they are looked for, and start nowhere else. -/
def isPlain (text : String) : Bool :=
  match scan .statement text.toList with
  | .ok ps => arePlain false ps
  | .error _ => false

/-- Only the word of a pragma, texts and comments hold number signs. -/
theorem number_sign_not_mem {t : Terminal} (h : t.cut? cs = some (w, rest)) (htext : t ≠ .text)
    (hpragma : t ≠ .pragmaWord) : '#' ∉ w := by
  by_cases hopen : t = .opening
  · subst hopen
    obtain ⟨u, v, hu, hv, hw, -⟩ := openingCut?_eq_some.mp h
    have hblank {u : List Char} (hu : ∀ c ∈ u, Text.isBlank c = true) : '#' ∉ u :=
      fun hmem => absurd (hu '#' hmem) (by decide)
    rw [show w = _ from hw]
    simp [hblank hu, hblank hv]
  · refine Terminal.not_mem_of_cut? htext hopen h (isLexical_mark (by decide)) ?_
    cases t <;> first | rfl | exact absurd rfl hpragma

/-- A comment goes on to a line end or to the end of the text. So where no statement may end, a gap is a run of
blanks. -/
theorem isBlank_of_gapCut? (hgap : gapCut? cs = some (w, rest)) (h : Scanned s rest ps) (hs : s.isFinal = false)
    (hsep : s.next? .separator = none) : ∀ c ∈ w, Text.isBlank c = true := by
  rcases gapCut?_cases hgap with ⟨ds, -, -, hline⟩ | ⟨d, ds, hd, -, hw, -⟩
  · exfalso
    have hhead : ∀ c ∈ rest.head?, (c != '\n') = false := by
      rw [show rest = _ from hline]
      exact head?_dropWhile ds
    cases h with
    | done hf =>
      rw [hs] at hf
      cases hf
    | step hstep _ =>
      cases rest with
      | nil =>
        rw [State.step?_nil] at hstep
        cases hstep
      | cons d ds =>
        obtain rfl : d = '\n' := by simpa using hhead d rfl
        rcases State.step?_cases hstep with ⟨t, -, hnext, hcut⟩ | ⟨-, -, hgap, -⟩
        · obtain rfl := Terminal.eq_of_starts (t := .separator) rfl rfl (Terminal.starts_of_cut? hcut)
          rw [hsep] at hnext
          cases hnext
        · cases hgap
  · obtain rfl : w = d :: ds.takeWhile isGapBlank := hw
    rw [List.forall_mem_cons]
    exact ⟨isBlank_of_isGapBlank hd, fun c hc => isBlank_of_isGapBlank (List.mem_takeWhile_imp hc)⟩

theorem isBlank_of_gaps {gs qs : List Piece} (h : Scanned s cs (gs ++ qs)) (hgs : ∀ g ∈ gs, g.terminal? = none)
    (hs : s.isFinal = false) (hsep : s.next? .separator = none) : ∀ c ∈ Piece.textOf gs, Text.isBlank c = true := by
  induction gs generalizing cs with
  | nil => simp [Piece.textOf]
  | cons g gs ih =>
    rw [List.forall_mem_cons] at hgs
    rw [List.cons_append] at h
    obtain ⟨hafter, hgap⟩ := h.uncons.gap hgs.1
    have hrest := h.uncons.rest
    rw [hafter] at hrest
    rw [Piece.textOf_cons, List.forall_mem_append]
    exact ⟨isBlank_of_gapCut? hgap hrest hs hsep, ih hrest hgs.2⟩

/-- Gaps hold text, if there are any. -/
theorem textOf_ne_nil {gs qs : List Piece} (h : Scanned s cs (gs ++ qs)) (hgs : gs ≠ []) : Piece.textOf gs ≠ [] := by
  obtain ⟨g, gs, rfl⟩ := List.exists_cons_of_ne_nil hgs
  rw [Piece.textOf_cons]
  exact List.append_ne_nil_of_left_ne_nil h.uncons.ne_nil _

theorem find?_gaps {gs qs : List Piece} (hgs : ∀ g ∈ gs, g.terminal? = none) :
    (gs ++ qs).find? (·.terminal? == some .version) = qs.find? (·.terminal? == some .version) := by
  have hnone : gs.find? (·.terminal? == some .version) = none := by
    rw [List.find?_eq_none]
    intro g hg
    simp [hgs g hg]
  rw [List.find?_append, hnone, Option.none_or]

theorem arePlain_of_gaps {gs qs : List Piece} {gap : Bool} (hgs : ∀ g ∈ gs, g.terminal? = none)
    (h : arePlain gap (gs ++ qs) = true) : arePlain (gap || !gs.isEmpty) qs = true := by
  induction gs generalizing gap with
  | nil => simpa using h
  | cons g gs ih =>
    rw [List.forall_mem_cons] at hgs
    rw [List.cons_append, arePlain, hgs.1, Bool.and_eq_true] at h
    simpa using ih hgs.2 h.2

/-- A version goes on as long as it can. -/
theorem not_digit_or_point (h : Scanned .versionEnd cs ps) : ∀ c ∈ cs.head?, (c.isDigit || c == '.') = false := by
  intro c hc
  have hpoint := h.head_ne_point c hc
  obtain ⟨ds, rfl⟩ := List.head?_eq_some_iff.mp hc
  rw [Bool.or_eq_false_iff, beq_eq_false_iff_ne, ← Bool.not_eq_true]
  refine ⟨fun hd => ?_, hpoint⟩
  have hword : Text.isWordChar c = true := by
    rw [Text.isWordChar, Text.isAlphanumeric_of_decimal hd, Bool.or_true]
  obtain ⟨t, hnext, hstart⟩ := h.exists_starts hword
  cases t with
  | separator =>
    rw [Terminal.starts, Bool.or_eq_true, beq_iff_eq, beq_iff_eq] at hstart
    rcases hstart with rfl | rfl <;> cases hd
  | _ => cases hnext

/-- What is found behind the word of a pragma: the version that is read there, or what is found behind the names that
it declares. -/
theorem versionIn?_pragma (h : Scanned .pragma (Piece.textOf ps) ps) (hplain : arePlain false ps = true) :
    versionIn? ("#pragma".toList ++ Piece.textOf ps) =
        (ps.find? (·.terminal? == some .version)).map (fun p => String.ofList p.text) ∨
      ∃ us vs, ps = us ++ vs ∧ us ≠ [] ∧ Scanned .loadName (Piece.textOf vs) vs ∧ arePlain false vs = true ∧
        versionIn? ("#pragma".toList ++ Piece.textOf ps) = versionIn? (Piece.textOf vs) ∧
        ps.find? (·.terminal? == some .version) = vs.find? (·.terminal? == some .version) := by
  obtain ⟨gs, t, w, ps', s', rfl, hgs, hnext, hrest⟩ := exists_terminal h rfl
  have hblank := isBlank_of_gaps h hgs rfl rfl
  have hplain' := arePlain_of_gaps hgs hplain
  have hcut := h.suffix.uncons.reads.2
  cases t with
  | loadWord =>
    cases hnext
    obtain rfl : w = "load-directives".toList := (wordCut?_eq_some.mp hcut).1
    rw [arePlain, Bool.true_and] at hplain'
    refine .inr ⟨gs ++ [⟨some .loadWord, "load-directives".toList⟩], ps', by simp, by simp, hrest, hplain', ?_, ?_⟩
    · have hstart : startsWithin (Piece.textOf ps')
          ("#pragma".toList ++ (Piece.textOf gs ++ "load-directives".toList)) = false := startsWithin_load hblank
      rw [← versionIn?_append hstart, Piece.textOf_append,
        Piece.textOf_cons, List.append_assoc, List.append_assoc]
    · rw [find?_gaps hgs]
      rfl
  | versionWord =>
    cases hnext
    obtain rfl : w = "version".toList := (wordCut?_eq_some.mp hcut).1
    obtain ⟨gs', t, n, qs, s', rfl, hgs', hnext, hend⟩ := exists_terminal hrest rfl
    have hblank' := isBlank_of_gaps hrest hgs' rfl rfl
    have hcut := hrest.suffix.uncons.reads.2
    cases t with
    | version =>
      cases hnext
      rw [arePlain, Bool.and_eq_true] at hplain'
      have hplain'' := arePlain_of_gaps hgs' hplain'.2
      simp only [arePlain, Bool.and_eq_true, Bool.false_or, Bool.not_eq_true', List.isEmpty_eq_false_iff,
        Option.isNone_some, List.all_eq_true, Bool.or_eq_true, beq_iff_eq] at hplain' hplain''
      obtain ⟨⟨hgap', hdigits⟩, -⟩ := hplain''
      obtain ⟨d, m, rfl⟩ := List.exists_cons_of_ne_nil (Terminal.cut?_of hcut).1
      rw [List.forall_mem_cons] at hdigits
      have hd : d.isDigit = true := by
        rcases hdigits.1 with hd | rfl
        · exact hd
        · cases Terminal.starts_of_cut? hcut
      have hfirst : (gs ++ ⟨some .versionWord, "version".toList⟩ :: (gs' ++ ⟨some .version, d :: m⟩ :: qs)).find?
          (·.terminal? == some .version) = some ⟨some .version, d :: m⟩ := by
        rw [find?_gaps hgs, List.find?_cons_of_neg (by simp), find?_gaps hgs', List.find?_cons_of_pos (by simp)]
      have hwritten := versionIn?_written hblank (textOf_ne_nil h hplain'.1) hblank' (textOf_ne_nil hrest hgap') hd
        hdigits.2 (not_digit_or_point hend)
      refine .inl ?_
      rw [hfirst, Option.map_some, ← hwritten]
      simp [Piece.textOf_append, Piece.textOf_cons]
    | _ => cases hnext
  | _ => cases hnext

/-- Outside of a pragma, the first version that is found in a text is the first one that is read in it. -/
theorem versionIn?_eq_find? {gap : Bool} (h : Scanned s cs ps) (hs : s.isRegular = true) (hpragma : s ≠ .pragma)
    (hversion : s ≠ .version) (hplain : arePlain gap ps = true) :
    versionIn? cs = (ps.find? (·.terminal? == some .version)).map fun p => String.ofList p.text := by
  induction hn : ps.length using Nat.strong_induction_on generalizing s cs gap ps with
  | _ n ih =>
    subst hn
    cases ps with
    | nil =>
      cases h
      rfl
    | cons p ps =>
      have hu := h.uncons
      obtain ⟨t?, w⟩ := p
      rw [hu.text]
      rw [arePlain, Bool.and_eq_true] at hplain
      cases t? with
      | none =>
        have hafter : s.after ⟨none, w⟩ = s := rfl
        have hrest := hu.rest
        rw [hafter] at hrest
        rw [versionIn?_append (by simpa using hplain.1), List.find?_cons_of_neg (by simp)]
        exact ih ps.length (Nat.lt_succ_self _) hrest hs hpragma hversion hplain.2 rfl
      | some t =>
        obtain ⟨hnext, hcut⟩ := hu.reads
        have hregular := State.next?_isRegular hs hnext
        by_cases hword : t = .pragmaWord
        · subst hword
          obtain rfl : s = .statement := by
            cases s with
            | statement => rfl
            | item kind => cases kind <;> first | cases hs; done | cases hnext
            | _ => cases hnext
          obtain rfl : w = "#pragma".toList := (wordCut?_eq_some.mp hcut).1
          rw [List.find?_cons_of_neg (by simp)]
          rcases versionIn?_pragma hu.rest hplain.2 with hfound | ⟨us, vs, rfl, hne, hrest, hplain', hfound, hfind⟩
          · exact hfound
          · have hlength : vs.length < (⟨some .pragmaWord, "#pragma".toList⟩ :: (us ++ vs)).length := by
              rw [List.length_cons, List.length_append]
              omega
            rw [hfound, hfind]
            exact ih vs.length hlength hrest rfl (by simp) (by simp) hplain' rfl
        · have hskip : startsWithin (Piece.textOf ps) w = false := by
            by_cases htext : t = .text
            · subst htext
              simpa using hplain.1
            · exact startsWithin_eq_false (number_sign_not_mem hcut htext hword)
          have hstate := State.next?_outside hs hpragma hversion hnext hword
          rw [versionIn?_append hskip, List.find?_cons_of_neg (by simpa using hstate.1)]
          exact ih ps.length (Nat.lt_succ_self _) hu.rest hregular hstate.2.1 hstate.2.2 hplain.2 rfl

/-! ## The declared version -/

/-- The version that is found in the text of a script is the one that its first version pragma declares, and there is
none exactly if the script has no version pragma. So the dialect of a recipe is decided by its own pragmas. -/
theorem declared?_eq_version? {text : String} {script : Script} (h : Script.read text = .ok script)
    (hplain : isPlain text = true) :
    declared? text = script.version? ∧
      (declared? text = none ↔ ∀ number, Statement.version number ∉ script.statements) := by
  obtain ⟨ps, hps, rfl⟩ := read_eq_ok.mp h
  rw [isPlain, scan_eq_ok_iff.mpr hps] at hplain
  have hversion : declared? text = (ofLexemes (locate .origin ps)).version? := by
    rw [version?_ofLexemes hps, declared?]
    exact versionIn?_eq_find? hps rfl (by simp) (by simp) hplain
  refine ⟨hversion, ?_⟩
  rw [hversion, Script.version?, List.findSome?_eq_none_iff]
  constructor
  · intro hnone number hmem
    cases hnone _ hmem
  · intro hnone st hst
    cases st with
    | version number => exact absurd hst (hnone number)
    | load => rfl
    | directive => rfl

/-- A recipe with a comment, a text and two versions. -/
def redeclared : String :=
  "// legacy: 'quoted' #pragma\nrename 'a#b' c\n#pragma  version\t1.2; drop :x\n#pragma version 2.0"

theorem declared?_redeclared : ∃ script, Script.read redeclared = .ok script ∧
    declared? redeclared = script.version? ∧
    (declared? redeclared = none ↔ ∀ number, Statement.version number ∉ script.statements) := by
  have hread : (Script.read redeclared).toOption.isSome = true := by decide +kernel
  cases h : Script.read redeclared with
  | error e =>
    rw [h] at hread
    cases hread
  | ok script => exact ⟨script, rfl, declared?_eq_version? h (by decide +kernel)⟩

/-! ## Recipes that are not plain -/

/-- The version that the script in a text declares, if there is a script, and the version that is found in the text. -/
def versions (text : String) : Option (Option String) × Option String :=
  ((Script.read text).toOption.map Script.version?, declared? text)

/-- A version in a comment or in a text is found, and one without blanks or with other digits is not. -/
theorem declared?_ne_version? :
    versions "// before #pragma version 3.0\n#pragma version 2.0" = (some (some "2.0"), some "3.0") ∧
    versions "rename '#pragma version 1.0' :b" = (some none, some "1.0") ∧
    versions "#pragmaversion 2.0" = (some (some "2.0"), none) ∧
    versions "#pragma version ٢.٠" = (some (some "٢.٠"), none) := by
  decide +kernel

end RowRecipe.Dialect
