import RowRecipe.Proofs.Migration.Words

/-!
# The walk of migration and scanning

Scanning and migration cut a legible recipe into different pieces. This module follows both from left to
right: between two pieces of migration, within a bare piece, within braces, and at the end of a line behind
a comment. What migration changes are names that scanning reads among arguments; they become columns.
-/

namespace RowRecipe.Migration

open Grammar Script

variable {known : Option Registry} {P : Sighting → Prop} {place : Place} {b : Bool} {s s' : State}
  {standing : Standing} {u w cs rest out : List Char} {p : Piece} {ps : List Piece}

/-! ## Positions -/

/-- Whether a slot that accepts these variants takes the name of a column. -/
def TakesColumn (accepts : List TokenType) : Prop :=
  .columnName ∈ accepts ∨ .columnNameList ∈ accepts

instance (accepts : List TokenType) : Decidable (TakesColumn accepts) :=
  inferInstanceAs (Decidable (_ ∨ _))

/-- The variants that are accepted where migration sees the argument. -/
def Sighting.accepts (x : Sighting) : List TokenType :=
  acceptsAt x.usage? x.index

/-- A word that migration sees at the place, where a column is accepted. -/
def Promotable (P : Sighting → Prop) (place : Place) (w : List Char) : Prop :=
  ∃ x, P x ∧ x.start = place ∧ x.text = w ∧ TakesColumn x.accepts ∧ isTruth w = false

/-- What scanning and migration expect where a piece of migration starts. -/
inductive Fits : State → Standing → Prop
  | name : Fits .statement .name
  | argument {s : State} {usage? : Option UsageDefinition} {index : Nat} (h : s.inArguments = true) :
      Fits s (.argument usage? index)
  | pragma {s : State} (h : s.inPragma = true) : Fits s .pragma

/-- The same within a bare piece of which `u` is left; the standing is the one behind the piece. -/
inductive Entered (u : List Char) : State → Standing → Prop
  | within {s : State} {standing : Standing} (h : Fits s standing) (hne : standing ≠ .name) : Entered u s standing
  | directive {usage? : Option UsageDefinition} {index : Nat} (hu : u.head? ≠ some '#') :
      Entered u .statement (.argument usage? index)
  | pragma (hu : u.head? = some '#') : Entered u .statement .pragma

/-- Where scanning stands in the pieces of migration: `u` is left of the current piece and stays as it is,
`cs` is the text behind it. The flag says whether a lexical character stands right before. -/
inductive Position (known : Option Registry) (P : Sighting → Prop) (place : Place) (b : Bool) :
    State → Standing → List Char → List Char → Prop
  | boundary {s : State} {standing : Standing} {cs : List Char} (hfits : Fits s standing)
      (hb : b = true → ∀ c ∈ cs.head?, isBare c = false) (hcovers : Covers known P place standing cs) :
      Position known P place b s standing [] cs
  | lineEnd {s : State} {standing : Standing} {cs : List Char} (hs : s ≠ .item .separator)
      (hcs : ∀ c ∈ cs.head?, c = '\n') (hcovers : Covers known P place standing cs) :
      Position known P place b s standing [] cs
  | bare {s : State} {standing : Standing} {u cs : List Char} (hne : u ≠ []) (hu : ∀ c ∈ u, isBare c = true)
      (hcs : ∀ c ∈ cs.head?, isBare c = false) (hentered : Entered u s standing)
      (hcovers : hasSlashes u = false → Covers known P (place.after u) standing cs)
      (hline : Covers known P ((place.after u).after (lineOf cs)) .pragma (cs.dropWhile (· != '\n'))) :
      Position known P place b s standing u cs
  | braces {s : State} {usage? : Option UsageDefinition} {index : Nat} {v cs : List Char}
      (hs : s.inProperties = true) (hbrace : '\x7d' ∉ v) (hn : '\n' ∉ v)
      (hcovers : Covers known P (place.after (v ++ ['\x7d'])) (.argument usage? index) cs) :
      Position known P place b s (.argument usage? index) (v ++ ['\x7d']) cs

/-- The pieces with some names promoted make up the text. -/
def Walks (P : Sighting → Prop) (place : Place) (b : Bool) (s : State) (ps : List Piece) (out : List Char) : Prop :=
  ∃ qs, Promoted (Promotable P) place b s ps qs ∧ Piece.textOf qs = out

/-- From every position before the pieces, migration goes on by promoting some of them. -/
def Follows (known : Option Registry) (P : Sighting → Prop) (s : State) (ps : List Piece) : Prop :=
  ∀ (place : Place) (b : Bool) (standing : Standing) (u cs : List Char), Piece.textOf ps = u ++ cs →
    Position known P place b s standing u cs → Walks P place b s ps (u ++ update known standing cs)

theorem Walks.keep (h : Walks P (place.after p.text) (endsLexical p.text) (s.after p) ps out) :
    Walks P place b s (p :: ps) (p.text ++ out) := by
  obtain ⟨qs, hqs, rfl⟩ := h
  exact ⟨p :: qs, .keep hqs, by simp [Piece.textOf]⟩

theorem Fits.ne_item (h : Fits s standing) : s ≠ .item .separator := by
  rintro rfl
  cases h with
  | argument h => cases h
  | pragma h => cases h

theorem Entered.ne_item (h : Entered u s standing) : s ≠ .item .separator := by
  cases h with
  | within h => exact h.ne_item
  | directive => simp
  | pragma => simp

/-- A bare terminal leaves scanning and migration where they fit. -/
theorem Entered.next {t : Terminal} (h : Entered u s standing) (hnext : s.next? t = some s')
    (hu : ∃ c, u.head? = some c ∧ t.starts c = true) (hsep : t ≠ .separator) (hopen : t ≠ .opening) :
    Fits s' standing ∧ standing ≠ .name := by
  obtain ⟨c, hc, hstart⟩ := hu
  cases h with
  | within h hne =>
    refine ⟨?_, hne⟩
    cases h with
    | name => exact absurd rfl hne
    | argument h => exact .argument (State.next?_inArguments h hnext hsep hopen)
    | pragma h => exact .pragma (State.next?_inPragma h hnext hsep)
  | directive hhead =>
    cases t with
    | separator => exact absurd rfl hsep
    | name =>
      cases hnext
      exact ⟨.argument rfl, by simp⟩
    | pragmaWord => exact absurd (hc.trans (congrArg some (beq_iff_eq.mp hstart))) hhead
    | _ => cases hnext
  | pragma hhead =>
    cases t with
    | separator => exact absurd rfl hsep
    | name =>
      rw [hhead] at hc
      cases hc
      exact absurd hstart (by decide)
    | pragmaWord =>
      cases hnext
      exact ⟨.pragma rfl, by simp⟩
    | _ => cases hnext

/-! ## Within braces -/

theorem walks_braces {usage? : Option UsageDefinition} {index : Nat} {v : List Char}
    (hu : Uncons s (v ++ '\x7d' :: cs) p ps) (hl : Legible (s, p)) (ih : Follows known P (s.after p) ps)
    (hs : s.inProperties = true) (hbrace : '\x7d' ∉ v) (hn : '\n' ∉ v)
    (hcovers : Covers known P (place.after (v ++ ['\x7d'])) (.argument usage? index) cs) :
    Walks P place b s (p :: ps) (v ++ '\x7d' :: update known (.argument usage? index) cs) := by
  have htext := hu.text
  have inside (hs' : (s.after p).inProperties = true) (hsep : p.terminal? ≠ some .separator)
      (hclose : p.terminal? ≠ some .closing) :
      Walks P place b s (p :: ps) (v ++ '\x7d' :: update known (.argument usage? index) cs) := by
    -- a piece without a closing brace lies before the closing brace
    obtain ⟨v', rfl, hrest⟩ : ∃ v', v = p.text ++ v' ∧ Piece.textOf ps = v' ++ '\x7d' :: cs := by
      rcases List.append_eq_append_iff.mp htext with ⟨w, hw, hcs⟩ | ⟨v', rfl, hrest⟩
      · cases w with
        | nil => exact ⟨[], by simpa using hw.symm, by simpa using hcs.symm⟩
        | cons d w =>
          cases hcs
          exact absurd (by rw [hw]; simp) (hl.braces hs hclose)
      · exact ⟨v', rfl, hrest⟩
    rw [List.mem_append, not_or] at hbrace hn
    rw [List.append_assoc, Place.after_append] at hcovers
    have := ih (place.after p.text) (endsLexical p.text) (.argument usage? index) (v' ++ ['\x7d']) cs
      (by rw [hrest]; simp) (.braces hs' hbrace.2 hn.2 hcovers)
    rw [List.append_assoc] at this ⊢
    exact this.keep
  rcases State.step?_cases hu.step with ⟨t, ht, hnext, hcut⟩ | ⟨ht, hafter, _⟩
  · obtain ⟨hsep, hin, hout⟩ := State.next?_inProperties hs hnext
    by_cases hc : t = .closing
    · subst hc
      have hp : p.text = ['\x7d'] := by
        have hword : wordCut? ['\x7d'] (v ++ '\x7d' :: cs) = some (p.text, Piece.textOf ps) := hcut
        unfold wordCut? at hword
        split at hword
        next => exact (congrArg Prod.fst (Option.some.inj hword)).symm
        next => cases hword
      rw [hp] at htext
      obtain ⟨rfl, hrest⟩ : v = [] ∧ Piece.textOf ps = cs := by
        cases v with
        | nil => exact ⟨rfl, (List.cons.inj htext).2.symm⟩
        | cons d v =>
          obtain rfl : d = '\x7d' := (List.cons.inj htext).1
          exact absurd List.mem_cons_self hbrace
      have hend : endsLexical p.text = false := by
        rw [hp]
        decide +kernel
      have hafter := hout rfl
      rw [List.nil_append, ← hp] at hcovers
      have := ih (place.after p.text) (endsLexical p.text) (.argument usage? index) [] cs hrest
        (.boundary (by rw [hafter]; exact .argument rfl) (by rw [hend]; simp) hcovers)
      have := this.keep (b := b)
      rwa [hp] at this
    · refine inside (hin hc) ?_ ?_
      · rw [ht]
        exact fun he => hsep (Option.some.inj he)
      · rw [ht]
        exact fun he => hc (Option.some.inj he)
  · refine inside (by rw [hafter]; exact hs) ?_ ?_ <;> rw [ht] <;> simp

/-! ## The end of a line -/

theorem walks_newline (hu : Uncons s ('\n' :: cs) p ps) (ih : Follows known P (s.after p) ps)
    (hs : s ≠ .item .separator) (hcovers : Covers known P place standing ('\n' :: cs)) :
    Walks P place b s (p :: ps) (update known standing ('\n' :: cs)) := by
  rcases State.step?_cases hu.step with ⟨t, ht, hnext, hcut⟩ | ⟨_, _, hgap, _⟩
  · obtain rfl := Terminal.eq_of_starts (t := .separator) rfl rfl (Terminal.starts_of_cut? hcut)
    rw [Terminal.cut?_separator rfl, Option.some.injEq, Prod.mk.injEq] at hcut
    have hafter := State.next?_separator hs hnext
    have := ih (place.next '\n') false .name [] cs hcut.2.symm
      (.boundary (by rw [hafter]; exact .name) (by simp) hcovers.newline)
    have hend : endsLexical ['\n'] = false := by decide +kernel
    have hplace : place.after ['\n'] = place.next '\n' := rfl
    rw [← hplace, ← hend, hcut.1] at this
    have := this.keep (b := b)
    rw [update_newline]
    rwa [← hcut.1] at this
  · rcases gapCut?_cases hgap with ⟨ds, hcs, _⟩ | ⟨d, ds, hd, hcs, _⟩
    · cases hcs
    · cases hcs
      cases hd

/-! ## Within a bare piece -/

/-- A legible opening lies on a bare piece, blanks and a text in braces; else migration would see a colon
as an argument. -/
theorem opening_bare {usage? : Option UsageDefinition} {index : Nat} {xs : List Char}
    (hmark : ∀ x, P x → isPunctuation x.text = false) (hcut : openingCut? (u ++ cs) = some (w, xs))
    (hn : '\n' ∉ w) (hu : ∀ c ∈ u, isBare c = true) (hcs : ∀ c ∈ cs.head?, isBare c = false)
    (hcovers : hasSlashes u = false → Covers known P (place.after u) (.argument usage? index) cs) :
    ∃ y, u = "prop:".toList ∧ cs = y ++ '\x7b' :: xs ∧ w = "prop:".toList ++ (y ++ ['\x7b']) ∧
      (∀ c ∈ y, Text.isBlank c = true) ∧ '\n' ∉ y := by
  obtain ⟨x, y, hx, hy, hw, htext⟩ := openingCut?_eq_some.mp hcut
  simp only at hw htext
  subst hw
  simp only [List.mem_append, List.mem_cons, not_or] at hn
  have hbrace : ∀ c ∈ (y ++ '\x7b' :: xs).head?, isBare c = false := by
    cases y with
    | nil =>
      rintro _ ⟨⟩
      decide
    | cons d y =>
      rintro _ ⟨⟩
      simp [isBare, hy d List.mem_cons_self]
  have hprop : ∀ c ∈ "prop".toList, isBare c = true := List.all_eq_true.mp (by decide)
  cases x with
  | nil =>
    have hprop' : ∀ c ∈ "prop:".toList, isBare c = true := List.all_eq_true.mp (by decide)
    have htext : u ++ cs = "prop:".toList ++ (y ++ '\x7b' :: xs) := by
      rw [htext]
      simp
    obtain ⟨rfl, rfl⟩ := bare_append_inj hu hprop' hcs hbrace htext
    exact ⟨y, rfl, rfl, by simp, hy, hn.2.2.2.1⟩
  | cons d x =>
    have hblank : ∀ c ∈ (d :: x ++ ':' :: (y ++ '\x7b' :: xs)).head?, isBare c = false := by
      rintro _ ⟨⟩
      simp [isBare, hx d List.mem_cons_self]
    have htext : u ++ cs = "prop".toList ++ (d :: x ++ ':' :: (y ++ '\x7b' :: xs)) := by
      rw [htext]
      simp
    obtain ⟨rfl, rfl⟩ := bare_append_inj hu hprop hcs hblank htext
    -- the colon is a piece of its own
    have hcolon : pieceCut? ([':'] ++ lineOf (y ++ '\x7b' :: xs)) = some ([':'], lineOf (y ++ '\x7b' :: xs)) := by
      refine pieceCut?_bare (by simp) (List.all_eq_true.mp (by decide)) ?_
      rw [lineOf_append hn.2.2.2.1]
      cases y with
      | nil =>
        rintro _ ⟨⟩
        decide
      | cons => exact hbrace
    have hblanks := (hcovers (by decide)).blanks hx hn.2.1
    have hsight := (hblanks.piece (w := [':']) (by decide) hcolon (by decide)).1 _ rfl
    have hpunctuation : isPunctuation [':'] = true := by decide +kernel
    have hnot := hmark _ hsight
    rw [hpunctuation] at hnot
    cases hnot

/-- Behind an opening migration leaves the properties as they are. -/
theorem walks_opening {usage? : Option UsageDefinition} {index : Nat} {y : List Char}
    (hu : Uncons s ("prop:".toList ++ cs) p ps) (hls : ∀ x ∈ readings (s.after p) ps, Legible x)
    (ih : Follows known P (s.after p) ps) (hs : (s.after p).inProperties = true)
    (hcs : cs = y ++ '\x7b' :: Piece.textOf ps) (hp : p.text = "prop:".toList ++ (y ++ ['\x7b']))
    (hy : ∀ c ∈ y, Text.isBlank c = true) (hyn : '\n' ∉ y)
    (hcovers : Covers known P (place.after "prop:".toList) (.argument usage? index) cs) :
    Walks P place b s (p :: ps) ("prop:".toList ++ update known (.argument usage? index) cs) := by
  obtain ⟨v, rest, hrest, hbrace, hn⟩ := hu.rest.closed hs hls
  rw [hrest] at hcs
  subst hcs
  have hnl : '\n' ∉ '\x7b' :: (v ++ ['\x7d']) := by simpa using hn
  have hcut : pieceCut? ('\x7b' :: (v ++ ['\x7d']) ++ lineOf rest) = some ('\x7b' :: (v ++ ['\x7d']), lineOf rest) := by
    have := pieceCut?_braces (l := lineOf rest) hbrace
    rwa [show '\x7b' :: (v ++ '\x7d' :: lineOf rest) = '\x7b' :: (v ++ ['\x7d']) ++ lineOf rest by simp] at this
  have hslash : "//".toList.isPrefixOf ('\x7b' :: (v ++ ['\x7d'])) = false := rfl
  have htail : '\x7b' :: (v ++ '\x7d' :: rest) = '\x7b' :: (v ++ ['\x7d']) ++ rest := by simp
  rw [htail] at hcovers ⊢
  have hcovers' := ((hcovers.blanks hy hyn).piece hnl hcut hslash).2 rfl
  rw [update_blanks hy hyn, update_piece hnl hcut hslash]
  have hsame : (Standing.argument usage? index).updated ('\x7b' :: (v ++ ['\x7d'])) = '\x7b' :: (v ++ ['\x7d']) := by
    rw [Standing.updated, if_neg (by simp), currentForm_of_head (.inr (.inr rfl))]
  have hnext : (Standing.argument usage? index).next known ('\x7b' :: (v ++ ['\x7d'])) =
      .argument usage? (index + 1) := by
    rw [Standing.next, if_neg (by simp)]
  rw [hsame, hnext]
  rw [hnext, ← Place.after_append, ← Place.after_append] at hcovers'
  have hplace : "prop:".toList ++ (y ++ '\x7b' :: (v ++ ['\x7d'])) = p.text ++ (v ++ ['\x7d']) := by
    rw [hp]
    simp
  rw [hplace, Place.after_append] at hcovers'
  have := ih (place.after p.text) (endsLexical p.text) (.argument usage? (index + 1)) (v ++ ['\x7d']) rest
    (by rw [hrest]; simp) (.braces hs hbrace hn hcovers')
  have := this.keep (b := b)
  rw [hp] at this
  simpa using this

/-- A comment that starts within a bare piece may change, but it stays a comment. -/
theorem walks_comment (hu : Uncons s (u ++ cs) p ps) (ih : Follows known P (s.after p) ps)
    (hgap : p.terminal? = none) (hafter : s.after p = s) (hs : s ≠ .item .separator)
    (hp : p.text = lineOf (u ++ cs)) (hslash : ∃ v, u = '/' :: '/' :: v) (hn : '\n' ∉ u)
    (hline : Covers known P ((place.after u).after (lineOf cs)) .pragma (cs.dropWhile (· != '\n'))) :
    Walks P place b s (p :: ps) (u ++ update known standing cs) := by
  obtain ⟨t?, w⟩ := p
  simp only at hgap hp
  subst hgap
  have hrest : Piece.textOf ps = cs.dropWhile (· != '\n') := by
    have htext := hu.text
    rw [hp, lineOf_append hn, List.append_assoc, List.append_cancel_left_eq] at htext
    have hline : lineOf cs ++ Piece.textOf ps = lineOf cs ++ cs.dropWhile (· != '\n') := by
      rw [← htext, lineOf_append_dropWhile]
    exact List.append_cancel_left hline
  have hhead : ∀ c ∈ (cs.dropWhile (· != '\n')).head?, c = '\n' := by
    intro c hc
    simpa using head?_dropWhile _ c hc
  rw [← Place.after_append, ← lineOf_append hn, ← hp] at hline
  obtain ⟨qs, hqs, htext⟩ := ih (place.after w) true .pragma [] _ hrest
    (.lineEnd (by rw [hafter]; exact hs) hhead hline)
  have hkeeps : '\n' ∉ (updateParts known standing (parts (lineOf cs))).flatten := by
    intro hmem
    have hinserted := inserted_updateParts known standing (parts (lineOf cs))
    rw [parts_text] at hinserted
    rcases hinserted.mem hmem with hmark | hmem
    · cases hmark
    · exact newline_not_mem_lineOf hmem
  obtain ⟨v, rfl⟩ := hslash
  have hp : w = '/' :: '/' :: lineOf (v ++ cs) := hp
  refine ⟨⟨none, '/' :: '/' :: (v ++ (updateParts known standing (parts (lineOf cs))).flatten)⟩ :: qs, ?_, ?_⟩
  · rw [hafter, hp] at hqs
    rw [hp]
    refine .comment newline_not_mem_lineOf ?_ hqs
    have hv : '\n' ∉ v := fun hv => hn (List.mem_cons_of_mem _ (List.mem_cons_of_mem _ hv))
    exact List.not_mem_append hv hkeeps
  · have hout : update known standing cs = _ := update_line .pragma
    rw [Piece.textOf, List.flatMap_cons, ← Piece.textOf, htext, hout]
    simp

/-- A bare character starts no text and no separator. -/
theorem ne_of_isBare {t : Terminal} {c : Char} (hc : isBare c = true) (hstart : t.starts c = true) :
    t ≠ .text ∧ t ≠ .separator := by
  obtain ⟨_, hsemi, hquote, hdouble, _⟩ := isBare_iff.mp hc
  constructor
  · rintro rfl
    simp only [Terminal.starts, Bool.or_eq_true, beq_iff_eq] at hstart
    rcases hstart with rfl | rfl
    · exact hquote rfl
    · exact hdouble rfl
  · rintro rfl
    simp only [Terminal.starts, Bool.or_eq_true, beq_iff_eq] at hstart
    rcases hstart with rfl | rfl
    · exact hsemi rfl
    · exact absurd hc (by decide)

/-- A gap at the start of a bare piece is a comment. -/
theorem comment_of_gapCut? {r : Cut} (hne : u ≠ []) (hbare : ∀ c ∈ u, isBare c = true)
    (hcs : ∀ c ∈ cs.head?, isBare c = false) (hgap : gapCut? (u ++ cs) = some r) :
    (∃ v, u = '/' :: '/' :: v) ∧ r.1 = lineOf (u ++ cs) := by
  obtain ⟨c, ds, rfl⟩ := List.exists_cons_of_ne_nil hne
  rcases gapCut?_cases hgap with ⟨es, htext, hr, _⟩ | ⟨d, es, hd, htext, _⟩
  · refine ⟨?_, by rw [htext]; exact hr⟩
    cases ds with
    | nil =>
      cases cs with
      | nil => cases htext
      | cons d cs =>
        obtain rfl : d = '/' := (List.cons.inj (List.cons.inj htext).2).1
        exact absurd (hcs '/' rfl) (by decide)
    | cons d ds =>
      refine ⟨ds, ?_⟩
      rw [(List.cons.inj htext).1, (List.cons.inj (List.cons.inj htext).2).1]
  · obtain rfl : c = d := (List.cons.inj htext).1
    have hblank := isBlank_of_isGapBlank hd
    rw [(isBare_iff.mp (hbare c List.mem_cons_self)).1] at hblank
    cases hblank

theorem walks_bare (hmark : ∀ x, P x → isPunctuation x.text = false) (hu : Uncons s (u ++ cs) p ps)
    (hl : Legible (s, p)) (hls : ∀ x ∈ readings (s.after p) ps, Legible x) (ih : Follows known P (s.after p) ps)
    (hne : u ≠ []) (hbare : ∀ c ∈ u, isBare c = true) (hcs : ∀ c ∈ cs.head?, isBare c = false)
    (hentered : Entered u s standing) (hcovers : hasSlashes u = false → Covers known P (place.after u) standing cs)
    (hline : Covers known P ((place.after u).after (lineOf cs)) .pragma (cs.dropWhile (· != '\n'))) :
    Walks P place b s (p :: ps) (u ++ update known standing cs) := by
  have hn := newline_not_mem_of_isBare hbare
  obtain ⟨c, ds, hc⟩ := List.exists_cons_of_ne_nil hne
  rcases State.step?_cases hu.step with ⟨t, ht, hnext, hcut⟩ | ⟨ht, hafter, hgap, hother⟩
  · have hstart : t.starts c = true := by
      rw [hc] at hcut
      exact Terminal.starts_of_cut? hcut
    obtain ⟨htext, hsep⟩ := ne_of_isBare (hbare c (by rw [hc]; exact List.mem_cons_self)) hstart
    have hsep' : p.terminal? ≠ some .separator := by
      rw [ht]
      exact fun he => hsep (Option.some.inj he)
    by_cases hopen : t = .opening
    · subst hopen
      obtain ⟨usage?, index, rfl, hargs⟩ :
          ∃ usage? index, standing = .argument usage? index ∧ s.inArguments = true := by
        cases hentered with
        | directive => cases hnext
        | pragma => cases hnext
        | within h hne =>
          cases h with
          | name => exact absurd rfl hne
          | argument h => exact ⟨_, _, rfl, h⟩
          | pragma h => cases s <;> first | cases h; done | cases hnext
      obtain ⟨y, rfl, hy, hp, hblank, hyn⟩ := opening_bare hmark hcut (hl.line hsep') hbare hcs hcovers
      have hin : (s.after p).inProperties = true := by
        rw [State.next?_opening hargs hnext]
        rfl
      exact walks_opening hu hls ih hin hy hp hblank hyn (hcovers (by decide))
    · have hdelimits := delimits_of_not_isBare hcs
      have hlocal := Terminal.cut?_append hdelimits hne htext hopen
      rw [hcut] at hlocal
      obtain ⟨⟨w, v⟩, hr, he⟩ := Option.map_eq_some_iff.mp hlocal.symm
      simp only [Cut.followedBy, Prod.mk.injEq] at he
      obtain ⟨rfl, hrest⟩ := he
      obtain rfl : p.text ++ v = u := (Terminal.cut?_of hr).2
      have hslash := hasSlashes_append (w := v) (slash_not_mem htext hopen hr)
      have hfits := hentered.next hnext ⟨c, by rw [hc]; rfl, hstart⟩ hsep hopen
      rw [Place.after_append] at hcovers hline
      rw [List.append_assoc]
      refine Walks.keep (ih _ _ standing v cs hrest.symm ?_)
      rw [List.forall_mem_append] at hbare
      by_cases hv : v = []
      · subst hv
        exact .boundary hfits.1 (fun _ => hcs) (hcovers hslash)
      · exact .bare hv hbare.2 hcs (.within hfits.1 hfits.2) (fun h => hcovers (hslash.trans h)) hline
  · obtain ⟨hslash, hp⟩ := comment_of_gapCut? hne hbare hcs hgap
    exact walks_comment hu ih ht hafter hentered.ne_item hp hslash hn hline

theorem walks_gap (hu : Uncons s cs p ps) (hl : Legible (s, p)) (ih : Follows known P (s.after p) ps)
    (ht : p.terminal? = none) (hafter : s.after p = s) (hgap : gapCut? cs = some (p.text, Piece.textOf ps))
    (hfits : Fits s standing) (hcovers : Covers known P place standing cs) :
    Walks P place b s (p :: ps) (update known standing cs) := by
  have hn : '\n' ∉ p.text := hl.line (by rw [ht]; simp)
  rcases gapCut?_cases hgap with ⟨ds, rfl, hp, hrest⟩ | ⟨d, ds, hd, rfl, hp, hrest⟩
  · simp only at hp hrest
    have hhead : ∀ c ∈ (ds.dropWhile (· != '\n')).head?, c = '\n' := by
      intro c hc
      simpa using head?_dropWhile _ c hc
    have hline := hcovers.line .pragma
    rw [show lineOf ('/' :: '/' :: ds) = p.text from hp.symm] at hline
    have := ih (place.after p.text) (endsLexical p.text) .pragma [] _ hrest
      (.lineEnd (by rw [hafter]; exact hfits.ne_item) hhead hline)
    have := this.keep (b := b)
    rw [update_comment .pragma rfl]
    rwa [hp] at this
  · simp only at hp hrest
    have hsplit : d :: ds = p.text ++ Piece.textOf ps := by
      rw [hp, hrest, List.cons_append, List.takeWhile_append_dropWhile]
    have hblank : ∀ c ∈ p.text, Text.isBlank c = true := by
      rw [hp]
      exact List.forall_mem_cons.mpr
        ⟨isBlank_of_isGapBlank hd, fun c hc => isBlank_of_isGapBlank (List.mem_takeWhile_imp hc)⟩
    have hend : endsLexical p.text = false := by
      rcases List.eq_nil_or_concat p.text with hnil | ⟨w, c, hw⟩
      · rw [hp] at hnil
        cases hnil
      · rw [List.concat_eq_append] at hw
        rw [hw]
        apply endsLexical_eq_false
        rw [← Bool.not_eq_true]
        intro hc
        have := hblank c (by rw [hw]; simp)
        rw [not_isBlank_of_isLexical hc] at this
        cases this
    rw [hsplit] at hcovers ⊢
    rw [update_blanks hblank hn]
    refine Walks.keep (ih _ _ standing [] _ rfl (.boundary ?_ ?_ (hcovers.blanks hblank hn)))
    · rw [hafter]
      exact hfits
    · rw [hend]
      simp

theorem walks_semicolon (hu : Uncons s (';' :: cs) p ps) (ih : Follows known P (s.after p) ps)
    (hfits : Fits s standing) (hcovers : Covers known P place standing (';' :: cs)) :
    Walks P place b s (p :: ps) (update known standing (';' :: cs)) := by
  rcases State.step?_cases hu.step with ⟨t, ht, hnext, hcut⟩ | ⟨_, _, hgap, _⟩
  · obtain rfl := Terminal.eq_of_starts (t := .separator) rfl rfl (Terminal.starts_of_cut? hcut)
    rw [Terminal.cut?_separator rfl, Option.some.injEq, Prod.mk.injEq] at hcut
    have hafter := State.next?_separator hfits.ne_item hnext
    have hsemi : pieceCut? ([';'] ++ lineOf cs) = some ([';'], lineOf cs) := pieceCut?_semicolon
    have hpiece : update known standing ([';'] ++ cs) = _ := update_piece (by decide) hsemi rfl
    have hcovers' := (hcovers.piece (w := [';']) (by decide) hsemi rfl).2 (by decide)
    have hnext' : standing.next known [';'] = .name := by
      cases standing <;> rfl
    have hsame : standing.updated [';'] = [';'] := by
      cases standing <;> rfl
    rw [hnext'] at hcovers' hpiece
    have hend : endsLexical p.text = false := by
      rw [← hcut.1]
      decide +kernel
    rw [hcut.1] at hcovers'
    have := ih (place.after p.text) (endsLexical p.text) .name [] cs hcut.2.symm
      (.boundary (by rw [hafter]; exact .name) (by rw [hend]; simp) hcovers')
    have := this.keep (b := b)
    rw [List.singleton_append, hsame] at hpiece
    rw [hpiece]
    rwa [← hcut.1] at this
  · rcases gapCut?_cases hgap with ⟨ds, hcs, _⟩ | ⟨d, ds, hd, hcs, _⟩
    · cases hcs
    · cases hcs
      cases hd

theorem walks_text (hu : Uncons s cs p ps) (hl : Legible (s, p)) (ih : Follows known P (s.after p) ps)
    (ht : p.terminal? = some .text) (hnext : s.next? .text = some s')
    (hcut : textCut? cs = some (p.text, Piece.textOf ps)) (hfits : Fits s standing)
    (hcovers : Covers known P place standing cs) : Walks P place b s (p :: ps) (update known standing cs) := by
  have hn : '\n' ∉ p.text := hl.line (by rw [ht]; simp)
  obtain rfl := hu.text
  have hpiece : pieceCut? (p.text ++ lineOf (Piece.textOf ps)) = some (p.text, lineOf (Piece.textOf ps)) :=
    pieceCut?_quoted hcut
  obtain ⟨c, ds, hp⟩ := List.exists_cons_of_ne_nil hu.ne_nil
  have hquote : c = '\'' ∨ c = '"' := by
    rw [hp] at hcut
    have := Terminal.starts_of_cut? (t := .text) hcut
    simpa [Terminal.starts] using this
  have hsemi : p.text ≠ [';'] := by
    rw [hp]
    rintro ⟨⟩
    rcases hquote with h | h <;> cases h
  have hslash : "//".toList.isPrefixOf p.text = false := by
    rw [hp]
    rcases hquote with rfl | rfl <;> rfl
  have hcomment : endsInComment p.text = false := by
    have hbare : isBare c = false := by
      rcases hquote with rfl | rfl <;> decide
    simp [endsInComment, hp, hbare]
  have hsame : standing.updated p.text = p.text := by
    cases standing with
    | argument usage? index =>
      rw [Standing.updated, if_neg hsemi, hp, currentForm_of_head (by rcases hquote with h | h <;> simp [h])]
    | _ => rfl
  rw [update_piece hn hpiece hslash, hsame]
  refine Walks.keep (ih _ _ _ [] _ rfl (.boundary ?_ ?_ ((hcovers.piece hn hpiece hslash).2 hcomment)))
  · have hafter : s.after p = s' := by simp [State.after, ht, hnext]
    rw [hafter]
    cases hfits with
    | name => cases hnext
    | argument h =>
      rw [Standing.next, if_neg hsemi]
      exact .argument (State.next?_inArguments h hnext (by decide) (by decide))
    | pragma h =>
      rw [Standing.next, if_neg hsemi]
      exact .pragma (State.next?_inPragma h hnext (by decide))
  · rw [textCut?_endsLexical hcut]
    simp

/-- A bare word that becomes a column is one name of the arguments. -/
theorem walks_promoted {t : Terminal} {usage? : Option UsageDefinition} {index : Nat}
    (hu : Uncons s (w ++ rest) p ps) (ih : Follows known P (s.after p) ps) (ht : p.terminal? = some t)
    (hnext : s.next? t = some (s.after p)) (hcut : t.cut? (w ++ rest) = some (p.text, Piece.textOf ps))
    (hargs : s.inArguments = true) (hopen : t ≠ .opening) (hword : isBareWord w = true)
    (htruth : isTruth w = false) (hn : '\n' ∉ w) (hrest : ∀ c ∈ rest.head?, isBare c = false)
    (hsight : P ⟨place, usage?, index, w⟩) (hcolumn : TakesColumn (acceptsAt usage? index))
    (hcovers : Covers known P (place.after w) (.argument usage? (index + 1)) rest) :
    Walks P place false s (p :: ps) (asColumn w ++ update known (.argument usage? (index + 1)) rest) := by
  have hend : ∀ c ∈ rest.head?, isNameChar c = false := fun c hc =>
    (delimits_of_not_isBare hrest).head (fun _ => isLexical_of_isNameChar) c hc
  obtain ⟨rfl, hp, hrest', ⟨list, rfl⟩, hafter⟩ := name_of_isBareWord hargs hnext hcut hopen hword hend hu.rest
  rw [hafter] at ih
  obtain ⟨qs, hqs, htext⟩ := ih (place.after w) true _ [] rest hrest' (.boundary (.argument rfl) (fun _ => hrest) hcovers)
  refine ⟨⟨some .column, ':' :: w⟩ :: qs, ?_, ?_⟩
  · obtain ⟨t?, q⟩ := p
    simp only at ht hp
    subst ht hp
    exact .promote hn ⟨_, hsight, rfl, rfl, hcolumn, htruth⟩ hqs
  · rw [Piece.textOf, List.flatMap_cons, ← Piece.textOf, htext]
    rfl

/-- The arguments of a legible text are no lists of bare words. -/
theorem not_bareWordList {t : Terminal} {first tail : List Char} (hu : Uncons s (first ++ ',' :: tail) p ps)
    (hnext : s.next? t = some (s.after p)) (hcut : t.cut? (first ++ ',' :: tail) = some (p.text, Piece.textOf ps))
    (hargs : s.inArguments = true) (hopen : t ≠ .opening) (hword : isBareWord first = true) : False := by
  have hcomma : ∀ c ∈ (',' :: tail).head?, isNameChar c = false := by
    rintro _ ⟨⟩
    exact isNameChar_mark (by decide)
  obtain ⟨rfl, -, hrest, -, hafter⟩ := name_of_isBareWord hargs hnext hcut hopen hword hcomma hu.rest
  have hscanned := hu.rest
  rw [hafter, hrest] at hscanned
  exact not_scanned_comma hscanned

/-- The current form of an argument is scanned as the argument is, or as a column where it is a word. -/
theorem walks_argument {t : Terminal} {usage? : Option UsageDefinition} {index : Nat}
    (hmark : ∀ x, P x → isPunctuation x.text = false) (hu : Uncons s (w ++ rest) p ps) (hl : Legible (s, p))
    (ih : Follows known P (s.after p) ps) (ht : p.terminal? = some t) (hnext : s.next? t = some (s.after p))
    (hcut : t.cut? (w ++ rest) = some (p.text, Piece.textOf ps)) (hargs : s.inArguments = true)
    (hw : ∀ c ∈ w, isBare c = true) (hrest : ∀ c ∈ rest.head?, isBare c = false)
    (hsight : P ⟨place, usage?, index, w⟩)
    (hcovers : hasSlashes w = false → Covers known P (place.after w) (.argument usage? (index + 1)) rest)
    (hsame : Walks P place false s (p :: ps) (w ++ update known (.argument usage? (index + 1)) rest)) :
    Walks P place false s (p :: ps)
      (currentForm (acceptsAt usage? index) w ++ update known (.argument usage? (index + 1)) rest) := by
  by_cases hopen : t = .opening
  · subst hopen
    have hn : '\n' ∉ p.text := hl.line (by rw [ht]; simp)
    obtain ⟨y, rfl, -⟩ := opening_bare hmark hcut hn hw hrest hcovers
    rwa [currentForm_prop]
  · rcases currentForm_cases (acceptsAt usage? index) w with h | ⟨hword, htruth, h, hcolumn⟩ | ⟨first, tail, hlist, hword⟩ | h
    · rwa [h]
    · rw [h]
      have hcovers := hcovers (hasSlashes_eq_false (slash_not_mem_of_isBareWord hword))
      exact walks_promoted hu ih ht hnext hcut hargs hopen hword htruth (newline_not_mem_of_isBare hw) hrest hsight
        hcolumn hcovers
    · subst hlist
      rw [List.append_assoc, List.cons_append] at hu hcut
      exact (not_bareWordList hu hnext hcut hargs hopen hword).elim
    · rw [hmark _ hsight] at h
      cases h

theorem walks_boundary_bare {t : Terminal} (hmark : ∀ x, P x → isPunctuation x.text = false)
    (hu : Uncons s cs p ps) (hl : Legible (s, p)) (hls : ∀ x ∈ readings (s.after p) ps, Legible x)
    (ih : Follows known P (s.after p) ps) (ht : p.terminal? = some t) (hnext : s.next? t = some (s.after p))
    (hcut : t.cut? cs = some (p.text, Piece.textOf ps)) (hbare : ∃ c, cs.head? = some c ∧ isBare c = true)
    (hfits : Fits s standing) (hb : b = true → ∀ c ∈ cs.head?, isBare c = false)
    (hcovers : Covers known P place standing cs) : Walks P place b s (p :: ps) (update known standing cs) := by
  obtain ⟨c, hhead, hc⟩ := hbare
  obtain ⟨ds, rfl⟩ := List.head?_eq_some_iff.mp hhead
  obtain rfl : b = false := by
    rw [← Bool.not_eq_true]
    intro htrue
    rw [hb htrue c rfl] at hc
    cases hc
  -- the whole bare piece and what stands behind it
  obtain ⟨w, rest, hsplit, hw, hrest, hhead⟩ : ∃ w rest, c :: ds = w ++ rest ∧ (∀ c ∈ w, isBare c = true) ∧
      (∀ c ∈ rest.head?, isBare c = false) ∧ w.head? = some c := by
    refine ⟨(c :: ds).takeWhile isBare, (c :: ds).dropWhile isBare, List.takeWhile_append_dropWhile.symm,
      fun d => List.mem_takeWhile_imp, head?_dropWhile _, ?_⟩
    rw [List.takeWhile_cons, if_pos hc]
    rfl
  have hstart := Terminal.starts_of_cut? hcut
  rw [hsplit] at hu hcut hcovers ⊢
  have hne : w ≠ [] := by
    rintro rfl
    cases hhead
  have hn := newline_not_mem_of_isBare hw
  have hsemi : w ≠ [';'] := by
    rintro rfl
    exact absurd (hw ';' List.mem_cons_self) (by decide)
  have hslash : "//".toList.isPrefixOf w = false := by
    obtain ⟨vs, rfl⟩ := List.head?_eq_some_iff.mp hhead
    have hne : c ≠ '/' := by
      rintro rfl
      rw [t.not_starts_slash] at hstart
      cases hstart
    simp [List.isPrefixOf, Ne.symm hne]
  have hpiece := pieceCut?_bare hne hw fun d hd => hrest d (head?_of_head?_lineOf hd)
  have hcomment : endsInComment w = hasSlashes w := by
    rw [endsInComment, hhead, Option.any_some, hc, Bool.true_and]
  have hpieces := hcovers.piece hn hpiece hslash
  rw [hcomment] at hpieces
  have hlines : Covers known P ((place.after w).after (lineOf rest)) .pragma (rest.dropWhile (· != '\n')) := by
    have := hcovers.line .pragma
    rwa [List.dropWhile_append_of_pos (bne_newline hn), lineOf_append hn, Place.after_append] at this
  have hstay (hentered : Entered w s (standing.next known w)) :
      Walks P place false s (p :: ps) (w ++ update known (standing.next known w) rest) :=
    walks_bare hmark hu hl hls ih hne hw hrest hentered hpieces.2 hlines
  rw [update_piece hn hpiece hslash]
  cases hfits with
  | name =>
    refine hstay ?_
    rw [Standing.next, if_neg hsemi]
    unfold afterName
    split
    next h => exact .pragma h
    next h => exact .directive h
  | pragma h =>
    refine hstay ?_
    rw [Standing.next, if_neg hsemi]
    exact .within (.pragma h) (by simp)
  | @argument _ usage? index hargs =>
    have hsight := hpieces.1 ⟨place, usage?, index, w⟩ (by rw [Standing.sighting?, if_neg hsemi]; rfl)
    have hnext' : (Standing.argument usage? index).next known w = .argument usage? (index + 1) := by
      rw [Standing.next, if_neg hsemi]
    have hupdated : (Standing.argument usage? index).updated w = currentForm (acceptsAt usage? index) w := by
      rw [Standing.updated, if_neg hsemi]
    rw [hnext'] at hstay hpieces ⊢
    rw [hupdated]
    exact walks_argument hmark hu hl ih ht hnext hcut hargs hw hrest hsight hpieces.2
      (hstay (.within (.argument hargs) (by simp)))

theorem walks_boundary (hmark : ∀ x, P x → isPunctuation x.text = false) (hu : Uncons s cs p ps)
    (hl : Legible (s, p)) (hls : ∀ x ∈ readings (s.after p) ps, Legible x) (ih : Follows known P (s.after p) ps)
    (hfits : Fits s standing) (hb : b = true → ∀ c ∈ cs.head?, isBare c = false)
    (hcovers : Covers known P place standing cs) : Walks P place b s (p :: ps) (update known standing cs) := by
  rcases State.step?_cases hu.step with ⟨t, ht, hnext, hcut⟩ | ⟨ht, hafter, hgap, _⟩
  · by_cases htext : t = .text
    · subst htext
      exact walks_text hu hl ih ht hnext hcut hfits hcovers
    obtain ⟨c, ds, rfl⟩ : ∃ c ds, cs = c :: ds := by
      cases cs with
      | nil => exact absurd ((Terminal.cut?_of hcut).length_lt) (by simp)
      | cons c ds => exact ⟨c, ds, rfl⟩
    have hstart := Terminal.starts_of_cut? hcut
    by_cases hsep : t = .separator
    · subst hsep
      simp only [Terminal.starts, Bool.or_eq_true, beq_iff_eq] at hstart
      rcases hstart with rfl | rfl
      · exact walks_semicolon hu ih hfits hcovers
      · exact walks_newline hu ih hfits.ne_item hcovers
    · have hc : isBare c = true := by
        rcases Terminal.starts_cases hstart with hlex | hmem
        · exact isBare_of_isLexical hlex
        · simp only [List.mem_cons, List.not_mem_nil, or_false] at hmem
          have other {u : Terminal} (hu : u.isWord = false) (hne : t ≠ u) (hs : u.starts c = true) : isBare c = true :=
            absurd (Terminal.eq_of_starts hu hs hstart) hne
          rcases hmem with rfl | rfl | rfl | rfl | rfl | rfl | rfl | rfl | rfl
          · exact other (u := .separator) rfl hsep rfl
          · exact other (u := .separator) rfl hsep rfl
          · decide
          · decide
          · decide
          · decide
          · decide
          · exact other (u := .text) rfl htext rfl
          · exact other (u := .text) rfl htext rfl
      exact walks_boundary_bare hmark hu hl hls ih ht hnext hcut ⟨c, rfl, hc⟩ hfits hb hcovers
  · exact walks_gap hu hl ih ht hafter hgap hfits hcovers

/-! ## The whole walk -/

/-- Migration of a legible text promotes names to columns, and nothing else changes but comments. -/
theorem follows (hmark : ∀ x, P x → isPunctuation x.text = false) (h : Scanned s cs ps)
    (hl : ∀ x ∈ readings s ps, Legible x) : Follows known P s ps := by
  induction ps generalizing s cs with
  | nil =>
    intro place b standing u cs htext hpos
    obtain ⟨rfl, rfl⟩ : u = [] ∧ cs = [] := List.append_eq_nil_iff.mp htext.symm
    exact ⟨[], .nil, by rw [update_nil]; rfl⟩
  | cons p ps ih =>
    have hu := h.uncons
    rw [readings, List.forall_mem_cons] at hl
    have ih := ih hu.rest hl.2
    intro place b standing u cs htext hpos
    obtain rfl : _ = u ++ cs := h.text.symm.trans htext
    cases hpos with
    | boundary hfits hb hcovers => exact walks_boundary hmark hu hl.1 hl.2 ih hfits hb hcovers
    | lineEnd hs hcs hcovers =>
      cases cs with
      | nil => exact absurd hu.text (by simp [hu.ne_nil])
      | cons c cs =>
        obtain rfl := hcs c rfl
        exact walks_newline hu ih hs hcovers
    | bare hne hbare hcs hentered hcovers hline =>
      exact walks_bare hmark hu hl.1 hl.2 ih hne hbare hcs hentered hcovers hline
    | braces hs hbrace hn hcovers =>
      rw [List.append_assoc, List.singleton_append] at hu ⊢
      exact walks_braces hu hl.1 ih hs hbrace hn hcovers

end RowRecipe.Migration
