import RowRecipe.Proofs.Grammar.Scanned

/-!
# Terminals in other surroundings

What stands behind a terminal matters only up to a delimiter, and behind a mark, a text or an opening it does
not matter at all. So a step of scanning is the same step where the text goes on in another way.
-/

namespace RowRecipe.Grammar

/-! ## Openings -/

variable {c : Char} {cs xs w rest : List Char} {s s' s₂ : State} {ps : List Piece} {t : Terminal}

theorem not_isBlank_of_isLexical (h : isLexical c = true) : Text.isBlank c = false := by
  simp only [isLexical, isNameChar, Bool.or_eq_true, beq_iff_eq] at h
  rcases h with rfl | rfl | h
  · decide
  · decide
  · exact Text.not_isBlank_of_isWordChar h

/-- An opening is `prop`, a colon and a brace, with blanks between them. -/
theorem openingCut?_eq_some {r : Cut} :
    openingCut? cs = some r ↔ ∃ u v, (∀ c ∈ u, Text.isBlank c = true) ∧ (∀ c ∈ v, Text.isBlank c = true) ∧
      r.1 = "prop".toList ++ (u ++ ':' :: (v ++ ['\x7b'])) ∧ cs = r.1 ++ r.2 := by
  constructor
  · intro h
    have hof := (openingCut?_of h).2
    unfold openingCut? at h
    split at h
    next => cases h
    next p hp =>
      have hp : p.1 = "prop".toList := by
        unfold wordCut? at hp
        split at hp
        next => cases hp; rfl
        next => cases hp
      split at h
      next rest _ =>
        split at h
        next =>
          cases h
          refine ⟨p.2.takeWhile Text.isBlank, rest.takeWhile Text.isBlank,
            fun c => List.mem_takeWhile_imp, fun c => List.mem_takeWhile_imp, ?_, hof.symm⟩
          simp [hp]
        next => cases h
      next => cases h
  · rintro ⟨u, v, hu, hv, hw, hcs⟩
    obtain ⟨taken, rest⟩ := r
    simp only at hw hcs
    subst hw hcs
    have hcolon : ∀ c ∈ (':' :: (v ++ '\x7b' :: rest)).head?, Text.isBlank c = false := by
      rintro _ ⟨⟩
      decide
    have hbrace : ∀ c ∈ ('\x7b' :: rest).head?, Text.isBlank c = false := by
      rintro _ ⟨⟩
      decide
    have hprop : wordCut? "prop".toList ("prop".toList ++ (u ++ ':' :: (v ++ ['\x7b'])) ++ rest) =
        some ("prop".toList, u ++ ':' :: (v ++ '\x7b' :: rest)) := by
      unfold wordCut?
      rw [if_pos]
      · simp
      · rw [List.isPrefixOf_iff_prefix, List.append_assoc]
        exact List.prefix_append _ _
    unfold openingCut?
    rw [hprop]
    simp only [takeWhile_append_of_head hcolon, dropWhile_append_of_head hcolon,
      List.takeWhile_eq_self_iff.mpr hu, List.dropWhile_eq_nil_iff.mpr hu, List.nil_append,
      takeWhile_append_of_head hbrace, dropWhile_append_of_head hbrace,
      List.takeWhile_eq_self_iff.mpr hv, List.dropWhile_eq_nil_iff.mpr hv]
    simp

/-- Whether a terminal is a number or a word. -/
def Terminal.isWord : Terminal → Bool
  | separator | pragmaWord | comma | equal | closing | column | text => false
  | _ => true

theorem Terminal.isLexical_of_starts {t : Terminal} (hw : t.isWord = true) (h : t.starts c = true) :
    isLexical c = true := by
  have number (h : (c == '-' || Text.isDigit c) = true) : isLexical c = true := by
    rw [Bool.or_eq_true, beq_iff_eq] at h
    rcases h with rfl | h
    · decide
    · exact isLexical_of_isDigit h
  have letter {l : Char} (hl : isLexical l = true) (h : (c == l) = true) : isLexical c = true := by
    rw [beq_iff_eq] at h
    exact h ▸ hl
  cases t with
  | duration => exact number h
  | byteSize => exact number h
  | malformedUnit => exact number h
  | number => exact number h
  | version => exact isLexical_of_isDigit h
  | name => exact isLexical_of_isNameStart h
  | opening => exact letter (by decide) h
  | versionWord => exact letter (by decide) h
  | loadWord => exact letter (by decide) h
  | separator | pragmaWord | comma | equal | closing | column | text => cases hw

/-- What terminals start with is lexical, or one of few marks. -/
theorem Terminal.starts_cases {t : Terminal} (h : t.starts c = true) :
    isLexical c = true ∨ c ∈ [';', '\n', '#', ',', '=', '\x7d', ':', '\'', '"'] := by
  cases hw : t.isWord with
  | true => exact .inl (isLexical_of_starts hw h)
  | false =>
    right
    cases t with
    | separator | text =>
      simp only [starts, Bool.or_eq_true, beq_iff_eq] at h
      rcases h with rfl | rfl <;> simp
    | pragmaWord | comma | equal | closing | column =>
      obtain rfl : c = _ := beq_iff_eq.mp h
      simp
    | _ => cases hw

/-- Whether a terminal is a single mark. -/
def Terminal.isMark : Terminal → Bool
  | separator | comma | equal | closing => true
  | _ => false

/-- What a mark, a column or a text starts with, no other terminal starts with. -/
theorem Terminal.eq_of_starts {t u : Terminal} (ht : t.isWord = false) (h : t.starts c = true)
    (hu : u.starts c = true) : u = t := by
  have hlex : isLexical c = false := by
    cases t with
    | separator | text =>
      simp only [starts, Bool.or_eq_true, beq_iff_eq] at h
      rcases h with rfl | rfl <;> exact isLexical_mark (by decide)
    | pragmaWord | comma | equal | closing | column =>
      obtain rfl : c = _ := beq_iff_eq.mp h
      exact isLexical_mark (by decide)
    | _ => cases ht
  have hw : u.isWord = false := by
    rw [← Bool.not_eq_true]
    intro hw
    rw [isLexical_of_starts hw hu] at hlex
    cases hlex
  clear hlex
  -- seven terminals are left on each side, and they start with different characters
  cases t <;> cases ht <;> cases u <;> cases hw <;> simp_all [starts]
  · rcases h with rfl | rfl <;> simp at hu
  · rcases h with rfl | rfl <;> simp at hu

theorem Terminal.cut?_separator (h : separator.starts c = true) : separator.cut? (c :: cs) = some ([c], cs) := by
  have hall : cs.takeWhile (fun _ => false) = [] ∧ cs.dropWhile (fun _ => false) = cs := by
    cases cs <;> exact ⟨rfl, rfl⟩
  have h : (c == ';' || c == '\n') = true := h
  change runCut? (fun c => c == ';' || c == '\n') (fun _ => false) (c :: cs) = _
  rw [runCut?, if_pos h, hall.1, hall.2]

theorem Terminal.cut?_mark {t : Terminal} (hm : t.isMark = true) (h : t.cut? cs = some (w, rest))
    (xs : List Char) : t.cut? (w ++ xs) = some (w, xs) := by
  have word {c : Char} (h : wordCut? [c] cs = some (w, rest)) : wordCut? [c] (w ++ xs) = some (w, xs) := by
    unfold wordCut? at h
    split at h
    next =>
      cases h
      simp [wordCut?]
    next => cases h
  cases t with
  | separator =>
    cases cs with
    | nil => cases h
    | cons c cs =>
      have hstart := starts_of_cut? h
      rw [cut?_separator hstart] at h
      cases h
      exact cut?_separator hstart
  | comma => exact word h
  | equal => exact word h
  | closing => exact word h
  | _ => cases hm

/-- A colon that is followed by a brace or a blank starts no terminal, so it cannot be scanned. -/
theorem Scanned.not_opening (h : Scanned s cs ps) {u v : List Char} (hu : ∀ c ∈ u, Text.isBlank c = true)
    (hv : ∀ c ∈ v, Text.isBlank c = true) : cs ≠ u ++ ':' :: (v ++ '\x7b' :: xs) := by
  induction h generalizing u with
  | done =>
    intro he
    simpa using congrArg List.length he
  | @step s s' cs rest p ps hstep _ ih =>
    rintro rfl
    cases u with
    | nil =>
      -- only a column starts with a colon, and a name has to follow it at once
      have hnone : columnCut? (':' :: (v ++ '\x7b' :: xs)) = none := by
        have hrun (d : Char) (ds : List Char) (hd : isNameStart d = false) :
            columnCut? (':' :: d :: ds) = none := by
          simp [columnCut?, runCut?, hd]
        cases v with
        | nil => exact hrun _ _ (by decide)
        | cons d v =>
          refine hrun _ _ ?_
          rw [← Bool.not_eq_true]
          intro hd
          have := not_isBlank_of_isLexical (isLexical_of_isNameStart hd)
          rw [hv d List.mem_cons_self] at this
          cases this
      rcases State.step?_cases hstep with ⟨t, _, _, hcut⟩ | ⟨_, _, hgap, _⟩
      · have hstart := Terminal.starts_of_cut? hcut
        have hcolumn : ∀ t : Terminal, t.starts ':' = true → t = .column := by
          intro t
          cases t <;> decide
        rw [hcolumn t hstart] at hcut
        change columnCut? (':' :: (v ++ '\x7b' :: xs)) = _ at hcut
        rw [hnone] at hcut
        cases hcut
      · rcases gapCut?_cases hgap with ⟨ds, hcs, _⟩ | ⟨d, ds, hd, hcs, _⟩
        · cases hcs
        · cases hcs
          cases hd
    | cons b u =>
      rw [List.forall_mem_cons] at hu
      rcases State.step?_cases hstep with ⟨t, _, _, hcut⟩ | ⟨_, _, hgap, _⟩
      · rcases Terminal.starts_cases (Terminal.starts_of_cut? hcut) with hlex | hmark
        · rw [not_isBlank_of_isLexical hlex] at hu
          cases hu.1
        · obtain rfl : b = '\n' := by
            simp only [List.mem_cons, List.not_mem_nil, or_false] at hmark
            rcases hmark with rfl | rfl | rfl | rfl | rfl | rfl | rfl | rfl | rfl
            case inr.inl => rfl
            all_goals exact absurd hu.1 (by decide)
          have hsep : ∀ t : Terminal, t.starts '\n' = true → t = .separator := by
            intro t
            cases t <;> decide
          obtain rfl := hsep t (Terminal.starts_of_cut? hcut)
          rw [List.cons_append, Terminal.cut?_separator (by decide)] at hcut
          exact ih hu.2 (congrArg Prod.snd (Option.some.inj hcut)).symm
      · rcases gapCut?_cases hgap with ⟨ds, hcs, _⟩ | ⟨d, ds, hd, hcs, _, hrest⟩
        · rw [(List.cons.inj hcs).1] at hu
          exact absurd hu.1 (by decide)
        · cases hcs
          have hcolon : ∀ c ∈ (':' :: (v ++ '\x7b' :: xs)).head?, isGapBlank c = false := by
            rintro _ ⟨⟩
            decide
          refine ih (u := u.dropWhile isGapBlank) (fun c hc => ?_) ?_
          · exact hu.2 c ((List.dropWhile_suffix _).subset hc)
          · rw [← dropWhile_append_of_head hcolon]
            exact hrest

/-! ## The end of a piece -/

/-- Whether a text ends in a lexical character, so that a name behind it would not stand apart. -/
def endsLexical (w : List Char) : Bool :=
  w.getLast?.all isLexical

/-- Behind its first character a terminal has lexical characters only. -/
theorem Terminal.isLexical_of_cut? {t : Terminal} (ht : t ≠ .text) (ho : t ≠ .opening) {u v : List Char}
    (h : t.cut? cs = some (u ++ c :: v, rest)) (hu : u ≠ []) : isLexical c = true := by
  rw [← Bool.not_eq_false]
  intro hc
  have hcs := (cut?_of h).2
  have hx : Delimits (c :: (v ++ rest)) := by
    rintro _ ⟨⟩
    exact hc
  have happend := cut?_append hx hu ht ho
  have hcs : u ++ c :: (v ++ rest) = cs := by
    rw [← hcs]
    simp
  rw [hcs, h] at happend
  obtain ⟨r, hr, he⟩ := Option.map_eq_some_iff.mp happend.symm
  have hlen := congrArg List.length (cut?_of hr).2
  have htaken := congrArg (List.length ∘ Prod.fst) he
  simp only [Function.comp, Cut.followedBy, List.length_append, List.length_cons] at hlen htaken
  omega

/-- A character that is not lexical stands in a word, a column or a number only where this starts with it. -/
theorem Terminal.not_mem_of_cut? {t : Terminal} (ht : t ≠ .text) (ho : t ≠ .opening) (h : t.cut? cs = some (w, rest))
    (hc : isLexical c = false) (hstart : t.starts c = false) : c ∉ w := by
  intro hmem
  obtain ⟨u, v, rfl⟩ := List.append_of_mem hmem
  by_cases hu : u = []
  · subst hu
    have hcs := (cut?_of h).2
    rw [← hcs] at h
    have := starts_of_cut? h
    rw [hstart] at this
    cases this
  · have := isLexical_of_cut? ht ho h hu
    rw [hc] at this
    cases this

theorem Terminal.endsLexical_of_cut? {t : Terminal} (ht : t ≠ .text) (ho : t ≠ .opening)
    (hm : t.isMark = false) (h : t.cut? cs = some (w, rest)) : endsLexical w = true := by
  rcases List.eq_nil_or_concat w with rfl | ⟨u, c, rfl⟩
  · rfl
  · rw [List.concat_eq_append] at h ⊢
    rw [endsLexical, List.getLast?_append, List.getLast?_singleton]
    change isLexical c = true
    by_cases hu : u = []
    · subst hu
      have hcs : c :: rest = cs := (cut?_of h).2
      rw [← hcs] at h
      have hstart := starts_of_cut? h
      cases t with
      | text => exact absurd rfl ht
      | opening => exact absurd rfl ho
      | separator => cases hm
      | comma => cases hm
      | equal => cases hm
      | closing => cases hm
      | column =>
        change columnCut? (c :: rest) = _ at h
        unfold columnCut? at h
        split at h
        next hcs =>
          cases hcs
          obtain ⟨r, hr, he⟩ := Option.map_eq_some_iff.mp h
          exact absurd (List.cons.inj (congrArg Prod.fst he)).2 (runCut?_of hr).1
        next => cases h
      | pragmaWord =>
        change wordCut? _ _ = _ at h
        unfold wordCut? at h
        split at h
        next =>
          have := congrArg (Option.map (List.length ∘ Prod.fst)) h
          cases this
        next => cases h
      | _ => exact isLexical_of_starts rfl hstart
    · exact isLexical_of_cut? ht ho h hu

/-! ## Steps -/

/-- Two texts are the same up to a delimiter. -/
def Agree (xs ys : List Char) : Prop :=
  ∃ v us vs, xs = v ++ us ∧ ys = v ++ vs ∧ Delimits us ∧ Delimits vs

/-- Whether a terminal ends with its last character, whatever follows. -/
def Terminal.isClosed (t : Terminal) : Bool :=
  t.isMark || t == .text || t == .opening

theorem Terminal.cut?_closed (hc : t.isClosed = true) (h : t.cut? cs = some (w, rest)) (xs : List Char) :
    t.cut? (w ++ xs) = some (w, xs) := by
  rw [isClosed, Bool.or_eq_true, Bool.or_eq_true, beq_iff_eq, beq_iff_eq] at hc
  rcases hc with (hm | rfl) | rfl
  · exact cut?_mark hm h xs
  · exact textCut?_followedBy h xs
  · obtain ⟨u, v, hu, hv, hw, -⟩ := openingCut?_eq_some.mp h
    exact openingCut?_eq_some.mpr ⟨u, v, hu, hv, hw, rfl⟩

namespace State

/-- A mark, a text or an opening is read whatever follows. -/
theorem step?_closed (hc : t.isClosed = true) (hnext : s.next? t = some s') (h : t.cut? cs = some (w, rest))
    (xs : List Char) : s.step? (w ++ xs) = some (⟨some t, w⟩, s', xs) := by
  have hcut := Terminal.cut?_closed hc h xs
  by_cases ho : t = .opening
  · subst ho
    exact step?_of_opening hnext hcut
  · have hw : t.isWord = false := by
      cases t <;> first | rfl | exact absurd rfl ho | cases hc
    refine step?_of_only hnext hcut fun u hu => .inr ?_
    obtain ⟨c, ds, rfl⟩ := List.exists_cons_of_ne_nil (Terminal.cut?_of h).1
    apply Terminal.cut?_eq_none_of_starts
    rw [← Bool.not_eq_true]
    exact fun hc => hu (Terminal.eq_of_starts hw (Terminal.starts_of_cut? hcut) hc)

/-- A name starts a statement. -/
theorem step?_name (h : nameCut? cs = some (w, rest)) :
    State.statement.step? cs = some (⟨some .name, w⟩, .arguments none, rest) := by
  obtain ⟨c, ds, rfl⟩ : ∃ c ds, cs = c :: ds := by
    apply List.exists_cons_of_ne_nil
    rintro rfl
    cases h
  have hstart : Terminal.name.starts c = true := runCut?_starts h
  refine step?_of_only rfl h ?_
  intro u hu
  cases u with
  | separator | pragmaWord =>
    refine .inr (Terminal.cut?_eq_none_of_starts ?_)
    rw [← Bool.not_eq_true]
    intro hc
    cases Terminal.eq_of_starts rfl hc hstart
  | name => exact absurd rfl hu
  | _ => exact .inl rfl

/-- A gap is read in every state. -/
theorem step?_gap (h : gapCut? cs = some (w, rest)) : s.step? cs = some (⟨none, w⟩, s, rest) := by
  refine step?_of_gap (fun t => .inr ?_) h
  rcases gapCut?_cases h with ⟨ds, rfl, _⟩ | ⟨d, ds, hd, rfl, _⟩
  · exact Terminal.cut?_eq_none_of_starts t.not_starts_slash
  · exact Terminal.cut?_eq_none_of_starts (t.not_starts_of_isGapBlank hd)

end State

/-- A gap goes on in the same way where the text behind it goes on in another line or with another character
than a blank, as before. -/
theorem gapCut?_follow (h : gapCut? (w ++ rest) = some (w, rest))
    (hn : (∀ c ∈ rest.head?, c = '\n') → ∀ c ∈ xs.head?, c = '\n')
    (hb : (∀ c ∈ rest.head?, isGapBlank c = false) → ∀ c ∈ xs.head?, isGapBlank c = false) :
    gapCut? (w ++ xs) = some (w, xs) := by
  rcases gapCut?_cases h with ⟨ds, _, hw, hrest⟩ | ⟨d, ds, hd, _, hw, hrest⟩
  · simp only at hw hrest
    have hnewline : ∀ c ∈ rest.head?, c = '\n' := by
      intro c hc
      rw [hrest] at hc
      simpa using head?_dropWhile _ c hc
    rw [hw]
    refine gapCut?_comment (fun hmem => ?_) (hn hnewline)
    simpa using List.mem_takeWhile_imp hmem
  · simp only at hw hrest
    have hblank : ∀ c ∈ rest.head?, isGapBlank c = false := by
      rw [hrest]
      exact head?_dropWhile _
    rw [hw]
    exact gapCut?_blanks hd (fun c => List.mem_takeWhile_imp) (hb hblank)

/-- A name is a run of its characters, and none of them follows. -/
theorem nameCut?_again (h : nameCut? (w ++ rest) = some (w, rest)) :
    (∃ c ds, w = c :: ds ∧ isNameStart c = true) ∧ (∀ c ∈ w, isNameChar c = true) ∧
      ∀ c ∈ rest.head?, isNameChar c = false := by
  obtain ⟨c, ds, rfl⟩ := List.exists_cons_of_ne_nil (runCut?_of h).1
  have hrun : runCut? isNameStart isNameChar (c :: (ds ++ rest)) = some (c :: ds, rest) := h
  have hstart := runCut?_starts hrun
  rw [runCut?, if_pos hstart, Option.some.injEq, Prod.mk.injEq] at hrun
  have hc : isNameChar c = true := by
    rw [isNameChar, isWordChar_of_isNameStart hstart, Bool.or_true]
  refine ⟨⟨c, ds, rfl, hstart⟩, List.forall_mem_cons.mpr ⟨hc, ?_⟩, ?_⟩
  · rw [← (List.cons.inj hrun.1).2]
    exact fun d => List.mem_takeWhile_imp
  · rw [← hrun.2]
    exact head?_dropWhile _

/-- A name in front of a text that can be scanned opens no properties. -/
theorem openingCut?_eq_none (hcut : nameCut? (w ++ cs) = some (w, cs)) (h : Scanned s cs ps) :
    openingCut? (w ++ cs) = none := by
  obtain ⟨-, hw, hhead⟩ := nameCut?_again hcut
  cases hopen : openingCut? (w ++ cs) with
  | none => rfl
  | some r =>
    obtain ⟨u, v, hu, hv, hr, hcs⟩ := openingCut?_eq_some.mp hopen
    rw [hr] at hcs
    -- both sides start with the same run of a name
    have hmark : ∀ d ∈ (u ++ ':' :: (v ++ '\x7b' :: r.2)).head?, isNameChar d = false := by
      cases u with
      | nil =>
        rintro _ ⟨⟩
        exact isNameChar_mark (by decide)
      | cons b u =>
        rintro _ ⟨⟩
        rw [← Bool.not_eq_true]
        intro hb
        have := not_isBlank_of_isLexical (isLexical_of_isNameChar hb)
        rw [hu b List.mem_cons_self] at this
        cases this
    have hcs : w ++ cs = "prop".toList ++ (u ++ ':' :: (v ++ '\x7b' :: r.2)) := by
      rw [hcs]
      simp
    have hname : w = "prop".toList := by
      have htake := congrArg (List.takeWhile isNameChar) hcs
      rw [takeWhile_append_of_head hhead, takeWhile_append_of_head hmark, List.takeWhile_eq_self_iff.mpr hw]
        at htake
      rw [htake]
      decide
    rw [hname] at hcs
    exact absurd (List.append_cancel_left hcs) (h.not_opening hu hv)

/-- A terminal that is not closed is cut again where the text behind it is the same up to a delimiter. -/
theorem Terminal.cut?_agree (hc : t.isClosed = false) (h : t.cut? (w ++ rest) = some (w, rest))
    (ha : Agree rest xs) : t.cut? (w ++ xs) = some (w, xs) := by
  obtain ⟨v, us, vs, rfl, rfl, hu, hv⟩ := ha
  have htext : t ≠ .text := by
    rintro rfl
    cases hc
  have hopening : t ≠ .opening := by
    rintro rfl
    cases hc
  have hne : w ≠ [] := (cut?_of h).1
  have hwv : w ++ v ≠ [] := by simp [hne]
  rw [← List.append_assoc, cut?_append hu hwv htext hopening] at h
  obtain ⟨r, hr, he⟩ := Option.map_eq_some_iff.mp h
  rw [← List.append_assoc, cut?_append hv hwv htext hopening, hr]
  simp only [Cut.followedBy, Prod.mk.injEq, Option.map_some] at he ⊢
  rw [he.1, List.append_cancel_right he.2]

/-- A terminal that is not closed is read again where the text behind it is the same up to a delimiter, and in
every state in which no further terminal can be read. -/
theorem State.step?_agree {s₁ s₂' : State} (hc : t.isClosed = false)
    (h : s.step? (w ++ rest) = some (⟨some t, w⟩, s', rest)) (ha : Agree rest xs) (hq : Scanned s₁ xs ps)
    (hstate : ∀ u, s.next? u = none → s₂.next? u = none ∨ u.cut? (w ++ xs) = none)
    (hnext : s₂.next? t = some s₂') : s₂.step? (w ++ xs) = some (⟨some t, w⟩, s₂', xs) := by
  have hcut : t.cut? (w ++ rest) = some (w, rest) := by
    rcases step?_cases h with ⟨t', ht, _, hcut⟩ | ⟨ht, _⟩
    · cases ht
      exact hcut
    · cases ht
  have hagain := Terminal.cut?_agree hc hcut ha
  obtain ⟨c, ds, rfl⟩ : ∃ c ds, w = c :: ds := List.exists_cons_of_ne_nil (Terminal.cut?_of hcut).1
  have hstart : t.starts c = true := Terminal.starts_of_cut? hcut
  refine step?_transfer h ?_ hnext hagain
  rintro u (hnone | hnone)
  · exact hstate u hnone
  · right
    by_cases hu : u.isClosed = true
    · by_cases hname : u = .opening ∧ t = .name
      · obtain ⟨rfl, rfl⟩ := hname
        exact openingCut?_eq_none hagain hq
      · -- no other closed terminal starts as this one does
        apply Terminal.cut?_eq_none_of_starts
        rw [← Bool.not_eq_true]
        intro hstart'
        by_cases ho : u = .opening
        · subst ho
          obtain rfl : c = 'p' := beq_iff_eq.mp hstart'
          have hnames : ∀ t : Terminal, t.starts 'p' = true → t = .name ∨ t = .opening := by
            intro t
            cases t <;> decide
          rcases hnames t hstart with rfl | rfl
          · exact hname ⟨rfl, rfl⟩
          · cases hc
        · have hw : u.isWord = false := by
            cases u <;> first | rfl | exact absurd rfl ho | cases hu
          rw [Terminal.eq_of_starts hw hstart' hstart, hu] at hc
          cases hc
    · rw [Bool.not_eq_true] at hu
      cases hcut' : u.cut? (c :: ds ++ xs) with
      | none => rfl
      | some r =>
        obtain ⟨v, us, vs, rfl, rfl, hus, hvs⟩ := ha
        have htext : u ≠ .text := by
          rintro rfl
          cases hu
        have hopening : u ≠ .opening := by
          rintro rfl
          cases hu
        have hne : c :: ds ++ v ≠ [] := by simp
        rw [← List.append_assoc, Terminal.cut?_append hus hne htext hopening, Option.map_eq_none_iff] at hnone
        rw [← List.append_assoc, Terminal.cut?_append hvs hne htext hopening, hnone] at hcut'
        cases hcut'

/-- A blank may stand in front of a text that starts with none. -/
theorem Scanned.blank (h : Scanned s cs ps) (hc : ∀ c ∈ cs.head?, isGapBlank c = false) :
    Scanned s (' ' :: cs) (⟨none, [' ']⟩ :: ps) :=
  .step (State.step?_gap (gapCut?_blanks (u := []) rfl (by simp) hc)) h

/-- A terminal that may come next starts a text that starts with a word character. -/
theorem Scanned.exists_starts (h : Scanned s (c :: cs) ps) (hc : Text.isWordChar c = true) :
    ∃ t, (s.next? t).isSome = true ∧ t.starts c = true := by
  cases h with
  | step hstep _ =>
    rcases State.step?_cases hstep with ⟨t, -, hnext, hcut⟩ | ⟨-, -, hgap, -⟩
    · exact ⟨t, by rw [hnext]; rfl, Terminal.starts_of_cut? hcut⟩
    · exfalso
      have hnot : Text.isWordChar '/' = false ∧ ∀ d, isGapBlank d = true → Text.isWordChar d = false := by
        refine ⟨by decide +kernel, fun d hd => ?_⟩
        rcases isGapBlank_iff.mp hd with rfl | rfl | rfl | rfl <;> decide +kernel
      rcases gapCut?_cases hgap with ⟨ds, hcs, -⟩ | ⟨d, ds, hd, hcs, -⟩
      · obtain rfl : c = '/' := (List.cons.inj hcs).1
        rw [hnot.1] at hc
        cases hc
      · obtain rfl : c = d := (List.cons.inj hcs).1
        rw [hnot.2 c hd] at hc
        cases hc

end RowRecipe.Grammar
