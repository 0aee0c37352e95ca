import RowRecipe.Proofs.Grammar.Spacing
import RowRecipe.Proofs.Script.Apart
import RowRecipe.Proofs.Script.Meanings
import RowRecipe.Proofs.Script.Taking

/-!
# Directives written back

The literals of a directive, with single blanks between them, are its pieces with single blanks between its
arguments. So they are a recipe with one group, and its tokens mean what they meant before.
-/

namespace RowRecipe.Script

open Grammar

variable {s s' : State} {cs w : List Char} {ps : List Piece} {place : Place} {source : String}

/-! ## Literals -/

theorem toList_intercalate_cons {sep : String} {c : Char} (hsep : sep.toList = [c]) (s : String) (ss : List String) :
    (sep.intercalate (s :: ss)).toList = s.toList ++ ss.flatMap fun t => c :: t.toList := by
  induction ss generalizing s with
  | nil => simp
  | cons t ss ih => simp [String.intercalate_cons_cons, ih, hsep]

theorem toList_literal_ofItems {α : Type} (one : α → Meaning) (several : List α → Meaning) (value : Lexeme → α)
    (first : Lexeme) (more : List Lexeme) :
    (Token.ofItems one several value first more).literal.toList =
      first.text.toList ++ more.flatMap fun l => ',' :: l.text.toList := by
  unfold Token.ofItems
  cases more with
  | nil => simp
  | cons l more =>
    have hlist := toList_intercalate_cons (show ",".toList = [','] from rfl) first.text ((l :: more).map (·.text))
    rw [List.flatMap_map] at hlist
    exact hlist

/-- A quantity has the literal that it is read from. -/
theorem literal_of_token_quantity {kind : UnitKind} {l : Lexeme} {t : Token}
    (h : (Argument.quantity kind l).token source = .ok t) : t.literal = Text.trimmed l.text := by
  obtain ⟨q, hq, rfl⟩ := Argument.token_quantity.mp h
  have hliteral : q.literal = Text.trimmed l.text := by
    unfold Quantity.ofText at hq
    simp only at hq
    split at hq
    next => cases hq
    next =>
      split at hq
      next => cases hq
      next =>
        split at hq
        next => cases hq
        next =>
          split at hq <;> cases hq
          rfl
  cases kind <;> exact hliteral

/-- The literal of an argument other than properties is its text, with commas between the items of a list. -/
theorem literal_starting {l : Lexeme} {more : List Lexeme} {t : Token}
    (hmore : l.terminal.isListed = true ∨ more = [])
    (htrim : l.terminal = .byteSize ∨ l.terminal = .duration → Text.trimmed l.text = l.text)
    (h : (Argument.starting l more).token source = .ok t) :
    t.literal.toList = l.text.toList ++ more.flatMap fun k => ',' :: k.text.toList := by
  have single (hl : l.terminal.isListed = false) (ht : t.literal = l.text) :
      t.literal.toList = l.text.toList ++ more.flatMap fun k => ',' :: k.text.toList := by
    rcases hmore with hlisted | rfl
    · rw [hl] at hlisted
      cases hlisted
    · rw [ht, List.flatMap_nil, List.append_nil]
  rw [Argument.starting] at h
  cases hl : l.terminal <;> rw [hl] at h
  case column | text | number =>
    cases h
    exact toList_literal_ofItems _ _ _ l more
  case byteSize | duration =>
    exact single (by rw [hl]; rfl) ((literal_of_token_quantity h).trans (htrim (by simp [hl])))
  case malformedUnit => cases h
  all_goals
    refine single (by rw [hl]; rfl) ?_
    rw [Argument.token.eq_def] at h
    dsimp only at h
    split at h <;> cases h <;> rfl

theorem trimmed_of_cut? {t : Terminal} {rest : List Char} (ht : t = .byteSize ∨ t = .duration)
    (h : t.cut? (w ++ rest) = some (w, rest)) : Text.trimmed (String.ofList w) = String.ofList w := by
  have hlexical : endsLexical w = true := by
    rcases ht with rfl | rfl
    · exact Terminal.endsLexical_of_cut? (t := .byteSize) (by simp) (by simp) rfl h
    · exact Terminal.endsLexical_of_cut? (t := .duration) (by simp) (by simp) rfl h
  obtain ⟨c, cs, rfl⟩ := List.exists_cons_of_ne_nil (Terminal.cut?_of h).1
  refine Text.trimmed_of_ends (not_isBlank_of_isLexical ?_) fun d hd => not_isBlank_of_isLexical ?_
  · rcases ht with rfl | rfl
    · exact Terminal.isLexical_of_starts rfl (Terminal.starts_of_cut? h)
    · exact Terminal.isLexical_of_starts rfl (Terminal.starts_of_cut? h)
  · rw [endsLexical, Option.mem_def.mp hd] at hlexical
    exact hlexical

/-! ## Lists -/

/-- Where a statement cannot end, a terminal follows behind gaps. -/
theorem exists_terminal (h : Scanned s cs ps) (hs : s.isFinal = false) :
    ∃ gs t w ps' s', ps = gs ++ ⟨some t, w⟩ :: ps' ∧ (∀ g ∈ gs, g.terminal? = none) ∧ s.next? t = some s' ∧
      Scanned s' (Piece.textOf ps') ps' := by
  induction h with
  | done hf =>
    rw [hs] at hf
    cases hf
  | @step s s' cs rest p ps hstep hps ih =>
    obtain ⟨t?, w⟩ := p
    rcases State.step?_cases hstep with ⟨t, ht, hnext, _⟩ | ⟨ht, rfl, _⟩
    · obtain rfl : t? = some t := ht
      have hrest : Scanned s' (Piece.textOf ps) ps := hps.text ▸ hps
      exact ⟨[], t, w, ps, s', rfl, by simp, hnext, hrest⟩
    · obtain rfl : t? = none := ht
      obtain ⟨gs, t, w', ps', s', rfl, hgs, hnext, hrest⟩ := ih hs
      exact ⟨⟨none, w⟩ :: gs, t, w', ps', s', rfl, List.forall_mem_cons.mpr ⟨rfl, hgs⟩, hnext, hrest⟩

theorem respaced_gaps {gs : List Piece} (hgs : ∀ g ∈ gs, g.terminal? = none) (hs : s.inProperties = false)
    (ps : List Piece) : respaced s (gs ++ ps) = respaced s ps := by
  induction gs with
  | nil => rfl
  | cons g gs ih =>
    rw [List.forall_mem_cons] at hgs
    rw [List.cons_append, respaced_gap hgs.1 hs, ih hgs.2]

/-- Whether all terminals among pieces have a meaning in a directive. -/
def AreMeant (ps : List Piece) : Prop :=
  ∀ p ∈ ps, ∀ t, p.terminal? = some t → t.isMeant = true

theorem AreMeant.cons {p : Piece} (hp : ∀ t, p.terminal? = some t → t.isMeant = true) (h : AreMeant ps) :
    AreMeant (p :: ps) :=
  List.forall_mem_cons.mpr ⟨hp, h⟩

theorem AreMeant.append {us vs : List Piece} (hu : AreMeant us) (hv : AreMeant vs) : AreMeant (us ++ vs) :=
  fun p hp => (List.mem_append.mp hp).elim (hu p) (hv p)

theorem areMeant_gaps {gs : List Piece} (hgs : ∀ g ∈ gs, g.terminal? = none) : AreMeant gs := by
  intro g hg t ht
  rw [hgs g hg] at ht
  cases ht

/-- The pieces `us` continue a list of the kind, and the list ends before the pieces `vs`. -/
structure Joins (kind : Terminal) (us vs : List Piece) : Prop where
  meant : AreMeant us
  rest : Scanned (.arguments (some kind)) (Piece.textOf vs) vs
  head : ∀ place : Place, ∀ l ∈ (locate place vs).head?, l.terminal ≠ .comma
  behind : ∀ place : Place, (joined (locate place (us ++ vs))).2 = locate (place.after (Piece.textOf us)) vs
  text : ∀ place : Place, Piece.textOf (respaced (.arguments (some kind)) (us ++ vs)) =
    ((joined (locate place (us ++ vs))).1.flatMap fun l => ',' :: l.text.toList) ++
      Piece.textOf (respaced (.arguments (some kind)) vs)

namespace Joins

variable {kind : Terminal} {us vs : List Piece}

theorem nil (h : Scanned (.arguments (some kind)) (Piece.textOf vs) vs)
    (hhead : ∀ place : Place, ∀ l ∈ (locate place vs).head?, l.terminal ≠ .comma) : Joins kind [] vs := by
  refine ⟨areMeant_gaps (by simp), h, hhead, fun place => ?_, fun place => ?_⟩
  · rw [List.nil_append, joined_of_head (hhead place)]
    rfl
  · rw [List.nil_append, joined_of_head (hhead place)]
    rfl

theorem gap {p : Piece} (hp : p.terminal? = none) (h : Joins kind us vs) : Joins kind (p :: us) vs := by
  have hlocate (place : Place) : locate place (p :: (us ++ vs)) = locate (place.after p.text) (us ++ vs) := by
    rw [locate, hp]
    rfl
  refine ⟨h.meant.cons fun t ht => ?_, h.rest, h.head, fun place => ?_, fun place => ?_⟩
  · rw [hp] at ht
    cases ht
  · rw [List.cons_append, hlocate, h.behind, Piece.textOf_cons, Place.after_append]
  · rw [List.cons_append, hlocate, respaced_gap hp rfl, h.text]

theorem item {gs : List Piece} {v : List Char} (hk : kind.isListed = true) (hgs : ∀ g ∈ gs, g.terminal? = none)
    (h : Joins kind us vs) : Joins kind (⟨some .comma, [',']⟩ :: (gs ++ ⟨some kind, v⟩ :: us)) vs := by
  have hmeant : kind.isMeant = true := by
    cases kind <;> first | rfl | cases hk
  have hlocate (place : Place) : locate place (⟨some .comma, [',']⟩ :: (gs ++ ⟨some kind, v⟩ :: (us ++ vs))) =
      ⟨.comma, String.ofList [','], place⟩ ::
        ⟨kind, String.ofList v, (place.after [',']).after (Piece.textOf gs)⟩ ::
          locate (((place.after [',']).after (Piece.textOf gs)).after v) (us ++ vs) := by
    rw [locate, locate_gaps hgs]
    rfl
  have hpieces : ⟨some .comma, [',']⟩ :: (gs ++ ⟨some kind, v⟩ :: us) ++ vs =
      ⟨some .comma, [',']⟩ :: (gs ++ ⟨some kind, v⟩ :: (us ++ vs)) := by simp
  have hrespaced : respaced (.arguments (some kind)) (⟨some .comma, [',']⟩ :: (gs ++ ⟨some kind, v⟩ :: (us ++ vs))) =
      ⟨some .comma, [',']⟩ :: ⟨some kind, v⟩ :: respaced (.arguments (some kind)) (us ++ vs) := by
    have hcomma : (State.arguments (some kind)).after ⟨some .comma, [',']⟩ = .item kind := rfl
    have hitem : (State.item kind).after ⟨some kind, v⟩ = .arguments (some kind) := by
      simp [State.after, State.next?]
    rw [respaced_more rfl rfl, hcomma, respaced_gaps hgs rfl, respaced_more rfl rfl, hitem]
  refine ⟨?_, h.rest, h.head, fun place => ?_, fun place => ?_⟩
  · refine .cons (fun t ht => ?_) ((areMeant_gaps hgs).append (.cons (fun t ht => ?_) h.meant))
    · cases ht
      rfl
    · cases ht
      exact hmeant
  · rw [hpieces, hlocate, joined_comma rfl, h.behind]
    simp only [Piece.textOf_cons, Piece.textOf_append, Place.after_append]
  · rw [hpieces, hlocate, joined_comma rfl, hrespaced, Piece.textOf_cons, Piece.textOf_cons,
      h.text (((place.after [',']).after (Piece.textOf gs)).after v)]
    simp

end Joins

theorem exists_joins {kind : Terminal} (hk : kind.isListed = true)
    (h : Scanned (.arguments (some kind)) (Piece.textOf ps) ps) : ∃ us vs, ps = us ++ vs ∧ Joins kind us vs := by
  induction hn : ps.length using Nat.strong_induction_on generalizing ps with
  | _ n ih =>
    subst hn
    cases ps with
    | nil => exact ⟨[], [], rfl, .nil h fun place => by simp [locate]⟩
    | cons p ps =>
      have hu := h.uncons
      obtain ⟨t?, w⟩ := p
      rcases State.step?_cases hu.step with ⟨t, ht, hnext, hcut⟩ | ⟨ht, hafter, _⟩
      · obtain rfl : t? = some t := ht
        by_cases hcomma : t = .comma
        · subst hcomma
          have hitem : (State.arguments (some kind)).after ⟨some .comma, w⟩ = .item kind := rfl
          have hrest := hu.rest
          rw [hitem] at hrest
          obtain ⟨gs, t, v, ps, s, rfl, hgs, hnext, hps⟩ := exists_terminal hrest rfl
          obtain ⟨rfl, rfl⟩ : kind = t ∧ s = .arguments (some kind) := by
            have hnext : (if t = kind then some (State.arguments (some kind)) else none) = some s := hnext
            split at hnext
            next ht => exact ⟨ht.symm, (Option.some.inj hnext).symm⟩
            next => cases hnext
          have hword : w = [','] := by
            change wordCut? [','] _ = _ at hcut
            unfold wordCut? at hcut
            split at hcut
            next => exact (congrArg Prod.fst (Option.some.inj hcut)).symm
            next => cases hcut
          obtain ⟨us, vs, rfl, hjoins⟩ := ih ps.length (by simp; omega) hps rfl
          subst hword
          exact ⟨⟨some .comma, [',']⟩ :: (gs ++ ⟨some kind, v⟩ :: us), vs, by simp, hjoins.item hk hgs⟩
        · refine ⟨[], _, rfl, .nil h fun place => ?_⟩
          rintro _ ⟨⟩
          exact hcomma
      · obtain rfl : t? = none := ht
        have hrest := hu.rest
        rw [hafter] at hrest
        obtain ⟨us, vs, rfl, hjoins⟩ := ih ps.length (Nat.lt_succ_self _) hrest rfl
        exact ⟨⟨none, w⟩ :: us, vs, rfl, hjoins.gap rfl⟩

/-! ## Properties -/

/-- Properties go on to their closing brace, and respacing leaves them alone. -/
theorem exists_closing (h : Scanned s cs ps) (hs : s.inProperties = true) :
    ∃ us w vs, ps = us ++ ⟨some .closing, w⟩ :: vs ∧ AreMeant us ∧ (∀ p ∈ us, p.terminal? ≠ some .closing) ∧
      Scanned (.arguments none) (Piece.textOf vs) vs ∧
      respaced s ps = us ++ ⟨some .closing, w⟩ :: respaced (.arguments none) vs := by
  induction h with
  | @done s hf => cases s <;> first | (cases hs; done) | cases hf
  | @step s s' cs rest p ps hstep hps ih =>
    have hafter := State.after_of_step? hstep
    obtain ⟨t?, w⟩ := p
    rcases State.step?_cases hstep with ⟨t, ht, hnext, _⟩ | ⟨ht, rfl, _⟩
    · obtain rfl : t? = some t := ht
      obtain ⟨-, hmore, hclosing⟩ := State.next?_inProperties hs hnext
      have hstart : s.startsArgument t = false := by
        cases s <;> first | rfl | cases hs
      rw [respaced_more rfl hstart, hafter]
      by_cases hc : t = .closing
      · subst hc
        obtain rfl := hclosing rfl
        exact ⟨[], w, ps, rfl, areMeant_gaps (by simp), by simp, hps.text ▸ hps, rfl⟩
      · obtain ⟨us, v, vs, rfl, hmeant, hopen, hvs, hrespaced⟩ := ih (hmore hc)
        have hmeant' : t.isMeant = true := by
          cases s <;> first | (cases hs; done) | cases t <;> first | rfl | cases hnext
        refine ⟨⟨some t, w⟩ :: us, v, vs, rfl, hmeant.cons (fun u hu => by cases hu; exact hmeant'), ?_, hvs, ?_⟩
        · exact List.forall_mem_cons.mpr ⟨fun hu => hc (Option.some.inj hu), hopen⟩
        · rw [hrespaced]
          rfl
    · obtain rfl : t? = none := ht
      obtain ⟨us, v, vs, rfl, hmeant, hopen, hvs, hrespaced⟩ := ih hs
      refine ⟨⟨none, w⟩ :: us, v, vs, rfl, hmeant.cons nofun, List.forall_mem_cons.mpr ⟨nofun, hopen⟩, hvs, ?_⟩
      rw [respaced_gap_of_inProperties rfl hs, hrespaced]
      rfl

/-- Behind an opening, the properties end with the first closing brace. -/
theorem propertiesOf_locate {us vs : List Piece} (h : Scanned .firstKey cs (us ++ ⟨some .closing, w⟩ :: vs))
    (hsep : ∀ p ∈ us ++ ⟨some .closing, w⟩ :: vs, p.terminal? ≠ some .separator)
    (hus : ∀ p ∈ us, p.terminal? ≠ some .closing) (place : Place) :
    (propertiesOf (locate place (us ++ ⟨some .closing, w⟩ :: vs))).2 =
      ⟨.closing, String.ofList w, place.after (Piece.textOf us)⟩ ::
        locate ((place.after (Piece.textOf us)).after w) vs := by
  have hcarried : Carried (fun _ _ => False) .firstKey (locate place (us ++ ⟨some .closing, w⟩ :: vs)) _ :=
    carried_of_same h hsep (List.forall₂_same.mpr fun _ _ => ⟨rfl, rfl, rfl⟩)
  have hopen : ∀ l ∈ locate place us, (l.terminal != .closing) = true := by
    intro l hl
    obtain ⟨p, hp, ht⟩ := terminal_of_mem_locate hl
    rw [bne_iff_ne]
    intro hc
    exact hus p hp (by rw [ht, hc])
  rw [(hcarried.propertiesOf (.inl rfl)).2.1, locate_append, List.dropWhile_append_of_pos hopen]
  rfl

/-! ## Arguments -/

/-- The piece `p` and the pieces `us` behind it are the first argument in a text of `before` and pieces, and the
pieces `vs` stand behind it. -/
structure First (before : List Char) (list : Option Terminal) (p : Piece) (us vs : List Piece)
    (list' : Option Terminal) (arg : Argument) : Prop where
  arguments : argumentsOf (locate (Place.origin.after before) (p :: (us ++ vs))) =
    arg :: argumentsOf (locate (Place.origin.after (before ++ Piece.textOf (p :: us))) vs)
  rest : Scanned (.arguments list') (Piece.textOf vs) vs
  head : ∀ place : Place, ∀ l ∈ (locate place vs).head?, l.terminal ≠ .comma
  spelled : ∀ t, arg.token (String.ofList (before ++ Piece.textOf (p :: (us ++ vs)))) = .ok t →
    AreMeant (p :: us) ∧ Piece.textOf (respaced (.arguments list) (p :: (us ++ vs))) =
      ' ' :: t.literal.toList ++ Piece.textOf (respaced (.arguments list') vs)

theorem head?_ne_comma (h : Scanned (.arguments none) cs ps) (hsep : ∀ p ∈ ps, p.terminal? ≠ some .separator)
    (place : Place) : ∀ l ∈ (locate place ps).head?, l.terminal ≠ .comma :=
  (carried_of_same (Q := fun _ _ => False) h hsep (List.forall₂_same.mpr fun _ _ => ⟨rfl, rfl, rfl⟩)).head?_ne_comma

section

variable {before : List Char} {list : Option Terminal} {t : Terminal}

theorem exists_first_opening (before : List Char) (hu : Uncons (.arguments list) cs ⟨some .opening, w⟩ ps)
    (hsep : ∀ p ∈ ps, p.terminal? ≠ some .separator) :
    ∃ us vs arg, ps = us ++ vs ∧ First before list ⟨some .opening, w⟩ us vs none arg := by
  have hfirstKey : (State.arguments list).after ⟨some .opening, w⟩ = .firstKey := rfl
  have hrest := hu.rest
  rw [hfirstKey] at hrest
  obtain ⟨us, v, vs, rfl, hmeant, hopen, hvs, hrespaced⟩ := exists_closing hrest rfl
  have hpieces : us ++ [⟨some .closing, v⟩] ++ vs = us ++ ⟨some .closing, v⟩ :: vs := by simp
  have htext : Piece.textOf (⟨some .opening, w⟩ :: (us ++ [⟨some .closing, v⟩])) = w ++ (Piece.textOf us ++ v) := by
    rw [Piece.textOf_cons, Piece.textOf_append, Piece.textOf_singleton]
  have hclosing := propertiesOf_locate hrest hsep hopen ((Place.origin.after before).after w)
  refine ⟨us ++ [⟨some .closing, v⟩], vs, .properties ⟨.opening, String.ofList w, Place.origin.after before⟩
    (propertiesOf (locate ((Place.origin.after before).after w) (us ++ ⟨some .closing, v⟩ :: vs))).1
    ⟨.closing, String.ofList v, ((Place.origin.after before).after w).after (Piece.textOf us)⟩, hpieces.symm, ?_, hvs,
    head?_ne_comma hvs fun p hp => hsep p (by simp [hp]), fun t ht => ?_⟩
  · rw [hpieces, htext, Place.after_append, Place.after_append, Place.after_append]
    exact argumentsOf_opening rfl hclosing
  · cases ht
    have hslice := slice_within before (Piece.textOf vs) 0 (Nat.le_refl (w ++ (Piece.textOf us ++ v)).length)
    have hstart : (Place.origin.after before).offset = before.length + 0 := by
      rw [Place.after_offset, Place.origin, Nat.zero_add, Nat.add_zero]
    have hstop : (⟨.closing, String.ofList v, ((Place.origin.after before).after w).after (Piece.textOf us)⟩ : Lexeme).stop =
        before.length + (w ++ (Piece.textOf us ++ v)).length := by
      simp only [Lexeme.stop, Place.after_offset, Place.origin, String.length_ofList, List.length_append]
      omega
    have hsource : before ++ Piece.textOf (⟨some .opening, w⟩ :: (us ++ ⟨some .closing, v⟩ :: vs)) =
        before ++ (w ++ (Piece.textOf us ++ v)) ++ Piece.textOf vs := by
      simp [Piece.textOf_cons, Piece.textOf_append]
    have hend : AreMeant [⟨some .closing, v⟩] := (areMeant_gaps (by simp)).cons fun t ht => by cases ht; rfl
    refine ⟨(hmeant.append hend).cons fun t ht => by cases ht; rfl, ?_⟩
    dsimp only
    rw [hpieces, respaced_start rfl rfl, hfirstKey, hrespaced, hsource, hstart, hstop, hslice, slice_all,
      String.toList_ofList]
    simp [Piece.textOf_cons, Piece.textOf_append]

theorem exists_first (hu : Uncons (.arguments list) cs ⟨some t, w⟩ ps) (hopen : t ≠ .opening) (hcomma : t ≠ .comma)
    (hsep : ∀ p ∈ ⟨some t, w⟩ :: ps, p.terminal? ≠ some .separator) :
    ∃ us vs list' arg, ps = us ++ vs ∧ First before list ⟨some t, w⟩ us vs list' arg := by
  rw [List.forall_mem_cons] at hsep
  have hterminal : t ≠ .separator := fun ht => hsep.1 (congrArg some ht)
  obtain ⟨hnext, hcut⟩ := hu.reads
  rw [hu.text] at hcut
  have hafter := State.next?_arguments hnext hterminal hcomma hopen
  have hstart : (State.arguments list).startsArgument t = true := by
    simpa [State.startsArgument] using hcomma
  have hrest := hu.rest
  rw [hafter] at hrest
  -- a list goes on behind its first item, any other argument is a single lexeme
  obtain ⟨us, vs, more, rfl, hmeant, hvs, hhead, hmore, hargs, htext⟩ : ∃ us vs more, ps = us ++ vs ∧ AreMeant us ∧
      Scanned (.arguments (if t.isListed then some t else none)) (Piece.textOf vs) vs ∧
      (∀ place : Place, ∀ l ∈ (locate place vs).head?, l.terminal ≠ .comma) ∧ (t.isListed = true ∨ more = []) ∧
      argumentsOf (locate (Place.origin.after before) (⟨some t, w⟩ :: ps)) =
        .starting ⟨t, String.ofList w, Place.origin.after before⟩ more ::
          argumentsOf (locate (((Place.origin.after before).after w).after (Piece.textOf us)) vs) ∧
      Piece.textOf (respaced (.arguments (if t.isListed then some t else none)) ps) =
        (more.flatMap fun l => ',' :: l.text.toList) ++
          Piece.textOf (respaced (.arguments (if t.isListed then some t else none)) vs) := by
    cases hlisted : t.isListed with
    | true =>
      simp only [hlisted, if_true] at hrest ⊢
      obtain ⟨us, vs, rfl, hjoins⟩ := exists_joins hlisted hrest
      refine ⟨us, vs, (joined (locate ((Place.origin.after before).after w) (us ++ vs))).1, rfl, hjoins.meant,
        hjoins.rest, hjoins.head, .inl trivial, ?_, hjoins.text _⟩
      rw [← hjoins.behind]
      exact argumentsOf_listed hlisted
    | false =>
      simp only [hlisted, Bool.false_eq_true, if_false] at hrest ⊢
      exact ⟨[], ps, [], rfl, areMeant_gaps (by simp), hrest, head?_ne_comma hrest hsep.2, .inr rfl,
        argumentsOf_single hlisted hopen, rfl⟩
  refine ⟨us, vs, _, .starting ⟨t, String.ofList w, Place.origin.after before⟩ more, rfl, ?_, hvs, hhead, fun u hu => ?_⟩
  · rw [hargs, Piece.textOf_cons, Place.after_append, Place.after_append]
  · have hliteral := literal_starting (l := ⟨t, String.ofList w, Place.origin.after before⟩) hmore
      (fun hq => trimmed_of_cut? hq hcut) hu
    have hmeant' : t.isMeant = true := by
      cases t with
      | malformedUnit => cases hu
      | version | pragmaWord | versionWord | loadWord => cases hnext
      | _ => rfl
    refine ⟨hmeant.cons fun t' ht => by cases ht; exact hmeant', ?_⟩
    rw [respaced_start rfl hstart, hafter, Piece.textOf_cons, Piece.textOf_cons, htext, hliteral, String.toList_ofList]
    simp

end

/-- Arguments that have tokens are made of terminals with a meaning. Respaced, they are the literals of these
tokens, with a blank before each. -/
theorem text_respaced {list : Option Terminal} (before : List Char)
    (h : Scanned (.arguments list) (Piece.textOf ps) ps) (hsep : ∀ p ∈ ps, p.terminal? ≠ some .separator)
    (hcomma : ∀ l ∈ (locate (Place.origin.after before) ps).head?, l.terminal ≠ .comma) {ts : List Token}
    (ht : (argumentsOf (locate (Place.origin.after before) ps)).mapM
      (Argument.token (String.ofList (before ++ Piece.textOf ps))) = .ok ts) :
    AreMeant ps ∧ Piece.textOf (respaced (.arguments list) ps) = ts.flatMap fun t => ' ' :: t.literal.toList := by
  induction hn : ps.length using Nat.strong_induction_on generalizing ps list before ts with
  | _ n ih =>
    subst hn
    cases ps with
    | nil =>
      rw [locate, argumentsOf_nil] at ht
      cases ht
      exact ⟨areMeant_gaps (by simp), rfl⟩
    | cons p ps =>
      have hu := h.uncons
      obtain ⟨t?, w⟩ := p
      cases t? with
      | none =>
        have hafter : (State.arguments list).after ⟨none, w⟩ = .arguments list := rfl
        have hrest := hu.rest
        rw [hafter] at hrest
        have hlocate (place : Place) : locate place (⟨none, w⟩ :: ps) = locate (place.after w) ps := rfl
        rw [hlocate, ← Place.after_append] at ht hcomma
        rw [Piece.textOf_cons, ← List.append_assoc] at ht
        obtain ⟨hmeant, htext⟩ := ih ps.length (Nat.lt_succ_self _) (before ++ w) hrest
          (fun p hp => hsep p (List.mem_cons_of_mem _ hp)) hcomma ht rfl
        refine ⟨hmeant.cons ?_, by rw [respaced_gap rfl rfl, htext]⟩
        intro t ht
        cases ht
      | some t =>
        obtain ⟨us, vs, list', arg, rfl, hfirst⟩ : ∃ us vs list' arg, ps = us ++ vs ∧
            First before list ⟨some t, w⟩ us vs list' arg := by
          by_cases hopen : t = .opening
          · subst hopen
            obtain ⟨us, vs, arg, hps, hfirst⟩ := exists_first_opening before hu
              fun p hp => hsep p (List.mem_cons_of_mem _ hp)
            exact ⟨us, vs, none, arg, hps, hfirst⟩
          · exact exists_first hu hopen (hcomma _ rfl) hsep
        rw [hfirst.arguments, Argument.mapM_token_cons] at ht
        obtain ⟨u, ts, hu, hts, rfl⟩ := ht
        obtain ⟨hmeant, htext⟩ := hfirst.spelled u hu
        have hsource : before ++ Piece.textOf (⟨some t, w⟩ :: (us ++ vs)) =
            before ++ Piece.textOf (⟨some t, w⟩ :: us) ++ Piece.textOf vs := by
          rw [List.append_assoc, ← Piece.textOf_append]
          rfl
        rw [hsource] at hts
        obtain ⟨hmeant', htext'⟩ := ih vs.length (by rw [List.length_cons, List.length_append]; omega) _ hfirst.rest
          (fun p hp => hsep p (by simp [hp])) (hfirst.head _) hts rfl
        refine ⟨hmeant.append hmeant', ?_⟩
        rw [htext, htext', List.flatMap_cons]

/-! ## Respaced directives -/

theorem not_newline_of_gapCut? {r : Cut} (h : gapCut? cs = some r) : '\n' ∉ r.1 := by
  rcases gapCut?_cases h with ⟨ds, _, hw, _⟩ | ⟨d, ds, hd, _, hw, _⟩
  · rw [hw]
    intro hmem
    have hmem : '\n' ∈ ds.takeWhile (· != '\n') := by simpa using hmem
    cases List.mem_takeWhile_imp hmem
  · rw [hw]
    intro hmem
    have hblank : isGapBlank '\n' = true := by
      rcases List.mem_cons.mp hmem with rfl | hmem
      · exact hd
      · exact List.mem_takeWhile_imp hmem
    cases hblank

/-- Respacing keeps the lexemes and their lines. -/
theorem same_respaced (place place' : Place) (h : Scanned s cs ps) (hline : place'.line = place.line) :
    List.Forall₂ Lexeme.Same (locate place ps) (locate place' (respaced s ps)) := by
  induction h generalizing place place' with
  | done => exact .nil
  | @step s s' cs rest p ps hstep hps ih =>
    have hafter := State.after_of_step? hstep
    obtain ⟨t?, w⟩ := p
    rcases State.step?_cases hstep with ⟨t, ht, _, _⟩ | ⟨ht, rfl, hgap, _⟩
    · obtain rfl : t? = some t := ht
      cases hstart : s.startsArgument t with
      | false =>
        rw [respaced_more rfl hstart, hafter]
        exact .cons ⟨rfl, rfl, hline⟩ (ih _ _ (Place.after_line_eq hline w))
      | true =>
        rw [respaced_start rfl hstart, hafter]
        have hline : (place'.after [' ']).line = place.line := hline
        exact .cons ⟨rfl, rfl, hline⟩ (ih _ _ (Place.after_line_eq hline w))
    · obtain rfl : t? = none := ht
      cases hin : s'.inProperties with
      | true =>
        rw [respaced_gap_of_inProperties rfl hin]
        exact ih _ _ (Place.after_line_eq hline w)
      | false =>
        rw [respaced_gap rfl hin]
        refine ih _ _ ?_
        rw [Place.after_line, List.count_eq_zero.mpr (not_newline_of_gapCut? hgap)]
        exact hline

theorem mem_respaced {p : Piece} (hp : p ∈ respaced s ps) : p ∈ ps ∨ p.terminal? = none := by
  induction ps generalizing s with
  | nil => cases hp
  | cons q ps ih =>
    have more {s' : State} (hp : p ∈ respaced s' ps) : p ∈ q :: ps ∨ p.terminal? = none :=
      (ih hp).imp_left (List.mem_cons_of_mem q)
    rw [respaced] at hp
    split at hp
    next =>
      split at hp
      next =>
        rcases List.mem_cons.mp hp with rfl | hp
        · exact .inl List.mem_cons_self
        · exact more hp
      next => exact more hp
    next =>
      split at hp
      next =>
        rcases List.mem_cons.mp hp with rfl | hp
        · exact .inr rfl
        · rcases List.mem_cons.mp hp with rfl | hp
          · exact .inl List.mem_cons_self
          · exact more hp
      next =>
        rcases List.mem_cons.mp hp with rfl | hp
        · exact .inl List.mem_cons_self
        · exact more hp

theorem getLast?_respaced {p : Piece} {t : Terminal} (hp : p.terminal? = some t) (ps : List Piece) :
    (respaced s (ps ++ [p])).getLast? = some p := by
  induction ps generalizing s with
  | nil =>
    rw [List.nil_append]
    cases hstart : s.startsArgument t with
    | true =>
      rw [respaced_start hp hstart]
      rfl
    | false =>
      rw [respaced_more hp hstart]
      rfl
  | cons q ps ih =>
    rw [List.cons_append, respaced]
    split
    next =>
      split
      next => rw [List.getLast?_cons, ih, Option.getD_some]
      next => exact ih
    next =>
      split
      next => rw [List.getLast?_cons, List.getLast?_cons, ih, Option.getD_some, Option.getD_some]
      next => rw [List.getLast?_cons, ih, Option.getD_some]

/-- A directive with single blanks between its arguments is still one directive. -/
theorem Alone.respaced (h : Alone w ps) (hmeant : AreMeant ps) : Alone w (respaced (.arguments none) ps) := by
  have hrest : Scanned (.arguments none) (Piece.textOf (Grammar.respaced (.arguments none) ps)) _ :=
    scanned_respaced h.rest rfl fun p hp t ht => ⟨hmeant p hp t ht, fun hsep => h.separators p hp (hsep ▸ ht)⟩
  have hname := h.scanned.uncons.step
  refine ⟨.step (State.step?_delimited rfl hname h.rest (delimits_respaced h.rest rfl) hrest) hrest, ?_, ?_⟩
  · intro p hp hsep
    rcases mem_respaced hp with hp | hnone
    · exact h.separators p hp hsep
    · rw [hnone] at hsep
      cases hsep
  · rcases List.eq_nil_or_concat ps with rfl | ⟨us, p, rfl⟩
    · exact h.ends
    · obtain ⟨t, ht⟩ := Option.isSome_iff_exists.mp (h.ends p (by simp))
      rw [List.concat_eq_append, getLast?_respaced ht]
      rintro _ ⟨⟩
      rw [ht]
      rfl

end RowRecipe.Script

namespace RowRecipe.Recipe

open Grammar Script

/-- The literals of a group, with single blanks between them, are a recipe of one group. Its tokens mean what the
tokens of the group mean. -/
theorem ofText_literals {source : String} {r : Recipe} (h : ofText source = .ok r) {g : TokenGroup}
    (hg : g ∈ r.groups) : ∃ g', ofText (" ".intercalate (g.tokens.map (·.literal))) =
        .ok { groups := [g'], version := none, loadable := [] } ∧
      g'.tokens.map (·.meaning) = g.tokens.map (·.meaning) := by
  obtain ⟨w, ps, halone, hts, hname, hsource⟩ := exists_alone h hg
  rw [hsource] at hts
  obtain ⟨hmeant, htext⟩ := text_respaced w halone.rest halone.separators
    (head?_ne_comma halone.rest halone.separators _) hts
  have halone' := halone.respaced hmeant
  have hliterals : " ".intercalate (g.tokens.map (·.literal)) =
      String.ofList (w ++ Piece.textOf (respaced (.arguments none) ps)) := by
    rw [← String.toList_inj, String.toList_ofList, htext, TokenGroup.tokens, List.map_cons,
      toList_intercalate_cons (c := ' ') rfl, List.flatMap_map, hname]
    exact congrArg (· ++ _) String.toList_ofList
  have hcarried := carried_of_same (Q := fun _ _ => False) halone.rest halone.separators
    (same_respaced (Place.origin.after w) (Place.origin.after w) halone.rest rfl)
  obtain ⟨ts', hts', hmeanings⟩ := meanings_of_carried
    (String.ofList (w ++ Piece.textOf (respaced (.arguments none) ps)))
    (hcarried.argumentsOf (head?_ne_comma halone.rest halone.separators _)) hts
  refine ⟨_, hliterals ▸ halone'.ofText hts', ?_⟩
  rw [TokenGroup.tokens, TokenGroup.tokens, List.map_cons, List.map_cons, hmeanings, hname]
  rfl

/-- Every group can be written back, as its source or as its literals with single blanks between them: the source
is a recipe of the same group, and the literals are a recipe of one group whose tokens mean the same. -/
theorem ofText_writtenBack {source : String} {r : Recipe} (h : ofText source = .ok r) {g : TokenGroup}
    (hg : g ∈ r.groups) :
    ofText g.source = .ok { groups := [{ g with line := 1 }], version := none, loadable := [] } ∧
      ∃ g', ofText (" ".intercalate (g.tokens.map (·.literal))) =
          .ok { groups := [g'], version := none, loadable := [] } ∧
        g'.tokens.map (·.meaning) = g.tokens.map (·.meaning) :=
  ⟨ofText_source h hg, ofText_literals h hg⟩

/-- A recipe whose second directive has glued arguments, a text over two lines and blanks in properties. -/
def glued : String :=
  "#pragma version 2.0; trim\ncut 5-3:a, :b.c 1,2MB'x\ny'10KB // rest\nprop prop: \x7b k = 'v' , 'w'=2\x7d"

theorem ofText_writtenBack_glued : ∃ r, ofText glued = .ok r ∧ r.groups.length = 3 ∧ ∀ g ∈ r.groups,
    ofText g.source = .ok { groups := [{ g with line := 1 }], version := none, loadable := [] } ∧
      ∃ g', ofText (" ".intercalate (g.tokens.map (·.literal))) =
          .ok { groups := [g'], version := none, loadable := [] } ∧
        g'.tokens.map (·.meaning) = g.tokens.map (·.meaning) := by
  have hread : (ofText glued).toOption.map (·.groups.length) = some 3 := by decide +kernel
  cases hr : ofText glued with
  | error e =>
    rw [hr] at hread
    cases hread
  | ok r =>
    rw [hr] at hread
    exact ⟨r, rfl, Option.some.inj hread, fun g hg => ofText_writtenBack hr hg⟩

example : (ofText glued).toOption.map (fun r => r.groups.map fun g => " ".intercalate (g.tokens.map (·.literal))) =
    some ["trim", "cut 5 -3 :a,:b.c 1,2 MB 'x\ny' 10KB", "prop prop: \x7b k = 'v' , 'w'=2\x7d"] := by
  decide +kernel

end RowRecipe.Recipe
