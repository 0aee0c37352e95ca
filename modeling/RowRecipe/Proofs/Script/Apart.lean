import RowRecipe.Proofs.Script.Joining

/-!
# Statements apart

Between two separators stands a statement, and the text from its first lexeme to its last one is a recipe of
its own. So the source of a group is a recipe with this group alone.
-/

namespace RowRecipe.Script

open Grammar

variable {s : State} {cs w : List Char} {ps : List Piece} {ls : List Lexeme} {place : Place}

/-! ## The last lexeme -/

theorem joined_getLast? (ls : List Lexeme) : ls.getLast? = (joined ls).2.getLast?.or (joined ls).1.getLast? := by
  fun_induction joined ls with
  | case1 comma l ls _ r ih =>
    rw [List.getLast?_cons_cons, List.getLast?_cons, List.getLast?_cons, ih]
    cases (joined ls).2.getLast? <;> rfl
  | case2 comma l ls => simp
  | case3 ls => simp

theorem Argument.starting_last {l : Lexeme} (more : List Lexeme) (h : l.terminal.isListed = true ∨ more = []) :
    (starting l more).last = more.getLast?.getD l := by
  rw [starting]
  cases ht : l.terminal with
  | column | text | number => exact List.getLastD_eq_getLast?
  | _ =>
    rcases h with h | rfl
    · rw [ht] at h
      cases h
    · rfl

/-- The arguments of a directive end with its last lexeme. -/
theorem Carried.getLast?_argumentsOf {Q : Place → List Char → Prop} {list : Option Terminal} {ls' : List Lexeme}
    (h : Carried Q (.arguments list) ls ls') (hcomma : ∀ l ∈ ls.head?, l.terminal ≠ .comma) :
    (Script.argumentsOf ls).getLast?.map Argument.last = ls.getLast? := by
  have last_cons (a : Argument) (args : List Argument) :
      (a :: args).getLast?.map Argument.last = some ((args.getLast?.map Argument.last).getD a.last) := by
    rw [List.getLast?_cons, Option.map_some, Option.getD_map]
  induction hn : ls.length using Nat.strong_induction_on generalizing list ls ls' with
  | _ n ih =>
    subst hn
    cases h with
    | nil =>
      rw [argumentsOf_nil]
      rfl
    | @same _ s₁ l l' ls ls' hl hsep hnext h =>
      by_cases hopen : l.terminal = .opening
      · rw [hopen] at hnext
        cases hnext
        obtain ⟨-, -, r, r', rest, rest', hrest, -, -, hcarried⟩ := h.propertiesOf (.inl rfl)
        obtain ⟨us, hus⟩ := propertiesOf_suffix ls
        rw [hrest] at hus
        have hmore := ih rest.length (by simp only [← hus, List.length_cons, List.length_append]; omega) hcarried
          hcarried.head?_ne_comma rfl
        rw [argumentsOf_opening hopen hrest, last_cons, hmore, ← hus, List.getLast?_cons, List.getLast?_append,
          List.getLast?_cons]
        rfl
      have hs₁ := State.next?_arguments hnext hsep (hcomma l rfl) hopen
      cases hlisted : l.terminal.isListed with
      | true =>
        rw [hlisted] at hs₁
        subst hs₁
        obtain ⟨-, ⟨list, -, hrest⟩, hhead⟩ := h.joined hlisted
        have hmore := ih _ (Nat.lt_succ_of_le (joined_length ls)) hrest hhead rfl
        rw [argumentsOf_listed hlisted, last_cons, hmore, Argument.starting_last _ (.inl hlisted), List.getLast?_cons,
          joined_getLast? ls]
        cases (Script.joined ls).2.getLast? <;> rfl
      | false =>
        rw [hlisted] at hs₁
        subst hs₁
        have hmore := ih _ (Nat.lt_succ_self _) h h.head?_ne_comma rfl
        rw [argumentsOf_single hlisted hopen, last_cons, hmore, Argument.starting_last _ (.inr rfl), List.getLast?_cons]
        rfl
    | @column _ l l' ls ls' ht _ _ _ h =>
      have hmore := ih _ (Nat.lt_succ_self _) h h.head?_ne_comma rfl
      rw [argumentsOf_single (by rw [ht]; rfl) (by rw [ht]; simp), last_cons, hmore, Argument.starting_last _ (.inr rfl),
        List.getLast?_cons]
      rfl

theorem locate_getLast? {p : Piece} {t : Terminal} (hp : p.terminal? = some t) (place : Place) (ps : List Piece) :
    (locate place (ps ++ [p])).getLast? = some ⟨t, String.ofList p.text, place.after (Piece.textOf ps)⟩ := by
  have hlast (q : Place) : locate q [p] = [⟨t, String.ofList p.text, q⟩] := by
    rw [locate, hp]
    rfl
  rw [locate_append, hlast, List.getLast?_append]
  rfl

/-- Every lexeme is the terminal of a piece, with its text. -/
theorem mem_of_mem_locate {l : Lexeme} (h : l ∈ locate place ps) : ⟨some l.terminal, l.text.toList⟩ ∈ ps := by
  induction ps generalizing place with
  | nil => cases h
  | cons x xs ih =>
    rw [locate, List.mem_append] at h
    rcases h with h | h
    · rw [Option.mem_toList, Option.map_eq_some_iff] at h
      obtain ⟨t, ht, rfl⟩ := h
      rw [← ht, String.toList_ofList]
      exact List.mem_cons_self
    · exact List.mem_cons_of_mem x (ih h)

theorem terminal_of_mem_locate {l : Lexeme} (h : l ∈ locate place ps) : ∃ p ∈ ps, p.terminal? = some l.terminal :=
  ⟨_, mem_of_mem_locate h, rfl⟩

/-- Pieces without separators make up one statement at most. -/
theorem statements_of_stretch (h : ∀ p ∈ ps, p.terminal? ≠ some .separator) (place : Place) :
    (ofLexemes (locate place ps)).statements = (Statement.ofLexemes? (locate place ps)).toList := by
  have hsep : ∀ l ∈ locate place ps, (l.terminal == .separator) = false := by
    intro l hl
    obtain ⟨p, hp, ht⟩ := terminal_of_mem_locate hl
    rw [beq_eq_false_iff_ne]
    intro hterminal
    exact h p hp (by rw [ht, hterminal])
  rw [ofLexemes, List.splitOnP_eq_singleton hsep, List.filterMap_cons]
  cases Statement.ofLexemes? (locate place ps) <;> rfl

theorem mem_locate_of_mem {p : Piece} {t : Terminal} (hp : p ∈ ps) (ht : p.terminal? = some t) :
    ∃ l ∈ locate place ps, l.terminal = t := by
  induction ps generalizing place with
  | nil => cases hp
  | cons x xs ih =>
    rw [locate]
    rcases List.mem_cons.mp hp with rfl | hp
    · exact ⟨⟨t, String.ofList p.text, place⟩, by simp [ht], rfl⟩
    · obtain ⟨l, hl, hterminal⟩ : ∃ l ∈ locate (place.after x.text) xs, l.terminal = t := ih hp
      exact ⟨l, List.mem_append_right _ hl, hterminal⟩

/-- Within a statement, the lexemes carry over to the same lexemes. -/
theorem carried_of_same {Q : Place → List Char → Prop} (h : Scanned s cs ps)
    (hsep : ∀ p ∈ ps, p.terminal? ≠ some .separator) {ls' : List Lexeme}
    (hsame : List.Forall₂ Lexeme.Same (locate place ps) ls') : Carried Q s (locate place ps) ls' := by
  induction h generalizing place ls' with
  | done hf =>
    cases hsame
    exact .nil hf
  | @step s s' cs rest p ps hstep _ ih =>
    rw [List.forall_mem_cons] at hsep
    obtain ⟨t?, w⟩ := p
    rcases State.step?_cases hstep with ⟨t, ht, hnext, _⟩ | ⟨ht, rfl, _⟩
    · obtain rfl : t? = some t := ht
      cases hsame with
      | cons hl hsame =>
        have ht : t ≠ .separator := fun ht => hsep.1 (congrArg some ht)
        exact .same hl ht hnext (ih hsep.2 hsame)
    · obtain rfl : t? = none := ht
      exact ih hsep.2 hsame

/-! ## A directive alone -/

/-- A text that is one directive, from its name to its last lexeme. -/
structure Alone (w : List Char) (ps : List Piece) : Prop where
  scanned : Scanned .statement (w ++ Piece.textOf ps) (⟨some .name, w⟩ :: ps)
  separators : ∀ p ∈ ps, p.terminal? ≠ some .separator
  ends : ∀ p ∈ ps.getLast?, p.terminal?.isSome

/-- A name is a directive alone with what is read behind a blank. -/
theorem alone_spaced {p : Piece} (hname : nameCut? w = some (w, [])) (h : Scanned (.arguments none) cs (p :: ps))
    (hhead : ∀ c ∈ cs.head?, isGapBlank c = false) (hsep : ∀ q ∈ p :: ps, q.terminal? ≠ some .separator)
    (hends : ∀ q ∈ (p :: ps).getLast?, q.terminal?.isSome) : Alone w (⟨none, [' ']⟩ :: p :: ps) := by
  have hdelimits : Delimits (' ' :: cs) := by
    rintro _ ⟨⟩
    exact isLexical_mark (by decide)
  have hfirst : nameCut? (w ++ ' ' :: cs) = some (w, ' ' :: cs) := by
    have happend : nameCut? (w ++ ' ' :: cs) = (nameCut? w).map (·.followedBy (' ' :: cs)) :=
      Terminal.cut?_append hdelimits (runCut?_of hname).1 (t := .name) nofun nofun
    rw [happend, hname]
    rfl
  refine ⟨?_, List.forall_mem_cons.mpr ⟨nofun, hsep⟩, ?_⟩
  · rw [Piece.textOf_cons, h.text]
    exact .step (State.step?_name hfirst) (h.blank hhead)
  · rwa [List.getLast?_cons_cons]

/-- The arguments in pieces that stand behind a name. -/
def argumentsBehind (w : List Char) (ps : List Piece) : List Argument :=
  argumentsOf (locate (Place.origin.after w) ps)

theorem endsBy_argumentsBehind (w : List Char) (ps : List Piece) :
    (Statement.directive ⟨.name, String.ofList w, .origin⟩ (argumentsBehind w ps)).EndsBy
      (w ++ Piece.textOf ps).length := by
  constructor
  · simp [Lexeme.stop, Place.origin]
  · intro a ha
    have hstop := stop_le_of_mem_locate (last_mem ha)
    rw [Place.after_offset, Place.origin, Nat.zero_add] at hstop
    rwa [List.length_append]

namespace Alone

theorem rest (h : Alone w ps) : Scanned (.arguments none) (Piece.textOf ps) ps :=
  h.scanned.uncons.rest

theorem carried {Q : Place → List Char → Prop} (h : Alone w ps) (place : Place) :
    Carried Q (.arguments none) (locate place ps) (locate place ps) :=
  carried_of_same h.rest h.separators (List.forall₂_same.mpr fun _ _ => ⟨rfl, rfl, rfl⟩)

/-- The directive ends where its text ends. -/
theorem lastOf_stop (h : Alone w ps) :
    (Recipe.lastOf ⟨.name, String.ofList w, .origin⟩ (argumentsBehind w ps)).stop = (w ++ Piece.textOf ps).length := by
  have hcarried := h.carried (Q := fun _ _ => False) (Place.origin.after w)
  rw [Recipe.lastOf, argumentsBehind, hcarried.getLast?_argumentsOf hcarried.head?_ne_comma]
  rcases List.eq_nil_or_concat ps with rfl | ⟨us, p, rfl⟩
  · simp [locate, Lexeme.stop, Place.origin, Piece.textOf]
  · obtain ⟨t, ht⟩ := Option.isSome_iff_exists.mp (h.ends p (by simp))
    rw [List.concat_eq_append, locate_getLast? ht, Option.getD_some]
    simp only [Lexeme.stop, Place.after_offset, Piece.textOf_append, Piece.textOf_singleton, Place.origin,
      String.length_ofList, List.length_append]
    omega

theorem groupOf (h : Alone w ps) (ts : List Token) :
    Recipe.groupOf (String.ofList (w ++ Piece.textOf ps)) ⟨.name, String.ofList w, .origin⟩ (argumentsBehind w ps) ts =
      { name := String.ofList w, arguments := ts, line := 1, source := String.ofList (w ++ Piece.textOf ps) } := by
  rw [Recipe.groupOf, h.lastOf_stop]
  exact congrArg (TokenGroup.mk _ _ _) (slice_all _)

theorem statements (h : Alone w ps) : (ofLexemes (locate .origin (⟨some .name, w⟩ :: ps))).statements =
    [.directive ⟨.name, String.ofList w, .origin⟩ (argumentsBehind w ps)] := by
  have hseparators : ∀ p ∈ (⟨some .name, w⟩ : Piece) :: ps, p.terminal? ≠ some .separator :=
    List.forall_mem_cons.mpr ⟨by simp, h.separators⟩
  rw [statements_of_stretch hseparators]
  rfl

theorem scanned_source (h : Alone w ps) :
    Scanned .statement (String.ofList (w ++ Piece.textOf ps)).toList (⟨some .name, w⟩ :: ps) := by
  rw [String.toList_ofList]
  exact h.scanned

/-- A directive alone is a recipe of one group. -/
theorem ofText (h : Alone w ps) {ts : List Token}
    (ht : (argumentsBehind w ps).mapM (Argument.token (String.ofList (w ++ Piece.textOf ps))) = .ok ts) :
    Recipe.ofText (String.ofList (w ++ Piece.textOf ps)) = .ok
      { groups := [⟨String.ofList w, ts, 1, String.ofList (w ++ Piece.textOf ps)⟩], version := none, loadable := [] } := by
  refine Recipe.ofText_eq_ok.mpr ⟨_, read_eq_ok.mpr ⟨_, h.scanned_source, rfl⟩, ?_⟩
  rw [h.statements, List.foldlM_cons, Recipe.extend_directive _ _ ht, h.groupOf]
  rfl

end Alone

/-! ## The stretches between separators -/

/-- A stretch `seg` of the pieces that has the given lexemes, and ends with the last of them. -/
structure Stretch (s : State) (place : Place) (ls : List Lexeme) (pre seg post : List Piece) : Prop where
  state : s.afterAll pre = .statement
  lexemes : ls = locate (place.after (Piece.textOf pre)) seg
  ends : ∀ p ∈ seg.getLast?, p.terminal?.isSome
  isFinal : (State.statement.afterAll seg).isFinal = true
  delimits : Delimits (Piece.textOf post)

theorem Stretch.cons {p : Piece} {pre seg post : List Piece}
    (h : Stretch (s.after p) (place.after p.text) ls pre seg post) : Stretch s place ls (p :: pre) seg post :=
  { h with lexemes := by rw [Piece.textOf_cons, Place.after_append, ← h.lexemes] }

/-- Separators cut scanned pieces into stretches. The first one starts in the state at hand. -/
theorem splitOnP_locate (h : Scanned s cs ps) (hs : s.isRegular = true) (place : Place) :
    ∃ first more, (locate place ps).splitOnP (·.terminal == .separator) = first :: more ∧
      (∃ seg post, ps = seg ++ post ∧ first = locate place seg ∧ (∀ p ∈ seg.getLast?, p.terminal?.isSome) ∧
        (s.afterAll seg).isFinal = true ∧ Delimits (Piece.textOf post)) ∧
      ∀ ls ∈ more, ∃ pre seg post, ps = pre ++ (seg ++ post) ∧ Stretch s place ls pre seg post := by
  induction h generalizing place with
  | done hf => exact ⟨[], [], rfl, ⟨[], [], rfl, rfl, by simp, hf, by simp [Delimits, Piece.textOf]⟩, by simp⟩
  | @step s s' cs rest p ps hstep hps ih =>
    have htext := (Scanned.step hstep hps).text
    obtain rfl := State.after_of_step? hstep
    have hregular : (s.after p).isRegular = true := by
      rcases State.step?_cases hstep with ⟨_, _, hnext, _⟩ | ⟨_, hafter, _⟩
      · exact State.next?_isRegular hs hnext
      · rwa [hafter]
    obtain ⟨first, more, hsplit, ⟨seg, post, rfl, rfl, hends, hfinal, hdelimits⟩, hmore⟩ :=
      ih hregular (place.after p.text)
    have behind {ls : List Lexeme} (hls : ls ∈ more) :
        ∃ pre seg' post', p :: (seg ++ post) = pre ++ (seg' ++ post') ∧ Stretch s place ls pre seg' post' := by
      obtain ⟨pre, seg', post', hpieces, hstretch⟩ := hmore ls hls
      exact ⟨p :: pre, seg', post', by rw [hpieces]; rfl, hstretch.cons⟩
    obtain ⟨t?, w⟩ := p
    rcases State.step?_cases hstep with ⟨t, ht, hnext, _⟩ | ⟨ht, hafter, _⟩
    · obtain rfl : t? = some t := ht
      have hlocate : locate place (⟨some t, w⟩ :: (seg ++ post)) =
          ⟨t, String.ofList w, place⟩ :: locate (place.after w) (seg ++ post) := rfl
      rw [hlocate, List.splitOnP_cons_eq_if_modifyHead, hsplit]
      by_cases hsep : t = .separator
      · subst hsep
        have hstatement : s.after ⟨some .separator, w⟩ = .statement := by
          refine State.next?_separator ?_ hnext
          rintro rfl
          cases hs
        rw [hstatement] at hfinal
        refine ⟨[], _, if_pos rfl, ⟨[], _, rfl, rfl, by simp, next?_separator_isFinal hs hnext, ?_⟩, ?_⟩
        · rw [htext]
          exact delimits_of_step? hstep rfl
        · intro ls hls
          rcases List.mem_cons.mp hls with rfl | hls
          · refine ⟨[⟨some .separator, w⟩], seg, post, rfl, hstatement, ?_, hends, hfinal, hdelimits⟩
            rw [Piece.textOf_singleton]
          · exact behind hls
      · refine ⟨⟨t, String.ofList w, place⟩ :: locate (place.after w) seg, more, ?_,
          ⟨⟨some t, w⟩ :: seg, post, rfl, rfl, ?_, hfinal, hdelimits⟩, fun ls => behind⟩
        · rw [if_neg (by simpa using hsep)]
          rfl
        · intro p hp
          rw [List.getLast?_cons] at hp
          cases hseg : seg.getLast? with
          | none =>
            rw [hseg] at hp
            cases hp
            rfl
          | some q =>
            rw [hseg] at hp
            cases hp
            exact hends q hseg
    · obtain rfl : t? = none := ht
      refine ⟨_, more, hsplit, ?_, fun ls => behind⟩
      -- a gap in front of other lexemes belongs to the stretch, one behind the last lexeme does not
      by_cases hseg : seg = []
      · subst hseg
        refine ⟨[], ⟨none, w⟩ :: post, rfl, rfl, by simp, hafter ▸ hfinal, ?_⟩
        rw [List.nil_append] at htext
        rw [htext]
        exact delimits_of_step? hstep rfl
      · refine ⟨⟨none, w⟩ :: seg, post, rfl, rfl, ?_, hfinal, hdelimits⟩
        intro p hp
        rw [List.getLast?_cons_of_ne_nil hseg] at hp
        exact hends p hp

/-- The lexemes between two separators are those of a stretch that starts with the first of them. -/
theorem exists_stretch (h : Scanned .statement cs ps)
    (hls : ls ∈ (locate place ps).splitOnP (·.terminal == .separator)) :
    ∃ pre seg post, ps = pre ++ (seg ++ post) ∧ Stretch .statement place ls pre seg post ∧
      ∀ p ∈ seg.head?, p.terminal?.isSome := by
  obtain ⟨pre, seg, post, rfl, hstretch⟩ : ∃ pre seg post, ps = pre ++ (seg ++ post) ∧
      Stretch .statement place ls pre seg post := by
    obtain ⟨first, more, hsplit, ⟨seg, post, hpieces, hfirst, hends, hfinal, hdelimits⟩, hmore⟩ :=
      splitOnP_locate h rfl place
    rw [hsplit] at hls
    rcases List.mem_cons.mp hls with rfl | hls
    · exact ⟨[], seg, post, hpieces, rfl, hfirst, hends, hfinal, hdelimits⟩
    · exact hmore ls hls
  clear h hls
  induction seg generalizing pre with
  | nil => exact ⟨pre, [], post, rfl, hstretch, by simp⟩
  | cons p seg ih =>
    cases hp : p.terminal? with
    | some t =>
      refine ⟨pre, p :: seg, post, rfl, hstretch, ?_⟩
      rintro _ ⟨⟩
      rw [hp]
      rfl
    | none =>
      have hgap (s : State) : s.after p = s := by rw [State.after, hp]
      have hlexemes (q : Place) : locate q (p :: seg) = locate (q.after p.text) seg := by
        rw [locate, hp]
        rfl
      have hmore : Stretch .statement place ls (pre ++ [p]) seg post := by
        refine ⟨?_, ?_, ?_, ?_, hstretch.delimits⟩
        · rw [State.afterAll_append, hstretch.state]
          exact hgap _
        · rw [hstretch.lexemes, hlexemes, Piece.textOf_append, Piece.textOf_singleton, Place.after_append]
        · intro q hq
          refine hstretch.ends q ?_
          rw [List.getLast?_cons, Option.mem_def.mp hq]
          rfl
        · have hfinal := hstretch.isFinal
          rwa [State.afterAll, List.foldl_cons, hgap, ← State.afterAll] at hfinal
      obtain ⟨pre', seg', post', hpieces, hstretch', hhead⟩ := ih _ hmore
      exact ⟨pre', seg', post', by rw [← hpieces]; simp, hstretch', hhead⟩

/-- What stands between two separators is nothing, or it is scanned on its own from its first terminal on. -/
theorem exists_scanned_stretch (h : Scanned .statement cs ps)
    (hls : ls ∈ (locate place ps).splitOnP (·.terminal == .separator)) :
    ls = [] ∨ ∃ pre t w seg post, ps = pre ++ (⟨some t, w⟩ :: seg ++ post) ∧
      Stretch .statement place ls pre (⟨some t, w⟩ :: seg) post ∧
      Scanned .statement (w ++ Piece.textOf seg) (⟨some t, w⟩ :: seg) ∧ t ≠ .separator ∧
      ∀ p ∈ seg, p.terminal? ≠ some .separator := by
  obtain ⟨pre, seg, post, rfl, hstretch, hhead⟩ := exists_stretch h hls
  have hsuffix := h.suffix
  rw [hstretch.state] at hsuffix
  have hscanned := hsuffix.excerpt hstretch.isFinal hstretch.delimits
  have hsep : ∀ p ∈ seg, p.terminal? ≠ some .separator := by
    intro p hp hseparator
    obtain ⟨l, hl, hterminal⟩ := mem_locate_of_mem hp hseparator
    rw [← hstretch.lexemes] at hl
    exact (of_mem_splitOnP hls hl).2 hterminal
  cases seg with
  | nil => exact .inl hstretch.lexemes
  | cons p seg =>
    obtain ⟨t, ht⟩ := Option.isSome_iff_exists.mp (hhead p rfl)
    obtain ⟨_, w⟩ := p
    subst ht
    rw [List.forall_mem_cons] at hsep
    exact .inr ⟨pre, t, w, seg, post, rfl, hstretch, hscanned, fun ht => hsep.1 (by rw [ht]), hsep.2⟩

end RowRecipe.Script

namespace RowRecipe.Script

open Grammar

variable {place : Place} {w : List Char} {ps : List Piece} {t : Terminal} {ls : List Lexeme}

/-- Lexemes between two separators: a pragma or a directive, with what was read behind its first word. -/
inductive Opened (ls : List Lexeme) : Prop
  | pragma (place : Place) (w : List Char) (ps : List Piece) (hls : ls = locate place (⟨some .pragmaWord, w⟩ :: ps))
      (h : Scanned .pragma (Piece.textOf ps) ps) (hsep : ∀ p ∈ ps, p.terminal? ≠ some .separator)
  | directive (place : Place) (w : List Char) (ps : List Piece) (hls : ls = locate place (⟨some .name, w⟩ :: ps))
      (h : Scanned (.arguments none) (Piece.textOf ps) ps) (hsep : ∀ p ∈ ps, p.terminal? ≠ some .separator)

/-- What stands between two separators is nothing, a pragma or a directive. -/
theorem opened_of_mem_splitOnP {cs : List Char} {all : List Piece} (hall : Scanned .statement cs all)
    (hls : ls ∈ (locate place all).splitOnP (·.terminal == .separator)) : ls = [] ∨ Opened ls := by
  rcases exists_scanned_stretch hall hls with hnil | ⟨pre, t, w, ps, post, rfl, hstretch, hscanned, hfirst, hsep⟩
  · exact .inl hnil
  · right
    have hrest := hscanned.uncons.rest
    have hnext := hscanned.uncons.reads.1
    cases t with
    | name => exact .directive _ w ps hstretch.lexemes hrest hsep
    | pragmaWord => exact .pragma _ w ps hstretch.lexemes hrest hsep
    | separator => exact absurd rfl hfirst
    | _ => cases hnext

/-- A directive starts with its name. -/
theorem directive_of_ofLexemes? {name : Lexeme} {args : List Argument}
    (h : Scanned .statement (w ++ Piece.textOf ps) (⟨some t, w⟩ :: ps)) (hsep : t ≠ .separator)
    (hst : Statement.ofLexemes? (⟨t, String.ofList w, place⟩ :: ls) = some (.directive name args)) :
    t = .name ∧ name = ⟨.name, String.ofList w, place⟩ ∧ args = argumentsOf ls := by
  have hname : t ≠ .pragmaWord → t = .name := by
    intro hpragma
    have hnext := h.uncons.reads.1
    cases t with
    | name => rfl
    | separator => exact absurd rfl hsep
    | pragmaWord => exact absurd rfl hpragma
    | _ => cases hnext
  rw [Statement.ofLexemes?] at hst
  split at hst
  next =>
    split at hst <;> cases hst
  next hpragma =>
    obtain rfl := hname hpragma
    cases hst
    exact ⟨rfl, rfl, rfl⟩

/-- The arguments behind a name in a text are those of the name alone, in other places. -/
theorem argumentsOf_behind (before w : List Char) (ps : List Piece) :
    argumentsOf (locate ((Place.origin.after before).after w) ps) =
      (argumentsBehind w ps).map (Argument.within (Place.origin.after before)) := by
  have hplace : (Place.origin.after before).after w = (Place.origin.after before).within (Place.origin.after w) := by
    rw [← Place.within_after (Nat.le_refl 1), Place.within_origin]
  rw [hplace, locate_within (Place.after_line_pos (Nat.le_refl 1) w), argumentsOf_within, argumentsBehind]

end RowRecipe.Script

namespace RowRecipe.Recipe

open Grammar Script

/-- A directive comes from a stretch of the text that is this directive alone, where its arguments have the same
tokens and make the same group but for its line. -/
theorem exists_alone_of_directive {source : String} {all : List Piece} (hall : Scanned .statement source.toList all)
    {ls : List Lexeme} (hls : ls ∈ (locate .origin all).splitOnP (·.terminal == .separator)) {name : Lexeme}
    {args : List Argument} (hdirective : Statement.ofLexemes? ls = some (.directive name args)) {ts : List Token}
    (hts : args.mapM (Argument.token source) = .ok ts) :
    ∃ w ps, Alone w ps ∧
      (∃ place, ls = locate place (⟨some .name, w⟩ :: ps)) ∧
      (argumentsBehind w ps).mapM (Argument.token (String.ofList (w ++ Piece.textOf ps))) = .ok ts ∧
      ∃ line, groupOf source name args ts = ⟨String.ofList w, ts, line, String.ofList (w ++ Piece.textOf ps)⟩ := by
  rcases exists_scanned_stretch hall hls with rfl | ⟨pre, t, w, ps, post, rfl, hstretch, hscanned, hfirst, hsep⟩
  · cases hdirective
  · have hcons : ls = ⟨t, String.ofList w, Place.origin.after (Piece.textOf pre)⟩ ::
        locate ((Place.origin.after (Piece.textOf pre)).after w) ps := hstretch.lexemes
    rw [hcons] at hdirective
    obtain ⟨rfl, rfl, rfl⟩ := directive_of_ofLexemes? hscanned hfirst hdirective
    have halone : Alone w ps := by
      refine ⟨hscanned, hsep, fun p hp => hstretch.ends p ?_⟩
      rw [List.getLast?_cons, Option.mem_def.mp hp]
      rfl
    have hsource : source = String.ofList (Piece.textOf pre ++ (w ++ Piece.textOf ps) ++ Piece.textOf post) := by
      have htext := hall.text
      rw [Piece.textOf_append, List.cons_append, Piece.textOf_cons, Piece.textOf_append, ← List.append_assoc w,
        ← List.append_assoc] at htext
      rw [← String.ofList_toList (s := source), ← htext]
    have hname : (⟨.name, String.ofList w, Place.origin.after (Piece.textOf pre)⟩ : Lexeme) =
        Lexeme.within (Place.origin.after (Piece.textOf pre)) ⟨.name, String.ofList w, .origin⟩ := by
      rw [Lexeme.within, Place.within_origin]
    have hoffset : (Place.origin.after (Piece.textOf pre)).offset = (Piece.textOf pre).length := by
      rw [Place.after_offset]
      exact Nat.zero_add _
    have hends := endsBy_argumentsBehind w ps
    rw [argumentsOf_behind, hsource, tokens_within hoffset hends.2] at hts
    refine ⟨w, ps, halone, ⟨_, hstretch.lexemes⟩, hts, ?_⟩
    rw [argumentsOf_behind, hname, hsource, groupOf_within hends, halone.groupOf]
    exact ⟨_, rfl⟩

/-- Every group comes from a stretch of the text that is its directive alone. -/
theorem exists_alone {source : String} {r : Recipe} (h : ofText source = .ok r) {g : TokenGroup} (hg : g ∈ r.groups) :
    ∃ w ps, Alone w ps ∧ (argumentsBehind w ps).mapM (Argument.token g.source) = .ok g.arguments ∧
      g.name = String.ofList w ∧ g.source = String.ofList (w ++ Piece.textOf ps) := by
  obtain ⟨_, hread, hfold⟩ := ofText_eq_ok.mp h
  obtain ⟨all, hall, rfl⟩ := read_eq_ok.mp hread
  rcases mem_groups hfold hg with hnil | ⟨name, args, ts, hst, hts, rfl⟩
  · cases hnil
  obtain ⟨ls, hls, hdirective⟩ := List.mem_filterMap.mp hst
  obtain ⟨w, ps, halone, -, hts, line, hgroup⟩ := exists_alone_of_directive hall hls hdirective hts
  rw [hgroup]
  exact ⟨w, ps, halone, hts, rfl, rfl⟩

/-- The source of a group is a recipe that says this group alone. -/
theorem ofText_source {source : String} {r : Recipe} (h : ofText source = .ok r) {g : TokenGroup} (hg : g ∈ r.groups) :
    ofText g.source = .ok { groups := [{ g with line := 1 }], version := none, loadable := [] } := by
  obtain ⟨w, ps, halone, hts, hname, hsource⟩ := exists_alone h hg
  rw [hsource] at hts
  have halone := halone.ofText hts
  rwa [← hsource, ← hname] at halone

end RowRecipe.Recipe
