import RowRecipe.Proofs.Grammar.Excerpt
import RowRecipe.Proofs.Grammar.Numbers
import RowRecipe.Proofs.Grammar.States

/-!
# Arguments with single blanks between them

The gaps between the arguments of a directive may be left out, except that one blank stands before each
argument. Then scanning reads the same terminals, also where nothing stood between two of them before.
-/

namespace RowRecipe.Grammar

variable {s s' s₁ s₂ : State} {cs w rest xs : List Char} {t : Terminal} {ps qs : List Piece}

/-! ## Steps in front of a delimiter -/

/-- Whether a terminal with a meaning may stand in a directive. -/
def Terminal.isMeant (t : Terminal) : Bool :=
  t.isClosed || t.isNumeric || t == .name || t == .column

theorem runCut?_rest {first more : Char → Bool} {r : Cut} (h : runCut? first more cs = some r) :
    ∀ c ∈ r.2.head?, more c = false := by
  unfold runCut? at h
  split at h
  next => cases h
  next c cs =>
    split at h
    next =>
      cases h
      exact head?_dropWhile cs
    next => cases h

/-- What follows a name or a column delimits it. -/
theorem Terminal.delimits_of_cut? (ht : t = .name ∨ t = .column) (h : t.cut? (w ++ rest) = some (w, rest))
    (hs : Scanned s rest ps) : Delimits rest := by
  intro c hc
  rcases ht with rfl | rfl
  · have hname : isNameChar c = false := (nameCut?_again h).2.2 c hc
    rw [isLexical, hname, Bool.or_false, beq_eq_false_iff_ne]
    exact hs.head_ne_point c hc
  · change columnCut? (w ++ rest) = _ at h
    unfold columnCut? at h
    split at h
    next =>
      obtain ⟨r, hr, he⟩ := Option.map_eq_some_iff.mp h
      obtain rfl : r.2 = rest := congrArg Prod.snd he
      exact runCut?_rest hr c hc
    next => cases h

/-- A terminal is read in the same way in front of a delimiter. -/
theorem State.step?_delimited (ht : t.isMeant = true)
    (h : s.step? (w ++ rest) = some (⟨some t, w⟩, s', rest)) (hs : Scanned s₂ rest ps) (hd : Delimits xs)
    (hq : Scanned s₁ xs qs) : s.step? (w ++ xs) = some (⟨some t, w⟩, s', xs) := by
  obtain ⟨hnext, hcut⟩ : s.next? t = some s' ∧ t.cut? (w ++ rest) = some (w, rest) := by
    rcases step?_cases h with ⟨t', ht', hnext, hcut⟩ | ⟨ht', _⟩
    · cases ht'
      exact ⟨hnext, hcut⟩
    · cases ht'
  cases hc : t.isClosed with
  | true => exact step?_closed hc hnext hcut xs
  | false =>
    obtain ⟨r, hd₀, h⟩ : ∃ r, Delimits r ∧ s.step? (w ++ r) = some (⟨some t, w⟩, s', r) := by
      cases hn : t.isNumeric with
      | true => exact ⟨[], by simp [Delimits], by rw [List.append_nil]; exact step?_truncate hn h⟩
      | false =>
        have hword : t = .name ∨ t = .column := by
          simpa [Terminal.isMeant, hc, hn] using ht
        exact ⟨rest, Terminal.delimits_of_cut? hword hcut hs, h⟩
    exact step?_agree hc h ⟨[], r, xs, rfl, rfl, hd₀, hd⟩ hq (fun _ hnone => .inl hnone) hnext

/-! ## Blanks -/

/-- Whether the terminal starts an argument in the state. -/
def State.startsArgument : State → Terminal → Bool
  | arguments _, t => t != .comma
  | _, _ => false

/-- The pieces of arguments with one blank before each argument and no other gaps between them. Properties
keep their gaps. -/
def respaced : State → List Piece → List Piece
  | _, [] => []
  | s, p :: ps =>
    match p.terminal? with
    | none => if s.inProperties then p :: respaced s ps else respaced s ps
    | some t =>
      if s.startsArgument t then ⟨none, [' ']⟩ :: p :: respaced (s.after p) ps else p :: respaced (s.after p) ps

section Equations

variable {p : Piece}

theorem respaced_gap_of_inProperties (hp : p.terminal? = none) (hs : s.inProperties = true) :
    respaced s (p :: ps) = p :: respaced s ps := by
  rw [respaced, hp]
  exact if_pos hs

theorem respaced_gap (hp : p.terminal? = none) (hs : s.inProperties = false) : respaced s (p :: ps) = respaced s ps := by
  rw [respaced, hp]
  exact if_neg (by simp [hs])

theorem respaced_start (hp : p.terminal? = some t) (ht : s.startsArgument t = true) :
    respaced s (p :: ps) = ⟨none, [' ']⟩ :: p :: respaced (s.after p) ps := by
  rw [respaced, hp]
  exact if_pos ht

theorem respaced_more (hp : p.terminal? = some t) (ht : s.startsArgument t = false) :
    respaced s (p :: ps) = p :: respaced (s.after p) ps := by
  rw [respaced, hp]
  exact if_neg (by simp [ht])

end Equations

theorem Delimits.of_append {u v : List Char} (hu : u ≠ []) (h : Delimits (u ++ v)) (xs : List Char) :
    Delimits (u ++ xs) := by
  obtain ⟨c, u, rfl⟩ := List.exists_cons_of_ne_nil hu
  exact h

/-- A state behind a complete argument, key or value. -/
def State.isBehind : State → Bool
  | arguments _ | equal | valueEnd => true
  | _ => false

/-- Behind a complete argument, key or value comes a delimiter. -/
theorem delimits_respaced (h : Scanned s cs ps) (hs : s.isBehind = true) : Delimits (Piece.textOf (respaced s ps)) := by
  induction h with
  | done => simp [respaced, Delimits, Piece.textOf]
  | @step s s' cs rest p ps hstep _ ih =>
    have hof := s.step?_of hstep
    rcases State.step?_cases hstep with ⟨t, ht, hnext, hcut⟩ | ⟨ht, rfl, _⟩
    · cases hstart : s.startsArgument t with
      | true =>
        rw [respaced_start ht hstart]
        rintro _ ⟨⟩
        exact isLexical_mark (by decide)
      | false =>
        rw [respaced_more ht hstart, Piece.textOf_cons]
        have hmark : t.isMark = true := by
          cases s with
          | «arguments» list =>
            obtain rfl : t = .comma := by simpa [State.startsArgument] using hstart
            rfl
          | equal | valueEnd => cases t <;> first | rfl | cases hnext
          | _ => cases hs
        have hdelimits := delimits_of_step? hstep (by rw [ht]; exact hmark)
        rw [← hof.2] at hdelimits
        exact hdelimits.of_append hof.1 _
    · cases hin : s'.inProperties with
      | true =>
        rw [respaced_gap_of_inProperties ht hin, Piece.textOf_cons]
        have hdelimits := delimits_of_step? hstep (by rw [ht]; rfl)
        rw [← hof.2] at hdelimits
        exact hdelimits.of_append hof.1 _
      | false =>
        rw [respaced_gap ht hin]
        exact ih hs

/-- Whether the state is in a directive, behind its name. -/
def State.inDirective (s : State) : Bool :=
  s.inArguments || s.inProperties

theorem State.next?_inDirective (hs : s.inDirective = true) (h : s.next? t = some s') (hsep : t ≠ .separator) :
    s'.inDirective = true := by
  rw [inDirective, Bool.or_eq_true] at hs ⊢
  rcases hs with hs | hs
  · by_cases hopen : t = .opening
    · subst hopen
      rw [next?_opening hs h]
      exact .inr rfl
    · exact .inl (next?_inArguments hs h hsep hopen)
  · obtain ⟨-, hmore, hclosing⟩ := next?_inProperties hs h
    by_cases hc : t = .closing
    · rw [hclosing hc]
      exact .inl rfl
    · exact .inr (hmore hc)

/-- In a directive, a terminal that is not closed ends an argument, a key or a value. -/
theorem State.isBehind_of_next? (hs : s.inDirective = true) (h : s.next? t = some s') (hc : t.isClosed = false) : s'.isBehind = true := by
  cases s with
  | «arguments» list =>
    cases t <;> first | (cases hc; done) | (cases h; rfl) | cases h
  | item kind =>
    have h : (if t = kind then some (State.arguments (some kind)) else none) = some s' := h
    split at h
    next =>
      cases h
      rfl
    next => cases h
  | firstKey | nextKey | equal | value | valueEnd =>
    cases t <;> first | (cases hc; done) | (cases h; rfl) | cases h
  | _ => cases hs

/-- Properties go on as before. -/
theorem head?_respaced (h : Scanned s cs ps) (hs : s.inProperties = true) :
    (Piece.textOf (respaced s ps)).head? = cs.head? := by
  cases ps with
  | nil => rw [← h.text, respaced]
  | cons p ps =>
    obtain ⟨qs, hqs⟩ : ∃ qs, respaced s (p :: ps) = p :: qs := by
      cases hp : p.terminal? with
      | none => exact ⟨_, respaced_gap_of_inProperties hp hs⟩
      | some t =>
        refine ⟨_, respaced_more hp ?_⟩
        cases s <;> first | rfl | cases hs
    obtain ⟨c, w, hw⟩ := List.exists_cons_of_ne_nil h.uncons.ne_nil
    rw [hqs, Piece.textOf_cons, h.uncons.text, hw]
    rfl

/-- Respaced pieces are scanned. -/
theorem scanned_respaced (h : Scanned s cs ps) (hs : s.inDirective = true)
    (hps : ∀ p ∈ ps, ∀ t, p.terminal? = some t → t.isMeant = true ∧ t ≠ .separator) :
    Scanned s (Piece.textOf (respaced s ps)) (respaced s ps) := by
  induction h with
  | done hf => exact .done hf
  | @step s s' cs rest p ps hstep hrest ih =>
    rw [List.forall_mem_cons] at hps
    have hof := s.step?_of hstep
    rw [← hof.2] at hstep
    obtain ⟨t?, w⟩ := p
    rcases State.step?_cases hstep with ⟨t, ht, hnext, hcut⟩ | ⟨ht, rfl, hgap, _⟩
    · obtain rfl : t? = some t := ht
      obtain ⟨hmeant, hsep⟩ := hps.1 t rfl
      have hafter : s.after ⟨some t, w⟩ = s' := State.after_of_step? hstep
      have hmore := ih (State.next?_inDirective hs hnext hsep) hps.2
      have hagain : s.step? (w ++ Piece.textOf (respaced s' ps)) =
          some (⟨some t, w⟩, s', Piece.textOf (respaced s' ps)) := by
        cases hc : t.isClosed with
        | true => exact State.step?_closed hc hnext hcut _
        | false =>
          have hbehind := State.isBehind_of_next? hs hnext hc
          exact State.step?_delimited hmeant hstep hrest (delimits_respaced hrest hbehind) hmore
      have hword : Scanned s (w ++ Piece.textOf (respaced s' ps)) (⟨some t, w⟩ :: respaced s' ps) := .step hagain hmore
      cases hstart : s.startsArgument t with
      | false =>
        rw [respaced_more rfl hstart, hafter, Piece.textOf_cons]
        exact hword
      | true =>
        rw [respaced_start rfl hstart, hafter]
        refine hword.blank ?_
        obtain ⟨c, ds, rfl⟩ := List.exists_cons_of_ne_nil hof.1
        rintro _ ⟨⟩
        rw [← Bool.not_eq_true]
        intro hblank
        have hfirst := Terminal.starts_of_cut? hcut
        rw [Terminal.not_starts_of_isGapBlank hblank] at hfirst
        cases hfirst
    · obtain rfl : t? = none := ht
      have hmore := ih hs hps.2
      cases hin : s'.inProperties with
      | false =>
        rw [respaced_gap rfl hin]
        exact hmore
      | true =>
        rw [respaced_gap_of_inProperties rfl hin, Piece.textOf_cons]
        refine .step (State.step?_gap (gapCut?_follow hgap ?_ ?_)) hmore
        all_goals
          rw [head?_respaced hrest hin]
          exact id

end RowRecipe.Grammar
