import RowRecipe.Proofs.Grammar.Surroundings

/-!
# Excerpts of scanned texts

Pieces are scanned alike whatever comes behind them, as long as it comes behind a delimiter. So a text can be
cut off where a statement may end, and another text can be put behind its last line.
-/

namespace RowRecipe.Grammar

variable {s : State} {cs ds : List Char} {ps qs qs' : List Piece}

theorem Piece.textOf_cons (p : Piece) (ps : List Piece) : textOf (p :: ps) = p.text ++ textOf ps :=
  List.flatMap_cons

theorem Piece.textOf_singleton (p : Piece) : textOf [p] = p.text :=
  List.flatMap_singleton _ p

theorem Piece.textOf_append (ps qs : List Piece) : textOf (ps ++ qs) = textOf ps ++ textOf qs :=
  List.flatMap_append

namespace State

/-- The state behind several pieces. -/
def afterAll (s : State) (ps : List Piece) : State :=
  ps.foldl after s

theorem afterAll_append (s : State) (ps qs : List Piece) : s.afterAll (ps ++ qs) = (s.afterAll ps).afterAll qs :=
  List.foldl_append

theorem next?_separator_of_isFinal (h : s.isFinal = true) : s.next? .separator = some statement := by
  cases s <;> first | rfl | cases h

end State

/-- A gap or a mark delimits what stands before it. -/
theorem delimits_of_step? {p : Piece} {s' : State} {rest : List Char} (h : s.step? cs = some (p, s', rest))
    (hp : p.terminal?.all Terminal.isMark = true) : Delimits cs := by
  rcases State.step?_cases h with ⟨t, ht, _, hcut⟩ | ⟨_, _, hgap, _⟩
  · rw [ht] at hp
    rintro c hc
    obtain ⟨ds, rfl⟩ := List.head?_eq_some_iff.mp hc
    have hstart := Terminal.starts_of_cut? hcut
    cases t with
    | separator =>
      simp only [Terminal.starts, Bool.or_eq_true, beq_iff_eq] at hstart
      rcases hstart with rfl | rfl <;> exact isLexical_mark (by decide)
    | comma | equal | closing =>
      obtain rfl : c = _ := beq_iff_eq.mp hstart
      exact isLexical_mark (by decide)
    | _ => cases hp
  · rcases gapCut?_cases hgap with ⟨ds, rfl, _⟩ | ⟨d, ds, hd, rfl, _⟩
    · rintro _ ⟨⟩
      exact isLexical_mark (by decide)
    · rintro _ ⟨⟩
      exact not_isLexical_of_isGapBlank hd

namespace Scanned

theorem suffix (h : Scanned s cs (ps ++ qs)) : Scanned (s.afterAll ps) (Piece.textOf qs) qs := by
  induction ps generalizing s cs with
  | nil =>
    rw [List.nil_append] at h
    exact h.text ▸ h
  | cons p ps ih => exact ih h.uncons.rest

theorem isFinal (h : Scanned s cs ps) : (s.afterAll ps).isFinal = true := by
  have hend : Scanned (s.afterAll ps) [] [] := by
    rw [← List.append_nil ps] at h
    exact h.suffix
  cases hend with
  | done hf => exact hf

/-- As long as no separator is read, a region of the grammar that only separators leave is not left. -/
theorem exists_region {inside : State → Bool} (hinside : ∀ {s s' : State} {t : Terminal}, inside s = true →
      s.next? t = some s' → t ≠ .separator → inside s' = true)
    (h : Scanned s cs ps) (hs : inside s = true) (hsep : ∀ p ∈ ps, p.terminal? ≠ some .separator) :
    ∀ p ∈ ps, ∀ t, p.terminal? = some t → ∃ s', inside s' = true ∧ (s'.next? t).isSome = true := by
  induction h with
  | done _ => simp
  | @step s s' cs rest p ps hstep _ ih =>
    rw [List.forall_mem_cons] at hsep ⊢
    rcases State.step?_cases hstep with ⟨t, ht, hnext, -⟩ | ⟨ht, rfl, -⟩
    · refine ⟨?_, ih (hinside hs hnext fun hseparator => hsep.1 (hseparator ▸ ht)) hsep.2⟩
      intro u hu
      obtain rfl : u = t := Option.some.inj (hu.symm.trans ht)
      exact ⟨s, hs, by rw [hnext]; rfl⟩
    · refine ⟨?_, ih hs hsep.2⟩
      intro u hu
      rw [ht] at hu
      cases hu

/-- Pieces stay as they are where others come behind them. A comment goes on to the end of its line, and a
run of blanks to the next other character, so these two must not go on into what comes behind. -/
theorem exchange (h : Scanned s cs (ps ++ qs)) (hq : Scanned (s.afterAll ps) (Piece.textOf qs') qs')
    (hd : Delimits (Piece.textOf qs)) (hd' : Delimits (Piece.textOf qs'))
    (hn : (∀ c ∈ (Piece.textOf qs).head?, c = '\n') → ∀ c ∈ (Piece.textOf qs').head?, c = '\n')
    (hb : (∀ c ∈ (Piece.textOf qs).head?, isGapBlank c = false) →
      ∀ c ∈ (Piece.textOf qs').head?, isGapBlank c = false) :
    Scanned s (Piece.textOf (ps ++ qs')) (ps ++ qs') := by
  induction ps generalizing s cs with
  | nil => exact hq
  | cons p ps ih =>
    rw [List.cons_append] at h ⊢
    have hu := h.uncons
    have hrest := ih hu.rest hq
    obtain ⟨t?, w⟩ := p
    have hstep := hu.step
    rw [hu.text] at hstep
    rw [Piece.textOf_cons]
    refine .step ?_ hrest
    rcases State.step?_cases hstep with ⟨t, ht, hnext, hcut⟩ | ⟨ht, hafter, hgap, -⟩
    · obtain rfl : t? = some t := ht
      cases hc : t.isClosed with
      | true => exact State.step?_closed hc hnext hcut _
      | false =>
        have ha : Agree (Piece.textOf (ps ++ qs)) (Piece.textOf (ps ++ qs')) :=
          ⟨Piece.textOf ps, Piece.textOf qs, Piece.textOf qs', Piece.textOf_append ps qs,
            Piece.textOf_append ps qs', hd, hd'⟩
        exact State.step?_agree hc hstep ha hrest (fun _ hnone => .inl hnone) hnext
    · obtain rfl : t? = none := ht
      refine State.step?_gap (gapCut?_follow hgap ?_ ?_)
      all_goals
        rw [Piece.textOf_append, Piece.textOf_append]
        cases Piece.textOf ps with
        | nil => assumption
        | cons c cs => exact id

/-- Scanning reads a text up to a delimiter alike without what comes behind it. -/
theorem excerpt (h : Scanned s cs (ps ++ qs)) (hf : (s.afterAll ps).isFinal = true)
    (hd : Delimits (Piece.textOf qs)) : Scanned s (Piece.textOf ps) ps := by
  have hend : Scanned s (Piece.textOf (ps ++ [])) (ps ++ []) := by
    refine h.exchange (.done hf) hd ?_ ?_ ?_ <;> simp [Delimits, Piece.textOf]
  rwa [List.append_nil] at hend

/-- A line end between two texts separates their pieces. -/
theorem append_line (h : Scanned s cs ps) (hd : Scanned .statement ds qs) :
    Scanned s (cs ++ '\n' :: ds) (ps ++ ⟨some .separator, ['\n']⟩ :: qs) := by
  have hcut : Terminal.separator.cut? ('\n' :: ds) = some (['\n'], ds) := Terminal.cut?_separator rfl
  have hline : Scanned (s.afterAll ps) ('\n' :: ds) (⟨some .separator, ['\n']⟩ :: qs) :=
    .step (State.step?_closed rfl (State.next?_separator_of_isFinal h.isFinal) hcut ds) hd
  have htext : Piece.textOf (ps ++ ⟨some .separator, ['\n']⟩ :: qs) = cs ++ '\n' :: ds := by
    rw [Piece.textOf_append, h.text, hline.text]
  rw [← htext]
  rw [← List.append_nil ps] at h
  rw [← hline.text] at hline
  refine h.exchange hline (by simp [Delimits, Piece.textOf]) ?_ ?_ ?_
  · rintro _ ⟨⟩
    exact isLexical_mark (by decide)
  · rintro - _ ⟨⟩
    rfl
  · rintro - _ ⟨⟩
    rfl

end Scanned

end RowRecipe.Grammar
