import RowRecipe.Proofs.Grammar.Excerpt
import RowRecipe.Script.Lexeme

/-!
# The pieces at the start of a text

Scanning goes from piece to piece, and the next piece depends on the state and on the text from there on. So the steps
that lead to a place in a text decide its first pieces, and scanning the text is scanning what is left behind them.
-/

namespace RowRecipe.Grammar

/-- Steps of scanning take the pieces, and lead to a state and to the rest of the text. -/
inductive Takes : State → List Char → List Piece → State → List Char → Prop
  | nil {s : State} {cs : List Char} : Takes s cs [] s cs
  | cons {s s₁ s' : State} {cs cs₁ rest : List Char} {p : Piece} {us : List Piece}
      (h : s.step? cs = some (p, s₁, cs₁)) (hus : Takes s₁ cs₁ us s' rest) : Takes s cs (p :: us) s' rest

namespace Takes

variable {s s₁ s' : State} {cs cs₁ rest : List Char} {us vs qs : List Piece}

theorem append (h : Takes s cs us s₁ cs₁) (h' : Takes s₁ cs₁ vs s' rest) : Takes s cs (us ++ vs) s' rest := by
  induction h with
  | nil => exact h'
  | cons hstep _ ih => exact .cons hstep (ih h')

theorem text (h : Takes s cs us s' rest) : cs = Piece.textOf us ++ rest := by
  induction h with
  | nil => rfl
  | @cons s s₁ s' cs cs₁ rest p us hstep _ ih =>
    have hcut : p.text ++ cs₁ = cs := (s.step?_of hstep).2
    rw [Piece.textOf_cons, List.append_assoc, ← ih, hcut]

/-- A text is scanned as the pieces that the steps take and those that the rest is scanned as. -/
theorem scanned_iff (h : Takes s cs us s' rest) :
    Scanned s cs qs ↔ ∃ ps, qs = us ++ ps ∧ Scanned s' rest ps := by
  induction h generalizing qs with
  | nil => simp
  | @cons s s₁ s' cs cs₁ rest p us hstep _ ih =>
    constructor
    · intro hqs
      cases hqs with
      | done =>
        rw [State.step?_nil] at hstep
        cases hstep
      | step hstep' hps =>
        rw [hstep] at hstep'
        cases hstep'
        obtain ⟨ps, rfl, hrest⟩ := ih.mp hps
        exact ⟨ps, rfl, hrest⟩
    · rintro ⟨ps, rfl, hrest⟩
      exact .step hstep (ih.mpr ⟨ps, rfl, hrest⟩)

theorem scanned {ps : List Piece} (h : Takes s cs us s' rest) (hps : Scanned s' rest ps) : Scanned s cs (us ++ ps) :=
  h.scanned_iff.mpr ⟨ps, rfl, hps⟩

/-- A single blank is a gap. -/
theorem blank (hcs : ∀ c ∈ cs.head?, isGapBlank c = false) (h : Takes s cs us s' rest) :
    Takes s (' ' :: cs) (⟨none, [' ']⟩ :: us) s' rest :=
  .cons (State.step?_gap (gapCut?_blanks (u := []) rfl (by simp) hcs)) h

/-- A semicolon ends a statement. -/
theorem semicolon (hs : s.isFinal = true) (cs : List Char) :
    Takes s (';' :: cs) [⟨some .separator, [';']⟩] .statement cs := by
  have hcut : Terminal.separator.cut? (';' :: cs) = some ([';'], cs) := Terminal.cut?_separator rfl
  exact .cons (State.step?_closed rfl (State.next?_separator_of_isFinal hs) hcut cs) .nil

end Takes

/-- Steps of scanning take gaps only, and lead to the rest of the text. -/
structure Skips (s : State) (cs : List Char) (us : List Piece) (rest : List Char) : Prop where
  takes : Takes s cs us s rest
  gaps : ∀ p ∈ us, p.terminal? = none

/-- Blanks up to another character are a gap, if there are any. -/
theorem exists_skips {s : State} {u cs : List Char} (hu : ∀ c ∈ u, isGapBlank c = true)
    (hcs : ∀ c ∈ cs.head?, isGapBlank c = false) : ∃ us, Skips s (u ++ cs) us cs := by
  cases u with
  | nil => exact ⟨[], .nil, by simp⟩
  | cons c u =>
    rw [List.forall_mem_cons] at hu
    exact ⟨[⟨none, c :: u⟩], .cons (State.step?_gap (gapCut?_blanks hu.1 hu.2 hcs)) .nil, by simp⟩

end RowRecipe.Grammar

namespace RowRecipe.Script

open Grammar

variable {s : State} {cs : List Char} {ps qs : List Piece}

theorem locate_gaps {gs : List Piece} (hgs : ∀ g ∈ gs, g.terminal? = none) (place : Place) (ps : List Piece) :
    locate place (gs ++ ps) = locate (place.after (Piece.textOf gs)) ps := by
  induction gs generalizing place with
  | nil => rfl
  | cons g gs ih =>
    rw [List.forall_mem_cons] at hgs
    rw [List.cons_append, locate, hgs.1, Piece.textOf_cons, Place.after_append, ← ih hgs.2]
    rfl

/-- With a blank in front, a text is read alike from behind the gap at its start. -/
theorem exists_skips_blank (s : State) (cs : List Char) :
    ∃ us vs rest, Skips s cs us rest ∧ Skips s (' ' :: cs) vs rest ∧
      ∀ (p : Place) (ps : List Piece), locate p (vs ++ ps) = locate (p.next ' ') (us ++ ps) := by
  have hsplit : cs.takeWhile isGapBlank ++ cs.dropWhile isGapBlank = cs := List.takeWhile_append_dropWhile
  have hblanks : ∀ c ∈ cs.takeWhile isGapBlank, isGapBlank c = true := fun c => List.mem_takeWhile_imp
  have hblanks' : ∀ c ∈ ' ' :: cs.takeWhile isGapBlank, isGapBlank c = true :=
    List.forall_mem_cons.mpr ⟨by decide, hblanks⟩
  have hrest := head?_dropWhile (p := isGapBlank) cs
  obtain ⟨us, hus⟩ := exists_skips (s := s) hblanks hrest
  obtain ⟨vs, hvs⟩ := exists_skips (s := s) hblanks' hrest
  have htext : Piece.textOf vs = ' ' :: Piece.textOf us :=
    List.append_cancel_right (hvs.takes.text.symm.trans (congrArg (' ' :: ·) hus.takes.text))
  rw [hsplit] at hus
  rw [List.cons_append, hsplit] at hvs
  refine ⟨us, vs, _, hus, hvs, fun p ps => ?_⟩
  rw [locate_gaps hvs.gaps, locate_gaps hus.gaps, htext]
  rfl

/-- A blank in front of a text joins the gap at its start, or it is a gap of its own. -/
theorem scanned_blank (h : Scanned s cs ps) :
    ∃ qs, Scanned s (' ' :: cs) qs ∧ ∀ p : Place, locate p qs = locate (p.next ' ') ps := by
  obtain ⟨us, vs, rest, hus, hvs, hlocate⟩ := exists_skips_blank s cs
  obtain ⟨ps, rfl, hps⟩ := hus.takes.scanned_iff.mp h
  exact ⟨vs ++ ps, hvs.takes.scanned hps, fun p => hlocate p ps⟩

/-- What is scanned behind a blank is scanned without it. -/
theorem scanned_of_blank (h : Scanned s (' ' :: cs) qs) :
    ∃ ps, Scanned s cs ps ∧ ∀ p : Place, locate p qs = locate (p.next ' ') ps := by
  obtain ⟨us, vs, rest, hus, hvs, hlocate⟩ := exists_skips_blank s cs
  obtain ⟨ps, rfl, hps⟩ := hvs.takes.scanned_iff.mp h
  exact ⟨us ++ ps, hus.takes.scanned hps, fun p => hlocate p ps⟩

end RowRecipe.Script
