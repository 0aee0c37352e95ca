import RowRecipe.Proofs.Grammar.Surroundings
import RowRecipe.Script.Lexeme

/-!
# Names promoted to columns

In the arguments of a directive a name may become the column of that name: a colon goes before it. If no
word or number stands right before the name, scanning reads the new text as the same pieces, with the
column in place of the name. Comments may change freely, as long as they stay comments.
-/

namespace RowRecipe.Grammar

variable {c : Char} {cs xs w rest : List Char} {s s' s₂ : State} {ps qs : List Piece}

/-! ## Promotion -/

namespace State

/-- `s₂` is `s`, or it stands behind a column where `s` stands behind a name. -/
def Admits (s s₂ : State) : Prop :=
  s₂ = s ∨ (s = arguments none ∧ s₂ = arguments (some .column))

namespace Admits

theorem isFinal (h : Admits s s₂) (hf : s.isFinal = true) : s₂.isFinal = true := by
  rcases h with rfl | ⟨rfl, rfl⟩
  · exact hf
  · rfl

theorem next?_of_some {t : Terminal} (h : Admits s s₂) (hn : s.next? t = some s') :
    ∃ s₂', s₂.next? t = some s₂' ∧ Admits s' s₂' := by
  refine ⟨s', ?_, .inl rfl⟩
  rcases h with rfl | ⟨rfl, rfl⟩
  · exact hn
  · cases t <;> first | exact hn | cases hn

/-- Behind the column only a comma may be read besides. -/
theorem next?_of_none {t : Terminal} (h : Admits s s₂) (hn : s.next? t = none) :
    s₂.next? t = none ∨ t = .comma := by
  rcases h with rfl | ⟨rfl, rfl⟩
  · exact .inl hn
  · cases t <;> first | exact .inr rfl | exact .inl rfl | cases hn

end Admits

end State

/-- Some names of the first pieces are columns in the second ones. `Q` holds of the place and the text of
each such name, `place` is where the first pieces start, and `b` says whether a lexical character stands
right before them. -/
inductive Promoted (Q : Script.Place → List Char → Prop) :
    Script.Place → Bool → State → List Piece → List Piece → Prop
  | nil {place : Script.Place} {b : Bool} {s : State} : Promoted Q place b s [] []
  | keep {place : Script.Place} {b : Bool} {s : State} {p : Piece} {ps qs : List Piece}
      (h : Promoted Q (place.after p.text) (endsLexical p.text) (s.after p) ps qs) :
      Promoted Q place b s (p :: ps) (p :: qs)
  | comment {place : Script.Place} {b : Bool} {s : State} {u v : List Char} {ps qs : List Piece}
      (hu : '\n' ∉ u) (hv : '\n' ∉ v) (h : Promoted Q (place.after ('/' :: '/' :: u)) true s ps qs) :
      Promoted Q place b s (⟨none, '/' :: '/' :: u⟩ :: ps) (⟨none, '/' :: '/' :: v⟩ :: qs)
  | promote {place : Script.Place} {list : Option Terminal} {w : List Char} {ps qs : List Piece} (hn : '\n' ∉ w)
      (hw : Q place w) (h : Promoted Q (place.after w) true (.arguments none) ps qs) :
      Promoted Q place false (.arguments list) (⟨some .name, w⟩ :: ps) (⟨some .column, ':' :: w⟩ :: qs)

namespace Promoted

variable {Q : Script.Place → List Char → Prop} {place : Script.Place} {b : Bool}

/-- Behind a lexical character the two texts agree up to a delimiter. -/
theorem agree (h : Promoted Q place b s ps qs) (hb : b = true) : Agree (Piece.textOf ps) (Piece.textOf qs) := by
  have empty : Delimits [] := by
    rintro _ ⟨⟩
  induction h with
  | nil => exact ⟨[], [], [], rfl, rfl, empty, empty⟩
  | @keep place b s p ps qs h ih =>
    by_cases hp : endsLexical p.text = true
    · obtain ⟨v, xs, ys, hxs, hys, hdx, hdy⟩ := ih hp
      refine ⟨p.text ++ v, xs, ys, ?_, ?_, hdx, hdy⟩
      · rw [Piece.textOf, List.flatMap_cons, ← Piece.textOf, hxs, List.append_assoc]
      · rw [Piece.textOf, List.flatMap_cons, ← Piece.textOf, hys, List.append_assoc]
    · obtain ⟨u, c, hu⟩ : ∃ u c, p.text = u ++ [c] := by
        rcases List.eq_nil_or_concat p.text with hnil | ⟨u, c, hu⟩
        · rw [hnil] at hp
          exact absurd rfl hp
        · exact ⟨u, c, by rw [hu, List.concat_eq_append]⟩
      have hc : isLexical c = false := by
        rw [hu, endsLexical, List.getLast?_append, List.getLast?_singleton, Bool.not_eq_true] at hp
        exact hp
      have delimits (xs : List Char) : Delimits (c :: xs) := by
        rintro _ ⟨⟩
        exact hc
      refine ⟨u, c :: Piece.textOf ps, c :: Piece.textOf qs, ?_, ?_, delimits _, delimits _⟩
      · simp [Piece.textOf, hu]
      · simp [Piece.textOf, hu]
  | @comment place b s u v ps qs =>
    have delimits (xs : List Char) : Delimits ('/' :: xs) := by
      rintro _ ⟨⟩
      exact isLexical_mark (by decide)
    exact ⟨[], _, _, rfl, rfl, delimits _, delimits _⟩
  | promote => cases hb

/-- The first characters of the two texts are the same, unless a name is promoted there. -/
theorem head? (h : Promoted Q place b s ps qs) (hs : Scanned s cs ps) :
    (Piece.textOf qs).head? = cs.head? ∨
      b = false ∧ (Piece.textOf qs).head? = some ':' ∧ ∃ c, cs.head? = some c ∧ isNameStart c = true := by
  have first {p : Piece} {ps : List Piece} {c : Char} {w : List Char} (hp : p.text = c :: w) :
      (Piece.textOf (p :: ps)).head? = some c := by
    rw [Piece.textOf, List.flatMap_cons, hp]
    rfl
  rw [← hs.text]
  cases h with
  | nil => exact .inl rfl
  | keep h =>
    obtain ⟨c, w, hw⟩ := List.exists_cons_of_ne_nil hs.uncons.ne_nil
    exact .inl ((first hw).trans (first hw).symm)
  | comment => exact .inl rfl
  | @promote _ _ w =>
    have hstep := hs.uncons.step
    rcases State.step?_cases hstep with ⟨t, ht, _, hcut⟩ | ⟨ht, _⟩
    · cases ht
      obtain ⟨c, w, rfl⟩ := List.exists_cons_of_ne_nil hs.uncons.ne_nil
      rw [← hs.text] at hcut
      exact .inr ⟨rfl, rfl, c, rfl, Terminal.starts_of_cut? hcut⟩
    · cases ht

/-- A class of characters that the first text does not start with, the second does not start with. -/
theorem head?_eq_false (h : Promoted Q place b s ps qs) (hs : Scanned s cs ps) {f : Char → Bool}
    (hf : ∀ c ∈ cs.head?, f c = false) (hcolon : f ':' = false) :
    ∀ c ∈ (Piece.textOf qs).head?, f c = false := by
  intro c hc
  rcases h.head? hs with heq | ⟨_, heq, _⟩
  · exact hf c (heq ▸ hc)
  · rw [heq] at hc
    cases hc
    exact hcolon

end Promoted

/-! ## Scanning promoted pieces -/

/-- A step that reads something at a character can read nothing more in a state that admits more. -/
theorem State.Admits.blocked {p : Piece} (ha : State.Admits s s₂) (hstep : s.step? (c :: cs) = some (p, s', rest))
    {t : Terminal} (hn : s.next? t = none) (cs₂ : List Char) :
    s₂.next? t = none ∨ t.cut? (c :: cs₂) = none := by
  rcases ha.next?_of_none hn with hnone | rfl
  · exact .inl hnone
  · right
    apply Terminal.cut?_eq_none_of_starts
    rw [← Bool.not_eq_true]
    intro hc
    rcases State.step?_cases hstep with ⟨t, _, hnext, hcut⟩ | ⟨_, _, hgap, _⟩
    · obtain rfl := Terminal.eq_of_starts rfl hc (Terminal.starts_of_cut? hcut)
      rw [hn] at hnext
      cases hnext
    · obtain rfl : c = ',' := beq_iff_eq.mp hc
      rcases gapCut?_cases hgap with ⟨ds, hcs, _⟩ | ⟨d, ds, hd, hcs, _⟩
      · cases hcs
      · cases hcs
        cases hd

namespace Promoted

variable {Q : Script.Place → List Char → Prop} {place : Script.Place} {b : Bool} {p : Piece} {t : Terminal}

/-- A terminal that is not closed is read again. -/
theorem step?_word (hu : Uncons s cs p ps) (ht : p.terminal? = some t) (hc : t.isClosed = false)
    (ha : State.Admits s s₂) (hnext : s₂.next? t = some s')
    (h : Promoted Q place (endsLexical p.text) (s.after p) ps qs) (hq : Scanned (s.after p) (Piece.textOf qs) qs) :
    s₂.step? (p.text ++ Piece.textOf qs) = some (p, s', Piece.textOf qs) := by
  obtain ⟨step, -, rfl, hne⟩ := hu
  obtain ⟨t', w⟩ := p
  obtain rfl : t' = some t := ht
  simp only at step hne h hq ⊢
  have hcut : t.cut? (w ++ Piece.textOf ps) = some (w, Piece.textOf ps) := by
    rcases State.step?_cases step with ⟨t', ht, _, hcut⟩ | ⟨ht, _⟩
    · cases ht
      exact hcut
    · cases ht
  have hlex : endsLexical w = true := by
    simp only [Terminal.isClosed, Bool.or_eq_false_iff, beq_eq_false_iff_ne] at hc
    exact Terminal.endsLexical_of_cut? hc.1.2 hc.2 hc.1.1 hcut
  refine State.step?_agree hc step (h.agree hlex) hq (fun u hnone => ?_) hnext
  obtain ⟨c, ds, rfl⟩ := List.exists_cons_of_ne_nil hne
  exact ha.blocked step hnone _

/-- Where the first text goes on with a new line, so does the second. -/
theorem head?_eq_newline (h : Promoted Q place b s ps qs) (hs : Scanned s cs ps) (hn : ∀ c ∈ cs.head?, c = '\n') :
    ∀ c ∈ (Piece.textOf qs).head?, c = '\n' := by
  intro c hc
  rcases h.head? hs with heq | ⟨_, _, d, hd, hstart⟩
  · exact hn c (heq ▸ hc)
  · rw [hn d hd] at hstart
    cases hstart

/-- A step is made again. -/
theorem step?_again (hu : Uncons s cs p ps) (ha : State.Admits s s₂)
    (h : Promoted Q place (endsLexical p.text) (s.after p) ps qs) (hq : Scanned (s.after p) (Piece.textOf qs) qs) :
    ∃ s', State.Admits (s.after p) s' ∧ s₂.step? (p.text ++ Piece.textOf qs) = some (p, s', Piece.textOf qs) := by
  have hu' := hu
  obtain ⟨step, hps, rfl, -⟩ := hu
  obtain ⟨t?, w⟩ := p
  simp only at step hps h hq ⊢
  rcases State.step?_cases step with ⟨t, ht, hnext, hcut⟩ | ⟨ht, hafter, hgap, -⟩
  · obtain rfl : t? = some t := ht
    obtain ⟨s', hnext, hadmits⟩ := ha.next?_of_some hnext
    refine ⟨s', hadmits, ?_⟩
    cases hc : t.isClosed with
    | true => exact State.step?_closed hc hnext hcut _
    | false => exact step?_word hu' rfl hc ha hnext h hq
  · obtain rfl : t? = none := ht
    refine ⟨s₂, hafter ▸ ha, State.step?_gap ?_⟩
    exact gapCut?_follow hgap (h.head?_eq_newline hps) fun hb => h.head?_eq_false hps hb (by decide)

/-- A promoted name is read as a column. -/
theorem step?_promoted {list : Option Terminal}
    (hcut : Terminal.name.cut? (w ++ Piece.textOf ps) = some (w, Piece.textOf ps))
    (h : Promoted Q place true s ps qs) (hs : Scanned s (Piece.textOf ps) ps) (hq : Scanned s' (Piece.textOf qs) qs) :
    (State.arguments list).step? (':' :: (w ++ Piece.textOf qs)) =
      some (⟨some .column, ':' :: w⟩, .arguments (some .column), Piece.textOf qs) := by
  obtain ⟨⟨c, ds, rfl, hstart⟩, hw, hname⟩ := nameCut?_again hcut
  have hds : ∀ d ∈ ds, (d == '.' || isNameChar d) = true := by
    intro d hd
    rw [hw d (List.mem_cons_of_mem _ hd), Bool.or_true]
  have hend : ∀ d ∈ (Piece.textOf qs).head?, (d == '.' || isNameChar d) = false := by
    intro d hd
    rw [h.head?_eq_false hs hname (isNameChar_mark (by decide)) d hd, Bool.or_false, beq_eq_false_iff_ne]
    exact hq.head_ne_point d hd
  have hcolumn : columnCut? (':' :: (c :: ds ++ Piece.textOf qs)) = some (':' :: c :: ds, Piece.textOf qs) := by
    simp only [columnCut?, List.cons_append, runCut?, if_pos hstart, takeWhile_append_of_head hend,
      dropWhile_append_of_head hend, List.takeWhile_eq_self_iff.mpr hds, List.dropWhile_eq_nil_iff.mpr hds,
      List.nil_append, Option.map_some]
  refine State.step?_of_only rfl hcolumn fun u hu => .inr ?_
  apply Terminal.cut?_eq_none_of_starts
  rw [← Bool.not_eq_true]
  exact fun hc => hu (Terminal.eq_of_starts (t := .column) rfl rfl hc)

/-- What is scanned stays scanned when names are promoted. -/
theorem scanned (h : Promoted Q place b s ps qs) (hs : Scanned s cs ps) (ha : State.Admits s s₂) :
    Scanned s₂ (Piece.textOf qs) qs := by
  induction h generalizing cs s₂ with
  | nil =>
    cases hs with
    | done hf => exact .done (ha.isFinal hf)
  | @keep place b s p ps qs h ih =>
    obtain ⟨s', hadmits, hstep⟩ := step?_again hs.uncons ha h (ih hs.uncons.rest (.inl rfl))
    exact .step hstep (ih hs.uncons.rest hadmits)
  | @comment place b s u v ps qs hu hv h ih =>
    have hu := hs.uncons
    rcases State.step?_cases hu.step with ⟨t, ht, _⟩ | ⟨_, _, hgap, hother⟩
    · cases ht
    · have hnewline : ∀ c ∈ (Piece.textOf ps).head?, c = '\n' := by
        rcases gapCut?_cases hgap with ⟨ds, _, _, hrest⟩ | ⟨d, ds, hd, _, hw, _⟩
        · intro c hc
          simp only at hrest
          rw [hrest] at hc
          simpa using head?_dropWhile _ c hc
        · rw [(List.cons.inj hw).1] at hu
          cases (List.cons.inj hw).1 ▸ hd
      have hgap := gapCut?_comment hv (h.head?_eq_newline hu.rest hnewline)
      refine .step (State.step?_of_gap (fun t => .inr ?_) hgap) (ih hu.rest ha)
      exact Terminal.cut?_eq_none_of_starts t.not_starts_slash
  | @promote place list w ps qs hn hw h ih =>
    have hu := hs.uncons
    rcases State.step?_cases hu.step with ⟨t, ht, _, hcut⟩ | ⟨ht, _⟩
    · cases ht
      obtain ⟨list', rfl⟩ : ∃ list', s₂ = .arguments list' := by
        rcases ha with rfl | ⟨_, rfl⟩
        · exact ⟨_, rfl⟩
        · exact ⟨_, rfl⟩
      rw [hu.text] at hcut
      have hq := ih hu.rest (.inr ⟨rfl, rfl⟩)
      exact .step (step?_promoted hcut h hu.rest hq) hq
    · cases ht

end Promoted

end RowRecipe.Grammar
